import PolicyReach.Flow.Session
import PolicyReach.Proofs.Fallible
import PolicyReach.Proofs.Flow.Growth

/-!
# A graph kept in three tables

A graph can be kept in three tables: its edges by both ends, and for every type the targets and the sources
of its edges as plain sets. Neighbours are then looked up twice, first the set and then each edge, and one
whose edge is missing would be left out without a word. The tables agree whatever is done to the graph, so
none ever is.

Model: `FlowTables` has the three tables with their own insertion and their own `neighbors`. Graphs are
written to in two ways only, by an edge and by a root (`GraphWrite`); the same writes make a `FlowGraph` and
a `FlowTables`. `FlowGraph.Produced` are the graphs that scanning, building, selecting and growing give,
one from another in any order.

Results:
* `Produced.written`: what is produced is written by edges with two different ends and some rule, and roots;
* `FlowGraph.Regular`, `Represents`: what such writes keep of a graph, and between it and its tables;
* `Represents.neighbors_eq`: no neighbour is left out;
* **`graph_tables_agree`**: all three tables of a produced graph agree, and its neighbours are its edges.
-/

namespace PolicyReach

/-! ## Tables -/

/-- A graph kept in three tables. -/
structure FlowTables where
  nodes : OrdSet TypeName := ∅
  /-- The edges by source and target. -/
  edges : OrdMap (KeyPair TypeName TypeName) Edge := ∅
  /-- The targets of the edges of each type. -/
  successors : OrdMap TypeName (OrdSet TypeName) := ∅
  /-- The sources of the edges to each type. -/
  predecessors : OrdMap TypeName (OrdSet TypeName) := ∅
  roots : OrdSet TypeName := ∅

namespace FlowTables

/-- The edge from one type to another. -/
def edge? (t : FlowTables) (source target : TypeName) : Option Edge := t.edges.get? ⟨source, target⟩

/-- The edge that a walk follows from `a` to `b`. -/
def orientedEdge? (t : FlowTables) (o : Orientation) (a b : TypeName) : Option Edge :=
  match o with
  | .forward => t.edge? a b
  | .backward => t.edge? b a

/-- The types next to a node, in some orientation. -/
def adjacent (t : FlowTables) (o : Orientation) (node : TypeName) : OrdSet TypeName :=
  let side := match o with
    | .forward => t.successors
    | .backward => t.predecessors
  (side.get? node).getD ∅

/-- The types next to a node with the edges to them; one without an edge is left out. -/
def neighbors (t : FlowTables) (o : Orientation) (node : TypeName) : List (TypeName × Edge) :=
  (t.adjacent o node).toList.filterMap fun next =>
    (t.orientedEdge? o node next).map fun e => (next, e)

/-- Put a type next to a node. -/
def link (side : OrdMap TypeName (OrdSet TypeName)) (node next : TypeName) :
    OrdMap TypeName (OrdSet TypeName) :=
  side.insertWith OrdSet.union node (.singleton next)

/-- Add an edge and its ends, joined to the edge that is there. -/
def insertEdge (t : FlowTables) (e : Edge) : FlowTables :=
  { t with
    nodes := (t.nodes.insert e.source).insert e.target
    edges := t.edges.insertWith Edge.join e.key e
    successors := link t.successors e.source e.target
    predecessors := link t.predecessors e.target e.source }

/-- Add a root. -/
def addRoot (t : FlowTables) (root : TypeName) : FlowTables :=
  { t with nodes := t.nodes.insert root, roots := t.roots.insert root }

variable {t : FlowTables} {e : Edge} {o : Orientation} {a b : TypeName}

theorem mem_link {side : OrdMap TypeName (OrdSet TypeName)} {node next : TypeName} :
    b ∈ ((link side node next).get? a).getD ∅ ↔
      node = a ∧ next = b ∨ b ∈ (side.get? a).getD ∅ := by
  unfold link
  rw [OrdMap.get?_insertWith]
  by_cases ha : a = node
  · subst ha
    rw [if_pos rfl, Option.getD_some]
    cases side.get? a with
    | none =>
      have hempty : ¬ b ∈ (∅ : OrdSet TypeName) := OrdSet.not_mem_empty b
      simp [OrdSet.mem_singleton, hempty, eq_comm]
    | some s =>
      simp [OrdSet.mem_union, OrdSet.mem_singleton, or_comm, eq_comm]
  · rw [if_neg ha, or_iff_right fun h => ha h.1.symm]

theorem mem_adjacent_insertEdge :
    b ∈ (t.insertEdge e).adjacent o a ↔ e.near o = a ∧ e.far o = b ∨ b ∈ t.adjacent o a := by
  cases o with
  | forward => exact mem_link
  | backward => exact mem_link

theorem edge?_insertEdge :
    (t.insertEdge e).edge? a b =
      if e.joins .forward a b then some (Edge.onto (t.edge? a b) e) else t.edge? a b := by
  have hkey : (⟨a, b⟩ : KeyPair TypeName TypeName) = e.key ↔ e.joins .forward a b = true := by
    rw [Edge.joins_forward_iff, Edge.key, KeyPair.mk.injEq, eq_comm, eq_comm (a := b)]
  show (t.edges.insertWith Edge.join e.key e).get? ⟨a, b⟩ = _
  rw [OrdMap.get?_insertWith]
  by_cases hj : e.joins .forward a b = true
  · rw [if_pos hj, if_pos (hkey.mpr hj), ← hkey.mpr hj]
    rfl
  · rw [if_neg hj, if_neg fun h => hj (hkey.mp h)]
    rfl

/-- **The tables agree.** What is next to a type has an edge in the table of edges, and the other way
round, at both ends; edges are filed under their ends, which are nodes; and nothing else is a node but
roots. -/
structure Agree (t : FlowTables) : Prop where
  successor_iff : ∀ a b, b ∈ t.adjacent .forward a ↔ ∃ e, t.edge? a b = some e
  predecessor_iff : ∀ a b, a ∈ t.adjacent .backward b ↔ ∃ e, t.edge? a b = some e
  ends : ∀ a b e, t.edge? a b = some e → e.source = a ∧ e.target = b
  nodes : ∀ a b e, t.edge? a b = some e → a ∈ t.nodes ∧ b ∈ t.nodes
  filed : ∀ n ∈ t.nodes, n ∈ t.roots ∨ ∃ a b e, t.edge? a b = some e ∧ (n = a ∨ n = b)
  loopless : ∀ a b e, t.edge? a b = some e → a ≠ b
  ruled : ∀ a b e, t.edge? a b = some e → ∃ id, id ∈ e.rules

/-- A list has the edges that leave a node in some orientation, each once, by ascending neighbour. -/
structure Lists (t : FlowTables) (o : Orientation) (node : TypeName) (l : List (TypeName × Edge)) :
    Prop where
  mem_iff : ∀ next e, (next, e) ∈ l ↔ t.orientedEdge? o node next = some e
  ascending : l.Pairwise fun x y => compare x.1 y.1 = .lt
  complete : l.map Prod.fst = (t.adjacent o node).toList

end FlowTables

/-! ## Writing to a graph -/

/-- What is written to a graph: an edge, or a root. -/
inductive GraphWrite where
  | edge (e : Edge)
  | root (t : TypeName)

/-- The edge has two different ends and some rule. -/
def GraphWrite.Proper : GraphWrite → Prop
  | .edge e => e.source ≠ e.target ∧ ∃ id, id ∈ e.rules
  | .root _ => True

/-- The tables with something written to them. -/
def FlowTables.write (t : FlowTables) : GraphWrite → FlowTables
  | .edge e => t.insertEdge e
  | .root r => t.addRoot r

namespace FlowGraph

/-- The graph with something written to it. -/
def write (g : FlowGraph) : GraphWrite → FlowGraph
  | .edge e => g.insertEdge e
  | .root r => g.addRoot r

variable {g index : FlowGraph} {t : FlowTables} {e : Edge} {o : Orientation} {a b n : TypeName}

/-- The edges of a sound graph have rules, and its nodes are roots or ends of edges. -/
structure Regular (g : FlowGraph) : Prop extends Sound g where
  filed : ∀ n ∈ g.nodes, n ∈ g.roots ∨ ∃ a b e, g.edge? a b = some e ∧ (n = a ∨ n = b)
  ruled : ∀ a b e, g.edge? a b = some e → ∃ id, id ∈ e.rules

/-- The tables hold what the graph holds. -/
structure Represents (t : FlowTables) (g : FlowGraph) : Prop where
  nodes : t.nodes = g.nodes
  roots : t.roots = g.roots
  edges : ∀ a b, t.edge? a b = g.edge? a b
  adjacent : ∀ o a b, b ∈ t.adjacent o a ↔ ∃ e, g.arc? o a b = some e

theorem exists_arc_insertEdge :
    (∃ f, (g.insertEdge e).arc? o a b = some f) ↔
      e.near o = a ∧ e.far o = b ∨ ∃ f, g.arc? o a b = some f := by
  rw [arc?_insertEdge, ← Edge.joins_iff]
  by_cases hj : e.joins o a b = true
  · simp [hj]
  · simp [hj]

theorem regular_empty (criteria : Criteria) : (empty criteria).Regular where
  toSound := sound_empty criteria
  filed n hn := absurd hn (OrdSet.not_mem_empty n)
  ruled a b _ he := nomatch (arc?_empty criteria .forward a b).symm.trans he

theorem represents_empty (criteria : Criteria) : Represents {} (empty criteria) where
  nodes := rfl
  roots := rfl
  edges a b := (OrdMap.get?_empty _).trans (arc?_empty criteria .forward a b).symm
  adjacent o a b := by
    have hnone : ¬ b ∈ ({} : FlowTables).adjacent o a := by
      cases o <;> exact OrdSet.not_mem_empty b
    rw [arc?_empty]
    simp [hnone]

/-- **What a write keeps of a graph.** -/
theorem Regular.write (h : g.Regular) {w : GraphWrite} (hw : w.Proper) : (g.write w).Regular := by
  cases w with
  | root r =>
    refine ⟨h.toSound.addRoot r, fun n hn => ?_, h.ruled⟩
    rcases OrdSet.mem_insert.mp hn with rfl | hold
    · exact Or.inl (OrdSet.mem_insert.mpr (Or.inl rfl))
    · exact (h.filed n hold).imp_left fun hroot => OrdSet.mem_insert.mpr (Or.inr hroot)
  | edge e =>
    obtain ⟨hne, id, hid⟩ := hw
    have hexists {a b : TypeName} (hab : e.source = a ∧ e.target = b ∨ ∃ f, g.edge? a b = some f) :
        ∃ f, (g.insertEdge e).edge? a b = some f :=
      exists_arc_insertEdge.mpr hab
    refine ⟨h.toSound.insertEdge hne, fun n hn => ?_, fun a b f hf => ?_⟩
    · -- the ends of the edge are filed under it, and others where they have been
      obtain ⟨f, hf⟩ := hexists (Or.inl ⟨rfl, rfl⟩)
      rcases OrdSet.mem_insert.mp hn with rfl | hn
      · exact Or.inr ⟨_, _, f, hf, Or.inr rfl⟩
      rcases OrdSet.mem_insert.mp hn with rfl | hold
      · exact Or.inr ⟨_, _, f, hf, Or.inl rfl⟩
      refine (h.filed n hold).imp_right fun ⟨a, b, f, hf, hend⟩ => ?_
      obtain ⟨f', hf'⟩ := hexists (Or.inr ⟨f, hf⟩)
      exact ⟨a, b, f', hf', hend⟩
    · rcases arc?_insertEdge_cases hf with hold | ⟨-, -, rfl⟩
      · exact h.ruled a b f hold
      · cases g.arc? .forward a b with
        | none => exact ⟨id, hid⟩
        | some x => exact ⟨id, Edge.mem_rules_join.mpr (Or.inr hid)⟩

/-- **The same write to a graph and to its tables.** -/
theorem Represents.write (h : Represents t g) (w : GraphWrite) : Represents (t.write w) (g.write w) := by
  cases w with
  | root r =>
    refine ⟨?_, ?_, h.edges, h.adjacent⟩
    · exact congrArg (OrdSet.insert · r) h.nodes
    · exact congrArg (OrdSet.insert · r) h.roots
  | edge e =>
    refine ⟨?_, h.roots, fun a b => ?_, fun o a b => ?_⟩
    · exact congrArg (fun s => (OrdSet.insert s e.source).insert e.target) h.nodes
    · show (t.insertEdge e).edge? a b = (g.insertEdge e).arc? .forward a b
      rw [FlowTables.edge?_insertEdge, arc?_insertEdge, h.edges, edge?_eq_arc?]
    · exact FlowTables.mem_adjacent_insertEdge.trans
        ((or_congr_right (h.adjacent o a b)).trans exists_arc_insertEdge.symm)

/-- By induction on the writes, beginning with nothing. -/
theorem regular_represents (criteria : Criteria) (writes : List GraphWrite)
    (hw : ∀ w ∈ writes, w.Proper) :
    (writes.foldl write (empty criteria)).Regular ∧
      Represents (writes.foldl FlowTables.write {}) (writes.foldl write (empty criteria)) := by
  induction writes using List.reverseRecOn with
  | nil => exact ⟨regular_empty criteria, represents_empty criteria⟩
  | append_singleton writes w ih =>
    simp only [List.forall_mem_append, List.forall_mem_singleton] at hw
    obtain ⟨hregular, hrepresents⟩ := ih hw.1
    simp only [List.foldl_append, List.foldl_cons, List.foldl_nil]
    exact ⟨hregular.write hw.2, hrepresents.write w⟩

/-! ## Reading the tables -/

theorem Represents.agree (h : Represents t g) (hg : g.Regular) : t.Agree where
  successor_iff a b := by
    rw [h.adjacent, h.edges]
    rfl
  predecessor_iff a b := by
    rw [h.adjacent, h.edges, hg.mirrored]
    rfl
  ends a b e he := hg.ends a b e ((h.edges a b).symm.trans he)
  nodes a b e he := h.nodes ▸ hg.nodes a b e ((h.edges a b).symm.trans he)
  filed n hn := by
    rw [h.nodes] at hn
    rw [h.roots]
    simp only [h.edges]
    exact hg.filed n hn
  loopless a b e he := hg.loopless a b e ((h.edges a b).symm.trans he)
  ruled a b e he := hg.ruled a b e ((h.edges a b).symm.trans he)

theorem Represents.orientedEdge?_eq (h : Represents t g) (hg : g.Sound) (o : Orientation)
    (a b : TypeName) : t.orientedEdge? o a b = g.arc? o a b := by
  rw [hg.arc_eq_edge?]
  cases o with
  | forward => exact h.edges a b
  | backward => exact h.edges b a

/-- **No neighbour is left out**, and they come in the order of their names. -/
theorem Represents.lists (h : Represents t g) (hg : g.Sound) (o : Orientation) (n : TypeName) :
    t.Lists o n (t.neighbors o n) := by
  have hedge {next : TypeName} (hnext : next ∈ t.adjacent o n) :
      ∃ e, t.orientedEdge? o n next = some e := by
    rw [h.orientedEdge?_eq hg]
    exact (h.adjacent o n next).mp hnext
  refine ⟨fun next e => ?_, ?_, ?_⟩
  · simp only [FlowTables.neighbors, List.mem_filterMap, OrdSet.mem_toList, Option.map_eq_some_iff,
      Prod.mk.injEq]
    constructor
    · rintro ⟨_, -, _, he, rfl, rfl⟩
      exact he
    · intro he
      refine ⟨next, (h.adjacent o n next).mpr ⟨e, ?_⟩, e, he, rfl, rfl⟩
      rwa [← h.orientedEdge?_eq hg]
  · refine List.pairwise_filterMap.mpr ((OrdSet.ascending_toList _).imp fun {x y} hlt a ha b hb => ?_)
    obtain ⟨_, -, rfl⟩ := Option.map_eq_some_iff.mp ha
    obtain ⟨_, -, rfl⟩ := Option.map_eq_some_iff.mp hb
    exact hlt
  · unfold FlowTables.neighbors
    rw [List.map_filterMap]
    refine (List.filterMap_congr fun next hnext => ?_).trans List.filterMap_some
    obtain ⟨e, he⟩ := hedge (OrdSet.mem_toList.mp hnext)
    rw [he]
    rfl

/-- Neighbours looked up in the tables are those that the graph has at hand. -/
theorem Represents.neighbors_eq (h : Represents t g) (hg : g.Sound) (o : Orientation) (n : TypeName) :
    t.neighbors o n = g.neighbors o n := by
  have hlists := h.lists hg o n
  have hne {l : List (TypeName × Edge)} (hl : l.Pairwise fun x y => compare x.1 y.1 = .lt) : l.Nodup := by
    refine hl.imp fun {x y} hlt heq => ?_
    have hself : compare y.1 y.1 = .eq := Std.ReflCmp.compare_self
    rw [heq, hself] at hlt
    exact nomatch hlt
  have hperm : (t.neighbors o n).Perm (g.neighbors o n) := by
    refine (List.perm_ext_iff_of_nodup (hne hlists.ascending) (OrdMap.nodup_entries _)).mpr fun x => ?_
    rw [hlists.mem_iff x.1 x.2, h.orientedEdge?_eq hg, ← mem_neighbors]
    rfl
  refine hperm.eq_of_pairwise (fun x y _ _ hxy hyx => ?_) hlists.ascending (OrdMap.ascending_entries _)
  exact nomatch hxy.symm.trans (Std.OrientedCmp.gt_of_lt hyx)

/-! ## What is produced -/

/-- The graphs that scanning, building, selecting and growing give, one from another in any order. An index
need not be the one that the graph has been grown from before. -/
inductive Produced : FlowGraph → Prop
  | scan (p : Policy) (m : PermissionMap) (criteria : Criteria) : Produced (p.flows m criteria)
  | build {c : FlowContext} {criteria : Criteria} {start : Option String} {g : FlowGraph}
      (h : c.graphOf criteria start = .ok g) : Produced g
  | select {limit : Nat} {index g : FlowGraph} {root : TypeName} (hi : Produced index)
      (h : index.selectFrom limit root = .ok g) : Produced g
  | grow {limit : Nat} {index g g' : FlowGraph} {root : TypeName} (hi : Produced index)
      (hg : Produced g) (h : index.grow limit g root = .ok g') : Produced g'

/-- The graph is what proper writes make of a graph with nothing in it. -/
def Written (g : FlowGraph) : Prop :=
  ∃ writes : List GraphWrite, (∀ w ∈ writes, w.Proper) ∧ g = writes.foldl write (empty g.criteria)

theorem insertEdges_eq_write (l : List Edge) (g : FlowGraph) :
    g.insertEdges l = (l.map GraphWrite.edge).foldl write g := by
  rw [List.foldl_map]
  rfl

theorem written_empty (criteria : Criteria) : (empty criteria).Written :=
  ⟨[], fun _ => (nomatch ·), rfl⟩

theorem Written.regular (h : g.Written) : g.Regular := by
  obtain ⟨writes, hw, hg⟩ := h
  rw [hg]
  exact (regular_represents g.criteria writes hw).1

theorem Written.insertEdges (h : g.Written) {l : List Edge}
    (hl : ∀ e ∈ l, e.source ≠ e.target ∧ ∃ id, id ∈ e.rules) : (g.insertEdges l).Written := by
  obtain ⟨writes, hw, hg⟩ := h
  refine ⟨writes ++ l.map GraphWrite.edge, ?_, ?_⟩
  · rw [List.forall_mem_append, List.forall_mem_map]
    exact ⟨hw, hl⟩
  · rw [insertEdges_criteria, List.foldl_append, ← hg, insertEdges_eq_write]

theorem Written.addRoot (h : g.Written) (root : TypeName) : (g.addRoot root).Written := by
  obtain ⟨writes, hw, hg⟩ := h
  refine ⟨writes ++ [.root root], ?_, ?_⟩
  · rw [List.forall_mem_append, List.forall_mem_singleton]
    exact ⟨hw, trivial⟩
  · show g.addRoot root = (writes ++ [GraphWrite.root root]).foldl write (empty g.criteria)
    rw [List.foldl_append, ← hg]
    rfl

theorem written_flows (p : Policy) (m : PermissionMap) (criteria : Criteria) :
    (p.flows m criteria).Written := by
  refine (written_empty criteria).insertEdges fun e he => ?_
  obtain ⟨r, hr, her⟩ := Policy.mem_allRuleEdges.mp he
  obtain ⟨-, hne, hrules⟩ := Policy.contributes_of_mem_ruleEdges hr her
  exact ⟨hne, r.id, (hrules r.id).mpr rfl⟩

/-- Growing writes edges of the index, which are proper as the index has been written so. -/
theorem Written.grow {limit : Nat} {g' : FlowGraph} {root : TypeName} (hi : index.Written)
    (hg : g.Written) (h : index.grow limit g root = .ok g') : g'.Written := by
  rcases grow_cases h with ⟨-, rfl⟩ | ⟨-, rfl, -⟩
  · exact hg
  · refine (hg.insertEdges fun e he => ?_).addRoot root
    have hedge := arc_of_mem_select hi.regular.toSound he
    exact ⟨hi.regular.loopless _ _ e hedge, hi.regular.ruled _ _ e hedge⟩

theorem Written.selectFrom {limit : Nat} {root : TypeName} (hi : index.Written)
    (h : index.selectFrom limit root = .ok g) : g.Written :=
  hi.grow (written_empty index.criteria) h

/-- **What is produced is written.** -/
theorem Produced.written (h : g.Produced) : g.Written := by
  induction h with
  | scan p m criteria => exact written_flows p m criteria
  | @build c criteria start g h =>
    obtain ⟨m, -, h⟩ := bind_eq_ok_iff.mp h
    cases start with
    | none =>
      dsimp only at h
      unfold checkLimit at h
      split at h
      · exact nomatch h
      · exact Except.ok.inj h ▸ written_flows c.policy m criteria
    | some name =>
      obtain ⟨root, -, h⟩ := bind_eq_ok_iff.mp h
      exact (written_flows c.policy m criteria).selectFrom h
  | select hi h ih => exact ih.selectFrom h
  | grow hi hg h ihi ihg => exact ihi.grow ihg h

/-- The edges that leave a node of a graph in some orientation, each once, by ascending neighbour. -/
structure ListsEdges (g : FlowGraph) (o : Orientation) (n : TypeName) (l : List (TypeName × Edge)) :
    Prop where
  mem_iff : ∀ next e, (next, e) ∈ l ↔ e ∈ g.edges ∧ e.near o = n ∧ e.far o = next
  ascending : l.Pairwise fun x y => compare x.1 y.1 = .lt

theorem Regular.listsEdges (hg : g.Regular) (o : Orientation) (n : TypeName) :
    g.ListsEdges o n (g.neighbors o n) where
  ascending := OrdMap.ascending_entries _
  mem_iff next e := by
    rw [mem_neighbors, hg.arc_iff, hg.mem_edges_iff]

/-- **All that a graph keeps agrees.** A graph that scanning, building, selecting and growing give, one
from another in any order, is what some edges and roots make when they are written one after another. The
three tables that the same writes make agree: a type is next to another in one set, and that in the other
set next to the first, if the table of edges has an edge between them, whose ends these are. They hold
the edges, nodes and roots of the graph, and whichever of the two is asked for the neighbours of a node
lists exactly the edges at it, each once, by ascending neighbour, and leaves none out. -/
theorem graph_tables_agree (h : g.Produced) :
    ∃ writes : List GraphWrite,
      g = writes.foldl write (empty g.criteria) ∧
      let t := writes.foldl FlowTables.write {}
      t.Agree ∧ Represents t g ∧
      ∀ o n, t.neighbors o n = g.neighbors o n ∧ t.Lists o n (t.neighbors o n) ∧
        g.ListsEdges o n (g.neighbors o n) := by
  obtain ⟨writes, hw, hg⟩ := h.written
  obtain ⟨hregular, hrepresents⟩ := regular_represents g.criteria writes hw
  rw [← hg] at hregular hrepresents
  exact ⟨writes, hg, hrepresents.agree hregular, hrepresents, fun o n =>
    ⟨hrepresents.neighbors_eq hregular.toSound o n, hrepresents.lists hregular.toSound o n,
      hregular.listsEdges o n⟩⟩

/-- A graph grown from `b` and then from `a`: it gets the edge between them from both. -/
theorem sample_tables_agree :
    let index := Policy.sample.flows .sample ⟨∅, .direct, none⟩
    ∃ g g', index.selectFrom 3 ⟨"b"⟩ = .ok g ∧ index.grow 3 g ⟨"a"⟩ = .ok g' ∧ g'.Produced ∧
      ∃ writes : List GraphWrite, g' = writes.foldl write (empty g'.criteria) ∧
        (writes.foldl FlowTables.write {}).Agree := by
  intro index
  have hgrown : (index.selectFrom 3 ⟨"b"⟩ >>= fun g => index.grow 3 g ⟨"a"⟩).isOk = true := by
    decide +kernel
  obtain ⟨g', hg'⟩ := exists_ok hgrown
  obtain ⟨g, hselect, hgrow⟩ := bind_eq_ok_iff.mp hg'
  have hindex : index.Produced := .scan .sample .sample _
  have hproduced : g'.Produced := .grow hindex (.select hindex hselect) hgrow
  obtain ⟨writes, hwrites, hagree, -⟩ := graph_tables_agree hproduced
  exact ⟨g, g', hselect, hgrow, hproduced, writes, hwrites, hagree⟩

end FlowGraph

end PolicyReach
