import PolicyReach.Proofs.Flow.Locality
import PolicyReach.Proofs.Flow.Tables

/-!
# Scanning, selecting and growing with tables

What is done to a graph is done to its three tables by procedures of their own: rules are scanned into
them, edges are selected from them by a search with a queue, and a limit is checked against their number
of edges. Each gives the tables of the graph that `Policy.flows`, `FlowGraph.selectFrom` or
`FlowGraph.grow` gives, or fails with the same error.

Model: `TableGraph`. A selection over many hops takes types from a queue, into which every type that is met
is put once. Growing counts beforehand the ends of edges that the table of edges lacks.

* `Picking.Visits`, `pickAll_ends`: a queue is worked off when every node has been in it;
* **`Stands.select_perm`**: what is selected from the tables is what is selected from the graph, in some order;
* `size_insertEdges`: the edges counted beforehand are as many as the table then has;
* `GraphPlan`: scanning, building, selecting and growing, one on the results of another in any order;
* **`GraphPlan.alike`**: every plan gives tables that stand for the graph it gives, or the same error;
* **`produced_tables`**: so every graph that is produced has the tables that the procedures make, and they
  agree.
-/

namespace PolicyReach

/-- A graph kept in three tables, with what it is made from. -/
structure TableGraph extends FlowTables where
  criteria : Criteria

namespace TableGraph

/-- The graph with no nodes. -/
def empty (criteria : Criteria) : TableGraph := { criteria }

/-- Add an edge and its ends. -/
def insertEdge (x : TableGraph) (e : Edge) : TableGraph :=
  { x with toFlowTables := x.toFlowTables.insertEdge e }

/-- Add the edges of a list. -/
def insertEdges (x : TableGraph) (l : List Edge) : TableGraph := l.foldl insertEdge x

/-- Add a root. -/
def addRoot (x : TableGraph) (root : TypeName) : TableGraph :=
  { x with toFlowTables := x.toFlowTables.addRoot root }

/-- The number of edges. -/
def edgeCount (x : TableGraph) : Nat := x.edges.size

/-- Scan the rules of a policy for what criteria admit. -/
def scan (p : Policy) (permissions : PermissionMap) (criteria : Criteria) : TableGraph :=
  (empty criteria).insertEdges (p.activeAllowRules.flatMap (p.ruleEdges permissions criteria))

end TableGraph

/-- What a selection over many hops keeps: the types met, those of them to be gone on from, and the edges
picked. -/
structure Picking where
  visited : OrdSet TypeName
  queue : List TypeName
  picked : List Edge := []

namespace Picking

/-- Pick the edge of a hop, and put its other end into the queue when it is first met. -/
def meet (s : Picking) (hop : TypeName × Edge) : Picking :=
  let s := { s with picked := s.picked ++ [hop.2] }
  if s.visited.contains hop.1 then s
  else { s with visited := s.visited.insert hop.1, queue := s.queue ++ [hop.1] }

/-- The picking in the beginning. -/
def start (root : TypeName) : Picking := { visited := .singleton root, queue := [root] }

end Picking

namespace TableGraph

/-- Does a walk from `root` go on at `t`? -/
def goesOn (x : TableGraph) (root t : TypeName) : Bool := t == root || x.criteria.isPassable t

/-- Work off the queue. Each type is in it once, so the number of nodes bounds the turns. -/
def pickAll (x : TableGraph) (o : Orientation) (root : TypeName) : (turns : Nat) → Picking → Picking
  | 0, s => s
  | turns + 1, s =>
    match s.queue with
    | [] => s
    | t :: rest =>
      let s := { s with queue := rest }
      pickAll x o root turns (if x.goesOn root t then (x.neighbors o t).foldl Picking.meet s else s)

/-- The edges that the scope of an index needs around a root. -/
def select (index : TableGraph) (root : TypeName) : List Edge :=
  match index.criteria.scope with
  | .direct =>
    ((index.neighbors .forward root) ++ (index.neighbors .backward root)).map Prod.snd
  | .transitive direction =>
    (index.pickAll direction.orientation root (index.nodes.size + 1) (.start root)).picked

/-- The error of a graph that would get too many edges. -/
def checkLimit (limit count : Nat) : Except AnalysisError Unit :=
  if limit < count then .error (.allocation (.graphEdges count limit)) else .ok ()

/-- The graph of what the index holds around `root`: the limit is on what has been inserted. -/
def selectFrom (limit : Nat) (index : TableGraph) (root : TypeName) : Except AnalysisError TableGraph := do
  let x := (empty index.criteria).insertEdges (index.select root)
  checkLimit limit x.edgeCount
  return x.addRoot root

/-- The ends of edges in a list that the graph has no edge between. -/
def newKeys (x : TableGraph) (l : List Edge) : OrdSet (KeyPair TypeName TypeName) :=
  .ofList ((l.map Edge.key).filter fun k => !x.edges.contains k)

/-- The graph grown by what the index holds around `root`: the limit is on what will be inserted. -/
def extend (limit : Nat) (index x : TableGraph) (root : TypeName) : Except AnalysisError TableGraph := do
  if x.roots.contains root then
    return x
  let additions := index.select root
  checkLimit limit (x.edgeCount + (x.newKeys additions).size)
  return (x.insertEdges additions).addRoot root

/-- Build a graph: all flows, or what is needed around a start type. -/
def build (c : FlowContext) (criteria : Criteria) (start : Option String) :
    Except AnalysisError TableGraph := do
  let permissions ← c.permissionMap
  match start with
  | none =>
    let index := scan c.policy permissions criteria
    checkLimit c.config.maxGraphEdges index.edgeCount
    return index
  | some name =>
    let start ← c.typeOf name
    (scan c.policy permissions criteria).selectFrom c.config.maxGraphEdges start

end TableGraph

/-! ## The queue -/

namespace Picking

variable {s : Picking} {hops : List (TypeName × Edge)} {popped : List TypeName} {t : TypeName}

/-- What has been met is in the queue or has been taken from it, once. -/
structure Queued (s : Picking) (popped : List TypeName) : Prop where
  visited : ∀ t, t ∈ s.visited ↔ t ∈ popped ++ s.queue
  nodup : (popped ++ s.queue).Nodup

theorem mem_visited_meet {hop : TypeName × Edge} :
    t ∈ (s.meet hop).visited ↔ t = hop.1 ∨ t ∈ s.visited := by
  unfold meet
  by_cases hold : s.visited.contains hop.1 = true
  · rw [if_pos hold]
    have hmem := OrdSet.contains_eq_true_iff.mp hold
    exact ⟨Or.inr, fun h => h.elim (fun heq => heq ▸ hmem) id⟩
  · rw [if_neg hold]
    exact OrdSet.mem_insert

theorem Queued.meet (h : s.Queued popped) (hop : TypeName × Edge) : (s.meet hop).Queued popped := by
  refine ⟨fun t => ?_, ?_⟩
  · rw [mem_visited_meet, h.visited]
    unfold Picking.meet
    by_cases hold : s.visited.contains hop.1 = true
    · have hmem := (h.visited _).mp (OrdSet.contains_eq_true_iff.mp hold)
      rw [if_pos hold]
      exact ⟨fun h => h.elim (fun heq => heq ▸ hmem) id, Or.inr⟩
    · rw [if_neg hold, ← List.append_assoc, List.mem_append (s := popped ++ s.queue), List.mem_singleton]
      exact or_comm
  · unfold Picking.meet
    by_cases hold : s.visited.contains hop.1 = true
    · rw [if_pos hold]
      exact h.nodup
    · rw [if_neg hold, ← List.append_assoc]
      refine h.nodup.append (List.nodup_singleton _) (List.disjoint_singleton.mpr fun hmem => hold ?_)
      exact OrdSet.contains_eq_true_iff.mpr ((h.visited _).mpr hmem)

theorem Queued.meetAll (h : s.Queued popped) : (hops.foldl Picking.meet s).Queued popped := by
  induction hops generalizing s with
  | nil => exact h
  | cons hop hops ih => exact ih (h.meet hop)

theorem mem_visited_meetAll :
    t ∈ (hops.foldl meet s).visited ↔ t ∈ hops.map Prod.fst ∨ t ∈ s.visited := by
  induction hops generalizing s with
  | nil => simp
  | cons hop hops ih =>
    rw [List.foldl_cons, ih, mem_visited_meet, List.map_cons, List.mem_cons, or_assoc, or_left_comm]

theorem picked_meetAll : (hops.foldl meet s).picked = s.picked ++ hops.map Prod.snd := by
  induction hops generalizing s with
  | nil => exact (List.append_nil _).symm
  | cons hop hops ih =>
    have hone : (s.meet hop).picked = s.picked ++ [hop.2] := by
      unfold meet
      dsimp only
      split <;> rfl
    rw [List.foldl_cons, ih, hone, List.append_assoc, List.map_cons, List.singleton_append]

/-- **What a selection has met and picked** when some types have been taken from the queue: what walks
reach, and the edges that leave those types. -/
structure Visits (s : Picking) (g : FlowGraph) (o : Orientation) (root : TypeName)
    (popped : List TypeName) : Prop extends Queued s popped where
  started : root ∈ s.visited
  reached : ∀ t ∈ s.visited, g.Reaches o root t
  followed : ∀ t ∈ popped, g.goesOn root t = true → ∀ u e, g.arc? o t u = some e → u ∈ s.visited
  picked : s.picked = (popped.filter (g.goesOn root)).flatMap fun t => (g.neighbors o t).map Prod.snd

variable {g : FlowGraph} {o : Orientation} {root : TypeName} {rest : List TypeName}

theorem visits_start (g : FlowGraph) (o : Orientation) (root : TypeName) :
    (start root).Visits g o root [] where
  visited _ := OrdSet.mem_singleton.trans List.mem_singleton.symm
  nodup := List.nodup_singleton root
  started := OrdSet.mem_singleton.mpr rfl
  reached _ ht := OrdSet.mem_singleton.mp ht ▸ .root
  followed _ ht := absurd ht List.not_mem_nil
  picked := rfl

/-- **One turn**: a type is taken from the queue, and gone on from where walks go on. -/
theorem Visits.turn (h : s.Visits g o root popped) (hqueue : s.queue = t :: rest) :
    (if g.goesOn root t then (g.neighbors o t).foldl meet { s with queue := rest }
      else { s with queue := rest }).Visits g o root (popped ++ [t]) := by
  have hshift : popped ++ s.queue = popped ++ [t] ++ rest := by
    rw [hqueue, List.append_assoc, List.singleton_append]
  have hqueued : ({ s with queue := rest } : Picking).Queued (popped ++ [t]) :=
    ⟨fun u => (h.visited u).trans (by rw [hshift]), hshift ▸ h.nodup⟩
  have ht : t ∈ s.visited := (h.visited t).mpr (by rw [hqueue]; simp)
  by_cases hgoes : g.goesOn root t = true
  · rw [if_pos hgoes]
    have hvisited (u : TypeName) :
        u ∈ ((g.neighbors o t).foldl meet { s with queue := rest }).visited ↔
          (∃ e, g.arc? o t u = some e) ∨ u ∈ s.visited := by
      rw [mem_visited_meetAll]
      simp [FlowGraph.mem_neighbors]
    refine ⟨hqueued.meetAll, (hvisited _).mpr (Or.inr h.started), fun u hu => ?_, fun u hu hgo v e hv => ?_,
      ?_⟩
    · rcases (hvisited u).mp hu with ⟨e, he⟩ | hold
      · exact (h.reached t ht).hop hgoes he
      · exact h.reached u hold
    · rcases List.mem_append.mp hu with hold | hlast
      · exact (hvisited v).mpr (Or.inr (h.followed u hold hgo v e hv))
      · obtain rfl := List.mem_singleton.mp hlast
        exact (hvisited v).mpr (Or.inl ⟨e, hv⟩)
    · rw [picked_meetAll, List.filter_append, List.flatMap_append, List.filter_singleton, hgoes]
      simp [h.picked]
  · rw [if_neg hgoes]
    refine ⟨hqueued, h.started, h.reached, fun u hu hgo => ?_, ?_⟩
    · rcases List.mem_append.mp hu with hold | hlast
      · exact h.followed u hold hgo
      · exact absurd (List.mem_singleton.mp hlast ▸ hgo) hgoes
    · rw [List.filter_append, List.filter_singleton, Bool.eq_false_iff.mpr hgoes]
      simp [h.picked]

/-- No more types have been met than there are nodes and the root. -/
theorem Visits.length_le (hg : g.Sound) (h : s.Visits g o root popped) :
    (popped ++ s.queue).length ≤ g.nodeCount + 1 := by
  have hnodes : popped ++ s.queue ⊆ root :: g.nodes.toList := fun t ht =>
    (h.reached t ((h.visited t).mpr ht)).mem_nodes hg
  have hle := (h.nodup.subperm hnodes).length_le
  rwa [List.length_cons, OrdSet.length_toList] at hle

/-- When the queue is empty, what has been taken from it is what walks reach. -/
theorem Visits.mem_popped_iff (h : s.Visits g o root popped) (hqueue : s.queue = []) :
    t ∈ popped ↔ g.Reaches o root t := by
  have hvisited (u : TypeName) : u ∈ s.visited ↔ u ∈ popped := by
    rw [h.visited, hqueue, List.append_nil]
  constructor
  · exact fun ht => h.reached t ((hvisited t).mpr ht)
  · intro ht
    induction ht with
    | root => exact (hvisited _).mp h.started
    | hop _ goes arc ih => exact (hvisited _).mp (h.followed _ ih goes _ _ arc)

end Picking

/-! ## Tables that stand for a graph -/

namespace TableGraph

open FlowGraph (Represents)

/-- **The tables stand for the graph**: they hold what it holds, and are made from the same. -/
structure Stands (x : TableGraph) (g : FlowGraph) : Prop where
  criteria : x.criteria = g.criteria
  represents : Represents x.toFlowTables g
  regular : g.Regular

variable {x index : TableGraph} {g i : FlowGraph} {l : List Edge} {o : Orientation} {root t : TypeName}
  {limit : Nat}

theorem stands_empty (criteria : Criteria) : (empty criteria).Stands (FlowGraph.empty criteria) :=
  ⟨rfl, FlowGraph.represents_empty criteria, FlowGraph.regular_empty criteria⟩

theorem Stands.insertEdges (h : x.Stands g) (hl : ∀ e ∈ l, e.source ≠ e.target ∧ ∃ id, id ∈ e.rules) :
    (x.insertEdges l).Stands (g.insertEdges l) := by
  induction l generalizing x g with
  | nil => exact h
  | cons e l ih =>
    have hone : (x.insertEdge e).Stands (g.insertEdge e) :=
      ⟨h.criteria, h.represents.write (.edge e), h.regular.write (w := .edge e) (hl e List.mem_cons_self)⟩
    exact ih hone fun f hf => hl f (List.mem_cons_of_mem e hf)

theorem Stands.addRoot (h : x.Stands g) (root : TypeName) : (x.addRoot root).Stands (g.addRoot root) :=
  ⟨h.criteria, h.represents.write (.root root), h.regular.write (w := .root root) trivial⟩

theorem Stands.neighbors_eq (h : x.Stands g) (o : Orientation) (t : TypeName) :
    x.neighbors o t = g.neighbors o t :=
  h.represents.neighbors_eq h.regular.toSound o t

/-- Scanning into tables. -/
theorem stands_scan (p : Policy) (permissions : PermissionMap) (criteria : Criteria) :
    (scan p permissions criteria).Stands (p.flows permissions criteria) := by
  refine (stands_empty criteria).insertEdges fun e he => ?_
  obtain ⟨r, hr, her⟩ := Policy.mem_allRuleEdges.mp he
  obtain ⟨-, hne, hrules⟩ := Policy.contributes_of_mem_ruleEdges hr her
  exact ⟨hne, r.id, (hrules r.id).mpr rfl⟩

/-! ## Selecting -/

/-- **The queue is worked off**, as every type is in it once. -/
theorem Stands.pickAll_ends (h : x.Stands g) :
    ∀ {turns : Nat} {s : Picking} {popped : List TypeName}, s.Visits g o root popped →
      g.nodeCount + 1 ≤ popped.length + turns →
      ∃ popped', (x.pickAll o root turns s).Visits g o root popped' ∧ (x.pickAll o root turns s).queue = []
  | turns, s, popped, hs, hsize => by
    cases hqueue : s.queue with
    | nil =>
      have hsame : x.pickAll o root turns s = s := by
        cases turns with
        | zero => rfl
        | succ turns => rw [pickAll, hqueue]
      rw [hsame]
      exact ⟨popped, hs, hqueue⟩
    | cons t rest =>
      have hle := hs.length_le h.regular.toSound
      rw [hqueue, List.length_append, List.length_cons] at hle
      cases turns with
      | zero => omega
      | succ turns =>
        have hgoes : x.goesOn root t = g.goesOn root t := by
          unfold TableGraph.goesOn FlowGraph.goesOn
          rw [h.criteria]
        have hturn : x.pickAll o root (turns + 1) s = x.pickAll o root turns
            (if g.goesOn root t then (g.neighbors o t).foldl Picking.meet { s with queue := rest }
              else { s with queue := rest }) := by
          rw [pickAll, hqueue]
          dsimp only
          rw [hgoes, h.neighbors_eq]
        rw [hturn]
        refine pickAll_ends h (hs.turn hqueue) ?_
        rw [List.length_append, List.length_singleton]
        omega

/-- **The same is selected**, though not in the same order: the queue gives types as they are met. -/
theorem Stands.select_perm (h : index.Stands i) (root : TypeName) :
    (index.select root).Perm (i.select root) := by
  unfold TableGraph.select FlowGraph.select
  rw [h.criteria]
  cases i.criteria.scope with
  | direct =>
    dsimp only
    rw [h.neighbors_eq, h.neighbors_eq]
  | transitive direction =>
    dsimp only
    have hsize : i.nodeCount + 1 ≤ ([] : List TypeName).length + (index.nodes.size + 1) := by
      rw [h.represents.nodes]
      exact Nat.le_add_left _ _
    obtain ⟨popped, hs, hqueue⟩ :=
      h.pickAll_ends (Picking.visits_start i direction.orientation root) hsize
    rw [hs.picked]
    refine List.Perm.flatMap_right _ (List.Perm.filter _ ?_)
    have hnodup : popped.Nodup := (List.nodup_append.mp hs.nodup).1
    refine (List.perm_ext_iff_of_nodup hnodup (OrdSet.nodup_toList _)).mpr fun t => ?_
    rw [hs.mem_popped_iff hqueue, OrdSet.mem_toList, FlowGraph.mem_reached_iff h.regular.toSound]

theorem Stands.insertSelected (h : x.Stands g) (hindex : index.Stands i) (root : TypeName) :
    (x.insertEdges (index.select root)).Stands (g.insertEdges (i.select root)) := by
  have hperm := hindex.select_perm root
  rw [← FlowGraph.insertEdges_perm g hperm]
  refine h.insertEdges fun e he => ?_
  have hedge := FlowGraph.arc_of_mem_select hindex.regular.toSound (hperm.mem_iff.mp he)
  exact ⟨hindex.regular.loopless _ _ e hedge, hindex.regular.ruled _ _ e hedge⟩

/-! ## Counting -/

/-- The table of edges has as many as the graph. -/
theorem Stands.edgeCount_eq (h : x.Stands g) : x.edgeCount = g.edgeCount := by
  have hperm : x.edges.entries.Perm (g.edges.map fun e => (e.key, e)) := by
    have hnodup : (g.edges.map fun e => (e.key, e)).Nodup :=
      h.regular.nodup_edges.map fun e f heq => congrArg Prod.snd heq
    refine (List.perm_ext_iff_of_nodup (OrdMap.nodup_entries _) hnodup).mpr fun ⟨⟨a, b⟩, e⟩ => ?_
    have hlookup : x.edges.get? ⟨a, b⟩ = g.edge? a b := h.represents.edges a b
    rw [← OrdMap.get?_eq_some_iff, hlookup, List.mem_map]
    constructor
    · intro he
      obtain ⟨rfl, rfl⟩ := h.regular.ends a b e he
      exact ⟨e, h.regular.arc_mem_edges (o := .forward) he, rfl⟩
    · rintro ⟨f, hf, heq⟩
      cases heq
      exact h.regular.mem_edges_iff.mp hf
  unfold TableGraph.edgeCount FlowGraph.edgeCount
  rw [← OrdMap.length_entries, hperm.length_eq, List.length_map]

theorem contains_insertEdges {k : KeyPair TypeName TypeName} :
    (x.insertEdges l).edges.contains k = true ↔ k ∈ l.map Edge.key ∨ x.edges.contains k = true := by
  induction l generalizing x with
  | nil => simp [insertEdges]
  | cons e l ih =>
    have hone : (x.insertEdge e).edges.contains k = true ↔ k = e.key ∨ x.edges.contains k = true := by
      show ((x.edges.insertWith Edge.join e.key e).get? k).isSome = true ↔ _
      rw [OrdMap.get?_insertWith]
      by_cases hk : k = e.key
      · simp [hk]
      · rw [if_neg hk]
        exact (or_iff_right hk).symm
    show ((x.insertEdge e).insertEdges l).edges.contains k = true ↔ _
    rw [ih, hone, List.map_cons, List.mem_cons, or_assoc, or_left_comm]

/-- **The edges counted beforehand**, those of the table and those whose ends it lacks, are as many as the
table has when they have been inserted. -/
theorem size_insertEdges (x : TableGraph) (l : List Edge) :
    (x.insertEdges l).edgeCount = x.edgeCount + (x.newKeys l).size := by
  have hnew {k : KeyPair TypeName TypeName} :
      k ∈ x.newKeys l ↔ k ∈ l.map Edge.key ∧ ¬ x.edges.contains k = true := by
    simp [newKeys]
  have hdisjoint : x.edges.keyList.Disjoint (x.newKeys l).toList := fun k hold hmem =>
    (hnew.mp (OrdSet.mem_toList.mp hmem)).2 (OrdMap.mem_keyList.mp hold)
  have hnodup (m : OrdMap (KeyPair TypeName TypeName) Edge) : m.keyList.Nodup :=
    m.ascending_keyList.imp fun hlt heq => by simp [heq, Std.ReflCmp.compare_self] at hlt
  have hperm : (x.insertEdges l).edges.keyList.Perm (x.edges.keyList ++ (x.newKeys l).toList) := by
    refine (List.perm_ext_iff_of_nodup (hnodup _)
      ((hnodup _).append (OrdSet.nodup_toList _) hdisjoint)).mpr fun k => ?_
    rw [OrdMap.mem_keyList, contains_insertEdges, List.mem_append, OrdMap.mem_keyList, OrdSet.mem_toList,
      hnew]
    by_cases hold : x.edges.contains k = true
    · simp [hold]
    · simp [hold]
  have hlength (m : OrdMap (KeyPair TypeName TypeName) Edge) : m.keyList.length = m.size := by
    rw [OrdMap.keyList, List.length_map, OrdMap.length_entries]
  unfold edgeCount
  rw [← hlength, hperm.length_eq, List.length_append, hlength, OrdSet.length_toList]

/-! ## Building and growing -/

/-- The same comes of tables and of a graph: what stands for the same, or the same error. -/
inductive Alike : Except AnalysisError TableGraph → Except AnalysisError FlowGraph → Prop
  | ok {x : TableGraph} {g : FlowGraph} (stands : x.Stands g) : Alike (.ok x) (.ok g)
  | error (e : AnalysisError) : Alike (.error e) (.error e)

theorem Alike.bind {o : Except AnalysisError TableGraph} {o' : Except AnalysisError FlowGraph}
    (h : Alike o o') {f : TableGraph → Except AnalysisError TableGraph}
    {f' : FlowGraph → Except AnalysisError FlowGraph}
    (hf : ∀ x g, x.Stands g → Alike (f x) (f' g)) : Alike (o >>= f) (o' >>= f') := by
  cases h with
  | ok stands => exact hf _ _ stands
  | error e => exact .error e

/-- A limit is checked on a number of edges as it is on a graph with so many. -/
theorem checkLimit_cases (g : FlowGraph) (limit : Nat) :
    (∃ e, checkLimit limit g.edgeCount = .error e ∧ g.checkLimit limit = .error e) ∨
      checkLimit limit g.edgeCount = .ok () ∧ g.checkLimit limit = .ok g := by
  unfold TableGraph.checkLimit FlowGraph.checkLimit
  by_cases hlimit : limit < g.edgeCount
  · rw [if_pos hlimit, if_pos hlimit]
    exact Or.inl ⟨_, rfl, rfl⟩
  · rw [if_neg hlimit, if_neg hlimit]
    exact Or.inr ⟨rfl, rfl⟩

/-- **Selecting from tables.** -/
theorem Stands.selectFrom (h : index.Stands i) (limit : Nat) (root : TypeName) :
    Alike (index.selectFrom limit root) (i.selectFrom limit root) := by
  have hinserted := (stands_empty index.criteria).insertSelected h root
  have hnone : ¬ (FlowGraph.empty index.criteria).roots.contains root = true := fun hroot =>
    OrdSet.not_mem_empty root (OrdSet.contains_eq_true_iff.mp hroot)
  unfold TableGraph.selectFrom FlowGraph.selectFrom FlowGraph.grow
  rw [← h.criteria, if_neg hnone]
  dsimp only
  rw [hinserted.edgeCount_eq]
  rcases checkLimit_cases ((FlowGraph.empty index.criteria).insertEdges (i.select root)) limit with
    ⟨e, hx, hg⟩ | ⟨hx, hg⟩
  · rw [hx, hg]
    exact .error e
  · rw [hx, hg]
    exact .ok (hinserted.addRoot root)

/-- **Growing tables**, the edges counted beforehand. -/
theorem Stands.extend (hindex : index.Stands i) (h : x.Stands g) (limit : Nat) (root : TypeName) :
    Alike (index.extend limit x root) (i.grow limit g root) := by
  have hinserted := h.insertSelected hindex root
  unfold TableGraph.extend FlowGraph.grow
  rw [h.represents.roots]
  by_cases hroot : g.roots.contains root = true
  · rw [if_pos hroot, if_pos hroot]
    exact .ok h
  · rw [if_neg hroot, if_neg hroot]
    dsimp only
    rw [← size_insertEdges, hinserted.edgeCount_eq]
    rcases checkLimit_cases (g.insertEdges (i.select root)) limit with ⟨e, hx, hg⟩ | ⟨hx, hg⟩
    · rw [hx, hg]
      exact .error e
    · rw [hx, hg]
      exact .ok (hinserted.addRoot root)

/-- **Building tables.** -/
theorem build_alike (c : FlowContext) (criteria : Criteria) (start : Option String) :
    Alike (build c criteria start) (c.graphOf criteria start) := by
  unfold build FlowContext.graphOf
  cases c.permissionMap with
  | error e => exact .error e
  | ok permissions =>
    have hscan := stands_scan c.policy permissions criteria
    cases start with
    | none =>
      show Alike (do
        checkLimit c.config.maxGraphEdges (scan c.policy permissions criteria).edgeCount
        return scan c.policy permissions criteria) _
      rw [hscan.edgeCount_eq]
      show Alike _ ((c.policy.flows permissions criteria).checkLimit c.config.maxGraphEdges)
      rcases checkLimit_cases (c.policy.flows permissions criteria) c.config.maxGraphEdges with
        ⟨e, hx, hg⟩ | ⟨hx, hg⟩
      · rw [hx, hg]
        exact .error e
      · rw [hx, hg]
        exact .ok hscan
    | some name =>
      simp only [bind, Except.bind]
      cases c.typeOf name with
      | error e => exact .error e
      | ok start => exact hscan.selectFrom _ start

end TableGraph

/-! ## Whatever is produced -/

/-- Scanning, building, selecting and growing, one on the results of another. -/
inductive GraphPlan where
  | scan (p : Policy) (permissions : PermissionMap) (criteria : Criteria)
  | build (c : FlowContext) (criteria : Criteria) (start : Option String)
  | select (limit : Nat) (index : GraphPlan) (root : TypeName)
  | grow (limit : Nat) (index graph : GraphPlan) (root : TypeName)

namespace GraphPlan

/-- The plan carried out on graphs. -/
def graph : GraphPlan → Except AnalysisError FlowGraph
  | scan p permissions criteria => .ok (p.flows permissions criteria)
  | build c criteria start => c.graphOf criteria start
  | select limit index root => do
    let index ← index.graph
    index.selectFrom limit root
  | grow limit index graph root => do
    let index ← index.graph
    let graph ← graph.graph
    index.grow limit graph root

/-- The plan carried out on tables. -/
def tables : GraphPlan → Except AnalysisError TableGraph
  | scan p permissions criteria => .ok (.scan p permissions criteria)
  | build c criteria start => TableGraph.build c criteria start
  | select limit index root => do
    let index ← index.tables
    index.selectFrom limit root
  | grow limit index graph root => do
    let index ← index.tables
    let graph ← graph.tables
    index.extend limit graph root

/-- **Every plan gives the same on tables as on graphs**, errors included. -/
theorem alike (plan : GraphPlan) : TableGraph.Alike plan.tables plan.graph := by
  induction plan with
  | scan p permissions criteria => exact .ok (TableGraph.stands_scan p permissions criteria)
  | build c criteria start => exact TableGraph.build_alike c criteria start
  | select limit index root ih => exact ih.bind fun _ _ stands => stands.selectFrom limit root
  | grow limit index graph root ihindex ihgraph =>
    exact ihindex.bind fun _ _ hindex => ihgraph.bind fun _ _ hgraph => hindex.extend hgraph limit root

/-- Growing from `b` and then from `a` gives three edges, the one between them once. -/
example :
    let index := GraphPlan.scan .sample .sample ⟨∅, .direct, none⟩
    ((GraphPlan.grow 3 index (.select 3 index ⟨"b"⟩) ⟨"a"⟩).tables.toOption.map fun x =>
      x.edges.keyList) = some [⟨⟨"a"⟩, ⟨"b"⟩⟩, ⟨⟨"a"⟩, ⟨"c"⟩⟩, ⟨⟨"b"⟩, ⟨"c"⟩⟩] := by
  decide +kernel

theorem exists_of_produced {g : FlowGraph} (h : g.Produced) : ∃ plan : GraphPlan, plan.graph = .ok g := by
  induction h with
  | scan p m criteria => exact ⟨.scan p m criteria, rfl⟩
  | @build c criteria start g h => exact ⟨.build c criteria start, h⟩
  | @select limit index g root hi h ih =>
    obtain ⟨plan, hplan⟩ := ih
    refine ⟨.select limit plan root, ?_⟩
    unfold graph
    rw [hplan]
    exact h
  | @grow limit index g g' root hi hg h ihi ihg =>
    obtain ⟨plan, hplan⟩ := ihi
    obtain ⟨plan', hplan'⟩ := ihg
    refine ⟨.grow limit plan plan' root, ?_⟩
    unfold graph
    rw [hplan, hplan']
    exact h

/-- **Every graph that is produced has the tables that the same procedures make**, which agree, hold what
it holds and leave no neighbour out. -/
theorem produced_tables {g : FlowGraph} (h : g.Produced) :
    ∃ (plan : GraphPlan) (x : TableGraph), plan.graph = .ok g ∧ plan.tables = .ok x ∧ x.Stands g ∧
      x.Agree ∧ x.edgeCount = g.edgeCount ∧ ∀ o t, x.neighbors o t = g.neighbors o t := by
  obtain ⟨plan, hplan⟩ := exists_of_produced h
  have hboth := plan.alike
  rw [hplan] at hboth
  generalize htables : plan.tables = outcome at hboth
  cases hboth with
  | @ok x _ stands =>
    exact ⟨plan, x, hplan, htables, stands, stands.represents.agree stands.regular, stands.edgeCount_eq,
      stands.neighbors_eq⟩

end GraphPlan

end PolicyReach
