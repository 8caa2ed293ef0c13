import PolicyReach.Flow.Selection
import PolicyReach.Proofs.Fallible
import PolicyReach.Proofs.Flow.Walk

/-!
# Growing a graph loses no walk from its roots

A graph that is grown from an index holds edges of the index only (`Grown.edges`), and every edge that
walks from its roots follow (`Grown.selected`). So the walks from a root are the same in the graph as in
the index, whatever other roots the graph has been grown from.

* **`mem_reached_iff`**, **`mem_select_iff`**: the rounds of a selection reach what walks reach, and what is
  selected is what the scope needs;
* `grow_grown`: growing a graph keeps the invariant `Grown`, and adds a root;
* **`Grown.route_iff`**: a graph has the routes from its roots that the index has.
-/

namespace PolicyReach

namespace FlowGraph

variable {g index : FlowGraph} {o : Orientation} {root t u : TypeName} {e : Edge}

/-! ## What a selection reaches -/

/-- Walks from `root` reach `t`, going on from `root` and from passable types. -/
inductive Reaches (g : FlowGraph) (o : Orientation) (root : TypeName) : TypeName → Prop
  | root : Reaches g o root root
  | hop {t u : TypeName} {e : Edge} (reached : Reaches g o root t) (goes : g.goesOn root t = true)
      (arc : g.arc? o t u = some e) : Reaches g o root u

/-- What the rounds of a selection have reached, when all hops but those of the frontier have been
followed. -/
structure Scouted (g : FlowGraph) (o : Orientation) (root : TypeName) (reached : OrdSet TypeName)
    (frontier : List TypeName) : Prop where
  started : root ∈ reached
  nodes : ∀ t ∈ reached, t ∈ root :: g.nodes.toList
  waiting : ∀ t ∈ frontier, t ∈ reached
  followed : ∀ t ∈ reached, t ∉ frontier → g.goesOn root t = true →
    ∀ u e, g.arc? o t u = some e → u ∈ reached

theorem mem_nextRound {frontier : List TypeName} :
    u ∈ ((frontier.filter (g.goesOn root)).flatMap fun t => (g.neighbors o t).map Prod.fst) ↔
      ∃ t ∈ frontier, g.goesOn root t = true ∧ ∃ e, g.arc? o t u = some e := by
  simp only [List.mem_flatMap, List.mem_filter, List.mem_map, Prod.exists, exists_and_right,
    exists_eq_right, mem_neighbors, and_assoc]

/-- What a round reaches first. -/
def fresh (g : FlowGraph) (o : Orientation) (root : TypeName) (reached : OrdSet TypeName)
    (frontier : List TypeName) : OrdSet TypeName :=
  (OrdSet.ofList ((frontier.filter (g.goesOn root)).flatMap fun t =>
    (g.neighbors o t).map Prod.fst)).diff reached

theorem mem_fresh {reached : OrdSet TypeName} {frontier : List TypeName} :
    u ∈ g.fresh o root reached frontier ↔
      (∃ t ∈ frontier, g.goesOn root t = true ∧ ∃ e, g.arc? o t u = some e) ∧ u ∉ reached := by
  unfold fresh
  rw [OrdSet.mem_diff, OrdSet.mem_ofList, mem_nextRound]

theorem reachedFrom_succ (g : FlowGraph) (o : Orientation) (root : TypeName) (rounds : Nat)
    (reached : OrdSet TypeName) (frontier : List TypeName) :
    g.reachedFrom o root (rounds + 1) reached frontier =
      if (g.fresh o root reached frontier).isEmpty then reached
      else g.reachedFrom o root rounds (reached.union (g.fresh o root reached frontier))
        (g.fresh o root reached frontier).toList :=
  rfl

variable {reached : OrdSet TypeName} {frontier : List TypeName}

/-- Where a round reaches nothing, all hops have been followed. -/
theorem Scouted.closed (h : g.Scouted o root reached frontier)
    (hnone : ∀ u, u ∉ g.fresh o root reached frontier) : g.Scouted o root reached [] where
  started := h.started
  nodes := h.nodes
  waiting t ht := absurd ht List.not_mem_nil
  followed t ht _ hgoes u e harc := by
    by_cases hin : t ∈ frontier
    · by_contra hnew
      exact hnone u (mem_fresh.mpr ⟨⟨t, hin, hgoes, e, harc⟩, hnew⟩)
    · exact h.followed t ht hin hgoes u e harc

/-- A round follows the hops of the frontier. -/
theorem Scouted.next (hg : g.Sound) (h : g.Scouted o root reached frontier) :
    g.Scouted o root (reached.union (g.fresh o root reached frontier))
      (g.fresh o root reached frontier).toList where
  started := OrdSet.mem_union.mpr (Or.inl h.started)
  nodes t ht := by
    rcases OrdSet.mem_union.mp ht with hold | hnew
    · exact h.nodes t hold
    · obtain ⟨⟨y, -, -, e, harc⟩, -⟩ := mem_fresh.mp hnew
      exact List.mem_cons_of_mem _ (OrdSet.mem_toList.mpr (hg.arc_nodes harc).2)
  waiting t ht := OrdSet.mem_union.mpr (Or.inr (OrdSet.mem_toList.mp ht))
  followed t ht hnot hgoes u e harc := by
    have hold : t ∈ reached := (OrdSet.mem_union.mp ht).resolve_right fun hnew =>
      hnot (OrdSet.mem_toList.mpr hnew)
    rw [OrdSet.mem_union]
    by_cases hu : u ∈ reached
    · exact Or.inl hu
    · by_cases hin : t ∈ frontier
      · exact Or.inr (mem_fresh.mpr ⟨⟨t, hin, hgoes, e, harc⟩, hu⟩)
      · exact Or.inl (h.followed t hold hin hgoes u e harc)

/-- A round that reaches something makes more of what is reached. -/
theorem size_lt_of_mem_fresh (hu : u ∈ g.fresh o root reached frontier) :
    reached.size < (reached.union (g.fresh o root reached frontier)).size := by
  rw [Nat.lt_iff_add_one_le, ← OrdSet.size_insert (mem_fresh.mp hu).2,
    ← OrdSet.length_toList (reached.union _)]
  refine OrdSet.size_le_length fun t ht => ?_
  rw [OrdSet.mem_toList, OrdSet.mem_union]
  rcases OrdSet.mem_insert.mp ht with rfl | ht
  · exact Or.inr hu
  · exact Or.inl ht

theorem Scouted.size_le (h : g.Scouted o root reached frontier) :
    reached.size ≤ g.nodeCount + 1 := by
  have hle := OrdSet.size_le_length h.nodes
  rw [List.length_cons, OrdSet.length_toList] at hle
  exact hle

/-- **The rounds reach a set that hops do not leave.** Every round but the last reaches another node. -/
theorem reachedFrom_closed (hg : g.Sound) :
    ∀ {rounds : Nat} {reached : OrdSet TypeName} {frontier : List TypeName},
      g.Scouted o root reached frontier → g.nodeCount + 2 ≤ reached.size + rounds →
        g.Scouted o root (g.reachedFrom o root rounds reached frontier) []
  | 0, reached, frontier, h, hsize => by
    have hle := h.size_le
    omega
  | rounds + 1, reached, frontier, h, hsize => by
    rw [reachedFrom_succ]
    cases hlist : (g.fresh o root reached frontier).toList with
    | nil =>
      rw [← OrdSet.isEmpty_toList, hlist, List.isEmpty_nil, if_pos rfl]
      refine h.closed fun u hu => ?_
      have hmem := OrdSet.mem_toList.mpr hu
      rw [hlist] at hmem
      exact nomatch hmem
    | cons u rest =>
      have hu : u ∈ g.fresh o root reached frontier :=
        OrdSet.mem_toList.mp (hlist ▸ List.mem_cons_self)
      have hlt := size_lt_of_mem_fresh hu
      rw [← OrdSet.isEmpty_toList, hlist, List.isEmpty_cons, if_neg Bool.false_ne_true, ← hlist]
      exact reachedFrom_closed hg (h.next hg) (by omega)

/-- **A selection reaches whatever walks reach.** -/
theorem mem_reached (hg : g.Sound) (h : g.Reaches o root t) : t ∈ g.reached o root := by
  have hclosed : g.Scouted o root (g.reached o root) [] := by
    refine reachedFrom_closed hg ⟨OrdSet.mem_singleton.mpr rfl, fun t ht => ?_, fun t ht => ?_,
      fun t ht hnot => ?_⟩ ?_
    · exact OrdSet.mem_singleton.mp ht ▸ List.mem_cons_self
    · exact OrdSet.mem_singleton.mpr (List.mem_singleton.mp ht)
    · exact absurd (List.mem_singleton.mpr (OrdSet.mem_singleton.mp ht)) hnot
    · have hone : (OrdSet.singleton root : OrdSet TypeName).size = 1 :=
        OrdSet.size_insert (OrdSet.not_mem_empty root)
      omega
  induction h with
  | root => exact hclosed.started
  | hop _ goes arc ih => exact hclosed.followed _ ih List.not_mem_nil goes _ _ arc

/-- The rounds of a selection reach nothing that walks do not reach. -/
theorem reaches_of_mem_reachedFrom :
    ∀ {rounds : Nat} {reached : OrdSet TypeName} {frontier : List TypeName},
      (∀ x ∈ reached, g.Reaches o root x) → (∀ x ∈ frontier, x ∈ reached) →
        t ∈ g.reachedFrom o root rounds reached frontier → g.Reaches o root t
  | 0, _, _, hreached, _, ht => hreached t ht
  | rounds + 1, reached, frontier, hreached, hfrontier, ht => by
    rw [reachedFrom_succ] at ht
    split at ht
    · exact hreached t ht
    · refine reaches_of_mem_reachedFrom (fun x hx => ?_) (fun x hx => ?_) ht
      · rcases OrdSet.mem_union.mp hx with hold | hnew
        · exact hreached x hold
        · obtain ⟨⟨y, hy, hgoes, e, harc⟩, -⟩ := mem_fresh.mp hnew
          exact (hreached y (hfrontier y hy)).hop hgoes harc
      · exact OrdSet.mem_union.mpr (Or.inr (OrdSet.mem_toList.mp hx))

/-- **A selection reaches what walks reach.** -/
theorem mem_reached_iff (hg : g.Sound) : t ∈ g.reached o root ↔ g.Reaches o root t := by
  refine ⟨fun ht => ?_, mem_reached hg⟩
  refine reaches_of_mem_reachedFrom (fun x hx => ?_) (fun x hx => ?_) ht
  · exact OrdSet.mem_singleton.mp hx ▸ .root
  · exact OrdSet.mem_singleton.mpr (List.mem_singleton.mp hx)

/-! ## What is selected -/

/-- The index has the edge, and its scope needs it around a root: if it is at the root, or if walks to or
from the root follow it. -/
def Needs (index : FlowGraph) (root : TypeName) (e : Edge) : Prop :=
  index.edge? e.source e.target = some e ∧
    match index.criteria.scope with
    | .direct => e.source = root ∨ e.target = root
    | .transitive direction =>
      index.Reaches direction.orientation root (e.near direction.orientation) ∧
        index.goesOn root (e.near direction.orientation) = true

/-- **What is selected around a root is what the scope needs.** -/
theorem mem_select_iff (hi : index.Sound) : e ∈ index.select root ↔ index.Needs root e := by
  unfold select Needs
  cases index.criteria.scope with
  | direct =>
    simp only [List.map_append, List.mem_append, List.mem_map, Prod.exists, exists_eq_right,
      mem_neighbors, hi.arc_iff]
    simp only [exists_and_left, exists_eq', and_true, Edge.near]
    rw [← and_or_left]
  | transitive direction =>
    simp only [List.mem_flatMap, List.mem_filter, OrdSet.mem_toList, mem_reached_iff hi, List.mem_map,
      Prod.exists, exists_eq_right, mem_neighbors, hi.arc_iff]
    constructor
    · rintro ⟨t, ⟨hreaches, hgoes⟩, u, he, rfl, -⟩
      exact ⟨he, hreaches, hgoes⟩
    · rintro ⟨he, hreaches, hgoes⟩
      exact ⟨_, ⟨hreaches, hgoes⟩, _, he, rfl, rfl⟩

theorem arc_of_mem_select (hi : index.Sound) (he : e ∈ index.select root) :
    index.edge? e.source e.target = some e :=
  ((mem_select_iff hi).mp he).1

/-- The edges that walks from the root follow are selected. -/
theorem mem_select (hi : index.Sound) {direction : ReachDirection}
    (hscope : index.criteria.scope = .transitive direction)
    (ht : index.Reaches direction.orientation root t) (hgoes : index.goesOn root t = true)
    (he : index.arc? direction.orientation t u = some e) : e ∈ index.select root := by
  obtain ⟨hedge, rfl, -⟩ := hi.arc_iff.mp he
  refine (mem_select_iff hi).mpr ⟨hedge, ?_⟩
  rw [hscope]
  exact ⟨ht, hgoes⟩

/-! ## Growing -/

/-- `g` has been grown from the index: it holds edges of the index only, no more than allowed, and
all that are selected around its roots. -/
structure Grown (limit : Nat) (index g : FlowGraph) : Prop where
  sound : g.Sound
  criteria : g.criteria = index.criteria
  edges : ∀ {a b e}, g.edge? a b = some e → index.edge? a b = some e
  selected : ∀ {r e}, r ∈ g.roots → e ∈ index.select r → g.edge? e.source e.target = some e
  bounded : g.edgeCount ≤ limit

theorem grown_empty (limit : Nat) (index : FlowGraph) : Grown limit index (empty index.criteria) where
  sound := sound_empty _
  criteria := rfl
  edges he := nomatch (arc?_empty index.criteria .forward _ _).symm.trans he
  selected hr := absurd hr (OrdSet.not_mem_empty _)
  bounded := Nat.zero_le limit

/-- Inserting edges of the index that a graph is grown from. -/
theorem edge?_insertEdges {l : List Edge}
    (hl : ∀ e ∈ l, index.edge? e.source e.target = some e)
    (hg : ∀ {a b e}, g.edge? a b = some e → index.edge? a b = some e) (a b : TypeName) :
    (g.insertEdges l).edge? a b =
      if (l.filter (Edge.joins .forward a b)).isEmpty then g.edge? a b else index.edge? a b := by
  show (g.insertEdges l).arc? .forward a b = _
  have hjoined {x : Edge} (hx : x ∈ l.filter (Edge.joins .forward a b)) : index.edge? a b = some x := by
    obtain ⟨hmem, hj⟩ := List.mem_filter.mp hx
    obtain ⟨rfl, rfl⟩ := Edge.joins_forward_iff.mp hj
    exact hl x hmem
  rw [arc?_insertEdges, ← edge?_eq_arc?]
  generalize l.filter (Edge.joins .forward a b) = joined at hjoined
  cases joined with
  | nil => rfl
  | cons f rest =>
    have hf := hjoined List.mem_cons_self
    rw [Edge.mergeOnto_copies (fun x hx => Option.some.inj ((hjoined hx).symm.trans hf))
      fun x hx => Option.some.inj ((hg hx).symm.trans hf), hf]

/-- A graph that has been grown from a root stays as it is. -/
theorem grow_of_mem_roots {limit : Nat} (hroot : root ∈ g.roots) : index.grow limit g root = .ok g :=
  if_pos (OrdSet.contains_eq_true_iff.mpr hroot)

/-- A graph that can be grown has the root already, or has what is selected around it put in. -/
theorem grow_cases {limit : Nat} {g' : FlowGraph} (h : index.grow limit g root = .ok g') :
    root ∈ g.roots ∧ g' = g ∨
      root ∉ g.roots ∧ g' = (g.insertEdges (index.select root)).addRoot root ∧
        (g.insertEdges (index.select root)).edgeCount ≤ limit := by
  unfold grow at h
  by_cases hroot : g.roots.contains root = true
  · rw [if_pos hroot] at h
    exact Or.inl ⟨OrdSet.contains_eq_true_iff.mp hroot, (Except.ok.inj h).symm⟩
  · rw [if_neg hroot] at h
    obtain ⟨x, hx, rfl⟩ := map_eq_ok_iff.mp h
    unfold checkLimit at hx
    split at hx
    · exact nomatch hx
    · obtain rfl := Except.ok.inj hx
      exact Or.inr ⟨fun hin => hroot (OrdSet.contains_eq_true_iff.mpr hin), rfl, Nat.not_lt.mp ‹_›⟩

/-- Growing a graph adds a root to those that it has. -/
theorem mem_roots_of_grow {limit : Nat} {g' : FlowGraph} (h : index.grow limit g root = .ok g')
    (t : TypeName) : t ∈ g'.roots ↔ t = root ∨ t ∈ g.roots := by
  rcases grow_cases h with ⟨hroot, rfl⟩ | ⟨-, rfl, -⟩
  · exact (or_iff_right_of_imp fun heq => heq ▸ hroot).symm
  · unfold addRoot
    rw [insertEdges_roots, OrdSet.mem_insert]

/-- **Growing a graph** keeps what it holds, and adds what is selected around the root. -/
theorem grow_grown (hi : index.Sound) {limit : Nat} {g' : FlowGraph} (hg : Grown limit index g)
    (h : index.grow limit g root = .ok g') :
    Grown limit index g' ∧ root ∈ g'.roots ∧ ∀ r ∈ g.roots, r ∈ g'.roots := by
  have hroots := mem_roots_of_grow h
  refine ⟨?_, (hroots root).mpr (Or.inl rfl), fun r hr => (hroots r).mpr (Or.inr hr)⟩
  rcases grow_cases h with ⟨-, rfl⟩ | ⟨-, rfl, hlimit⟩
  · exact hg
  · have hsel : ∀ e ∈ index.select root, index.edge? e.source e.target = some e :=
      fun e he => arc_of_mem_select hi he
    have hloops : ∀ e ∈ index.select root, e.source ≠ e.target :=
      fun e he => hi.loopless _ _ e (hsel e he)
    have hlookup := edge?_insertEdges hsel hg.edges
    refine ⟨?_, ?_, fun {a b e} he => ?_, fun {r e} hr he => ?_, hlimit⟩
    · exact (hg.sound.insertEdges hloops).addRoot root
    · exact (insertEdges_criteria _ g).trans hg.criteria
    · have he' : (g.insertEdges (index.select root)).edge? a b = some e := he
      rw [hlookup] at he'
      split at he'
      · exact hg.edges he'
      · exact he'
    · show (g.insertEdges (index.select root)).edge? e.source e.target = some e
      rw [hlookup]
      rcases (hroots r).mp hr with rfl | hold
      · have hjoined : e ∈ (index.select r).filter (Edge.joins .forward e.source e.target) :=
          List.mem_filter.mpr ⟨he, Edge.joins_forward_iff.mpr ⟨rfl, rfl⟩⟩
        rw [if_neg fun hnil => List.ne_nil_of_mem hjoined (List.isEmpty_iff.mp hnil)]
        exact hsel e he
      · rw [hg.selected hold he, arc_of_mem_select hi he, ite_self]

/-! ## The walks of a grown graph -/

namespace Grown

variable {limit : Nat}

theorem arc (hi : index.Sound) (hg : Grown limit index g) {a b : TypeName}
    (he : g.arc? o a b = some e) : index.arc? o a b = some e := by
  obtain ⟨hedge, hnear, hfar⟩ := hg.sound.arc_iff.mp he
  exact hi.arc_iff.mpr ⟨hg.edges hedge, hnear, hfar⟩

theorem walks (hi : index.Sound) (hg : Grown limit index g) {l : List TypeName}
    (hw : g.Walks o l) : index.Walks o l :=
  hw.imp fun _ _ ⟨e, he⟩ => ⟨e, hg.arc hi he⟩

theorem cost_eq (hi : index.Sound) (hg : Grown limit index g) :
    ∀ {l : List TypeName}, g.Walks o l → g.cost o l = index.cost o l
  | [], _ => rfl
  | [_], _ => rfl
  | a :: b :: l, hw => by
    obtain ⟨⟨e, he⟩, hrest⟩ := List.isChain_cons_cons.mp hw
    have ih : g.cost o (b :: l) = index.cost o (b :: l) := hg.cost_eq hi hrest
    show g.hopCost o a b + g.cost o (b :: l) = index.hopCost o a b + index.cost o (b :: l)
    rw [ih, hopCost_of_arc he, hopCost_of_arc (hg.arc hi he)]

/-- What is selected around a root can be followed in either orientation. -/
theorem arc_of_selected (hi : index.Sound) (hg : Grown limit index g) (hroot : root ∈ g.roots)
    (he : index.arc? o t u = some e) (hsel : e ∈ index.select root) : g.arc? o t u = some e := by
  obtain ⟨-, hnear, hfar⟩ := hi.arc_iff.mp he
  exact hg.sound.arc_iff.mpr ⟨hg.selected hroot hsel, hnear, hfar⟩

/-- A walk of the index on whose types walks from a root go on. -/
theorem walks_of_reaches (hi : index.Sound) (hg : Grown limit index g) {direction : ReachDirection}
    (hscope : index.criteria.scope = .transitive direction) (hroot : root ∈ g.roots) :
    ∀ {l : List TypeName} {t : TypeName}, index.Reaches direction.orientation root t →
      index.Walks direction.orientation (t :: l) →
      (∀ x ∈ (t :: l).dropLast, index.goesOn root x = true) → g.Walks direction.orientation (t :: l)
  | [], _, _, _, _ => List.isChain_singleton _
  | u :: l, t, ht, hw, hgoes => by
    obtain ⟨⟨e, he⟩, hrest⟩ := List.isChain_cons_cons.mp hw
    have hgo := hgoes t List.mem_cons_self
    have harc := hg.arc_of_selected hi hroot he (mem_select hi hscope ht hgo he)
    refine List.isChain_cons_cons.mpr ⟨⟨e, harc⟩, ?_⟩
    exact walks_of_reaches hi hg hscope hroot (ht.hop hgo he) hrest
      fun x hx => hgoes x (List.mem_cons_of_mem t hx)

/-- **A graph has the routes from its roots that the index has.** -/
theorem route_iff (hi : index.Sound) (hg : Grown limit index g) {direction : ReachDirection}
    (hscope : index.criteria.scope = .transitive direction) (hroot : root ∈ g.roots)
    {b : TypeName} {l : List TypeName} :
    g.Route direction.orientation root b l ↔ index.Route direction.orientation root b l := by
  constructor
  · intro h
    exact ⟨h.head, h.last, hg.walks hi h.walks, hg.criteria ▸ h.inner⟩
  · intro h
    refine ⟨h.head, h.last, ?_, hg.criteria.symm ▸ h.inner⟩
    obtain ⟨rest, rfl⟩ := List.head?_eq_some_iff.mp h.head
    refine hg.walks_of_reaches hi hscope hroot .root h.walks fun x hx => ?_
    unfold goesOn
    rw [Bool.or_eq_true, beq_iff_eq]
    cases rest with
    | nil => exact nomatch hx
    | cons y rest =>
      rcases List.mem_cons.mp hx with rfl | hx
      · exact Or.inl rfl
      · exact Or.inr (h.inner x hx)

end Grown

end FlowGraph

end PolicyReach
