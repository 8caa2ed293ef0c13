import Mathlib.Data.List.Induction
import Mathlib.Data.List.Perm.Basic
import PolicyReach.Flow.Graph

/-!
# Merging edges into a flow graph

`insertEdges` puts edges into a graph one by one, on both sides of the graph, and joins those that
lead from one type to another type. What a side then holds for two types is a fold over the edges
between them (`Edge.mergeOnto`), whatever else the list holds.

* `arc?_insertEdges`: the lookups of either side after insertions, as such a fold;
* `Edge.Merges`, `merges_of_mergeOnto`: the fold has the least weight and the union of the rules;
* **`insertEdges_perm`**: the graph does not depend on the order of the insertions.
-/

namespace PolicyReach

/-! ## Joining two edges -/

namespace Edge

theorem eq_of_fields {e f : Edge} (hs : e.source = f.source) (ht : e.target = f.target)
    (hw : e.weight = f.weight) (hr : ∀ id, id ∈ e.rules ↔ id ∈ f.rules) : e = f := by
  cases e
  cases f
  obtain rfl := hs
  obtain rfl := ht
  obtain rfl := hw
  obtain rfl := OrdSet.ext hr
  rfl

theorem toNat_join_weight (e f : Edge) :
    (e.join f).weight.toNat = min e.weight.toNat f.weight.toNat :=
  UInt32.toNat_min e.weight f.weight

theorem mem_rules_join {e f : Edge} {id : RuleId} :
    id ∈ (e.join f).rules ↔ id ∈ e.rules ∨ id ∈ f.rules := by
  unfold join merge
  rw [OrdSet.mem_insertAll, OrdSet.mem_toList, or_comm]

theorem join_right_comm (x e f : Edge) : (x.join e).join f = (x.join f).join e := by
  refine eq_of_fields rfl rfl ?_ fun id => ?_
  · apply UInt32.toNat_inj.mp
    simp only [toNat_join_weight]
    omega
  · simp only [mem_rules_join]
    exact or_right_comm

theorem join_comm {e f : Edge} (hs : e.source = f.source) (ht : e.target = f.target) :
    e.join f = f.join e := by
  refine eq_of_fields hs ht ?_ fun id => ?_
  · apply UInt32.toNat_inj.mp
    simp only [toNat_join_weight]
    exact Nat.min_comm _ _
  · simp only [mem_rules_join]
    exact or_comm

@[simp]
theorem join_self (e : Edge) : e.join e = e := by
  refine eq_of_fields rfl rfl ?_ fun id => ?_
  · apply UInt32.toNat_inj.mp
    simp only [toNat_join_weight, Nat.min_self]
  · simp only [mem_rules_join, or_self]

/-- The end at which a walk comes upon the edge. -/
def near (o : Orientation) (e : Edge) : TypeName :=
  match o with
  | .forward => e.source
  | .backward => e.target

/-- The end at which a walk leaves the edge. -/
def far (o : Orientation) (e : Edge) : TypeName :=
  match o with
  | .forward => e.target
  | .backward => e.source

/-- Does a walk follow the edge from `a` to `b`? -/
def joins (o : Orientation) (a b : TypeName) (e : Edge) : Bool := e.near o == a && e.far o == b

theorem joins_iff {o : Orientation} {a b : TypeName} {e : Edge} :
    e.joins o a b = true ↔ e.near o = a ∧ e.far o = b := by
  unfold joins
  rw [Bool.and_eq_true, beq_iff_eq, beq_iff_eq]

theorem joins_forward_iff {a b : TypeName} {e : Edge} :
    e.joins .forward a b = true ↔ e.source = a ∧ e.target = b := joins_iff

theorem joins_backward (a b : TypeName) (e : Edge) :
    e.joins .backward a b = e.joins .forward b a := by
  unfold joins
  exact Bool.and_comm _ _

/-- An edge merged onto what is there, if anything is. -/
def onto (old : Option Edge) (e : Edge) : Edge := (old.map fun x => x.join e).getD e

/-- Edges between the same ends merged onto what is there, if anything is. -/
def mergeOnto (old : Option Edge) (l : List Edge) : Option Edge :=
  l.foldl (fun old e => some (onto old e)) old

/-- `e` is what the edges of `l`, all between `a` and `b`, make together: the least of the weights,
and all of the rules. -/
structure Merges (a b : TypeName) (l : List Edge) (e : Edge) : Prop where
  source : e.source = a
  target : e.target = b
  attained : ∃ x ∈ l, x.weight = e.weight
  least : ∀ x ∈ l, e.weight ≤ x.weight
  rules : ∀ id, id ∈ e.rules ↔ ∃ x ∈ l, id ∈ x.rules

theorem merges_single {a b : TypeName} {e : Edge} (hs : e.source = a) (ht : e.target = b) :
    Merges a b [e] e where
  source := hs
  target := ht
  attained := ⟨e, List.mem_singleton_self e, rfl⟩
  least x hx := by
    rw [List.mem_singleton.mp hx]
    exact UInt32.le_refl _
  rules id := by simp only [List.mem_singleton, exists_eq_left]

theorem merges_join {a b : TypeName} {l : List Edge} {e f : Edge} (h : Merges a b l e) :
    Merges a b (l ++ [f]) (e.join f) where
  source := h.source
  target := h.target
  attained := by
    obtain ⟨x, hx, hw⟩ := h.attained
    rcases Nat.le_total e.weight.toNat f.weight.toNat with hle | hle
    · refine ⟨x, List.mem_append_left _ hx, UInt32.toNat_inj.mp ?_⟩
      rw [toNat_join_weight, hw]
      omega
    · refine ⟨f, List.mem_append_right _ (List.mem_singleton_self f), UInt32.toNat_inj.mp ?_⟩
      rw [toNat_join_weight]
      omega
  least x hx := by
    rw [UInt32.le_iff_toNat_le, toNat_join_weight]
    rcases List.mem_append.mp hx with hx | hx
    · have := UInt32.le_iff_toNat_le.mp (h.least x hx)
      omega
    · rw [List.mem_singleton.mp hx]
      omega
  rules id := by
    rw [mem_rules_join, h.rules]
    simp only [List.mem_append, List.mem_singleton, or_and_right, exists_or, exists_eq_left]

theorem isSome_mergeOnto {old : Option Edge} {l : List Edge} :
    (mergeOnto old l).isSome = (old.isSome || !l.isEmpty) := by
  unfold mergeOnto
  induction l generalizing old with
  | nil => cases old <;> rfl
  | cons f l ih =>
    rw [List.foldl_cons, ih]
    cases old <;> simp

theorem mergeOnto_append (old : Option Edge) (l l' : List Edge) :
    mergeOnto old (l ++ l') = mergeOnto (mergeOnto old l) l' :=
  List.foldl_append

theorem mergeOnto_eq_none_iff {l : List Edge} : mergeOnto none l = none ↔ l = [] := by
  cases l with
  | nil => simp [mergeOnto]
  | cons e l => simp [← Option.isNone_iff_eq_none, ← Option.not_isSome, isSome_mergeOnto]

/-- Edges between the same ends, merged one by one, make one edge that is all of them together. -/
theorem merges_of_mergeOnto {a b : TypeName} {l : List Edge} {e : Edge}
    (hl : ∀ x ∈ l, x.source = a ∧ x.target = b) (h : mergeOnto none l = some e) :
    Merges a b l e := by
  induction l using List.reverseRecOn generalizing e with
  | nil => exact absurd (mergeOnto_eq_none_iff.mpr rfl) (h ▸ Option.some_ne_none e)
  | append_singleton l f ih =>
    rw [mergeOnto_append] at h
    obtain rfl := Option.some.inj h
    cases hm : mergeOnto none l with
    | none =>
      rw [mergeOnto_eq_none_iff.mp hm]
      obtain ⟨hs, ht⟩ := hl f (List.mem_append_right _ (List.mem_singleton_self f))
      exact merges_single hs ht
    | some x => exact merges_join (ih (fun x hx => hl x (List.mem_append_left _ hx)) hm)

/-- Copies of the edge that is there, or of one edge where none is, change nothing. -/
theorem mergeOnto_copies {e : Edge} :
    ∀ {l : List Edge} {old : Option Edge}, (∀ x ∈ l, x = e) → (∀ x, old = some x → x = e) →
      mergeOnto old l = if l.isEmpty then old else some e
  | [], _, _, _ => rfl
  | f :: l, old, hl, hold => by
    obtain rfl := hl f List.mem_cons_self
    have hstep : onto old f = f := by
      cases old with
      | none => rfl
      | some x =>
        obtain rfl := hold x rfl
        exact join_self x
    have hrest : mergeOnto (some f) l = if l.isEmpty then some f else some f :=
      mergeOnto_copies (fun x hx => hl x (List.mem_cons_of_mem f hx))
        fun x hx => (Option.some.inj hx).symm
    show mergeOnto (some (onto old f)) l = some f
    rw [hstep, hrest, ite_self]

end Edge

/-! ## The lookups of a graph's sides -/

namespace FlowGraph

/-- What a graph holds at `a` for the neighbour `b` in some orientation. -/
def arc? (g : FlowGraph) (o : Orientation) (a b : TypeName) : Option Edge := (g.fan o a).get? b

theorem edge?_eq_arc? (g : FlowGraph) (a b : TypeName) : g.edge? a b = g.arc? .forward a b := rfl

theorem mem_neighbors {g : FlowGraph} {o : Orientation} {a b : TypeName} {e : Edge} :
    (b, e) ∈ g.neighbors o a ↔ g.arc? o a b = some e :=
  OrdMap.get?_eq_some_iff.symm

theorem arc?_empty (criteria : Criteria) (o : Orientation) (a b : TypeName) :
    (empty criteria).arc? o a b = none := by
  cases o <;> exact OrdMap.get?_empty b

theorem get?_addToSide (side : OrdMap TypeName Fan) (n k a b : TypeName) (e : Edge) :
    (((addToSide side n k e).get? a).getD ∅).get? b =
      if a = n ∧ b = k then some (Edge.onto (((side.get? a).getD ∅).get? b) e)
      else ((side.get? a).getD ∅).get? b := by
  unfold addToSide
  rw [OrdMap.get?_insert]
  by_cases ha : a = n
  · obtain rfl := ha
    rw [if_pos rfl, Option.getD_some, OrdMap.get?_insertWith]
    by_cases hb : b = k
    · obtain rfl := hb
      simp only [and_self, if_true, Edge.onto]
    · rw [if_neg hb, if_neg fun h => hb h.2]
  · rw [if_neg ha, if_neg fun h => ha h.1]

theorem arc?_insertEdge (g : FlowGraph) (e : Edge) (o : Orientation) (a b : TypeName) :
    (g.insertEdge e).arc? o a b =
      if e.joins o a b then some (Edge.onto (g.arc? o a b) e) else g.arc? o a b := by
  have hcond : (e.joins o a b = true) ↔ a = e.near o ∧ b = e.far o := by
    rw [Edge.joins_iff, eq_comm, eq_comm (a := e.far o)]
  rw [if_congr hcond rfl rfl]
  cases o <;> exact get?_addToSide ..

/-- After insertions a side holds what it held, with the edges between the two types merged on. -/
theorem arc?_insertEdges (o : Orientation) (a b : TypeName) :
    ∀ (l : List Edge) (g : FlowGraph),
      (g.insertEdges l).arc? o a b = Edge.mergeOnto (g.arc? o a b) (l.filter (Edge.joins o a b))
  | [], _ => rfl
  | e :: l, g => by
    show ((g.insertEdge e).insertEdges l).arc? o a b = _
    rw [arc?_insertEdges o a b l, arc?_insertEdge, List.filter_cons]
    split
    · rfl
    · rfl

@[simp]
theorem insertEdges_criteria :
    ∀ (l : List Edge) (g : FlowGraph), (g.insertEdges l).criteria = g.criteria
  | [], _ => rfl
  | e :: l, g => insertEdges_criteria l (g.insertEdge e)

@[simp]
theorem insertEdges_roots :
    ∀ (l : List Edge) (g : FlowGraph), (g.insertEdges l).roots = g.roots
  | [], _ => rfl
  | e :: l, g => insertEdges_roots l (g.insertEdge e)

/-- The ends of the edges inserted become nodes. -/
theorem mem_nodes_insertEdges {t : TypeName} :
    ∀ (l : List Edge) (g : FlowGraph),
      t ∈ (g.insertEdges l).nodes ↔ t ∈ g.nodes ∨ ∃ e ∈ l, t = e.source ∨ t = e.target
  | [], g => by
    show t ∈ g.nodes ↔ _
    simp
  | e :: l, g => by
    show t ∈ ((g.insertEdge e).insertEdges l).nodes ↔ _
    rw [mem_nodes_insertEdges l]
    unfold insertEdge
    simp only [OrdSet.mem_insert, List.mem_cons, exists_eq_or_imp]
    generalize (∃ f ∈ l, t = f.source ∨ t = f.target) = later
    tauto

theorem mem_edges {g : FlowGraph} {e : Edge} : e ∈ g.edges ↔ ∃ a b, g.edge? a b = some e := by
  unfold edges OrdMap.values
  simp only [List.mem_flatMap, List.mem_map, Prod.exists, exists_eq_right,
    ← OrdMap.get?_eq_some_iff]
  constructor
  · rintro ⟨fan, ⟨a, ha⟩, b, hb⟩
    refine ⟨a, b, ?_⟩
    show ((g.successors.get? a).getD ∅).get? b = some e
    rw [ha]
    exact hb
  · rintro ⟨a, b, hb⟩
    change ((g.successors.get? a).getD ∅).get? b = some e at hb
    cases ha : g.successors.get? a with
    | none =>
      rw [ha] at hb
      cases (arc?_empty g.criteria .forward a b).symm.trans hb
    | some fan =>
      rw [ha] at hb
      exact ⟨fan, ⟨a, ha⟩, b, hb⟩

/-! ## The order of insertions -/

theorem addToSide_comm (side : OrdMap TypeName Fan) {n k m j : TypeName} {e f : Edge}
    (h : n = m → k = j → e.join f = f.join e) :
    addToSide (addToSide side n k e) m j f = addToSide (addToSide side m j f) n k e := by
  have fans (F : Fan) (h : k = j → e.join f = f.join e) :
      (F.insertWith Edge.join k e).insertWith Edge.join j f =
        (F.insertWith Edge.join j f).insertWith Edge.join k e := by
    refine OrdMap.ext fun y => ?_
    simp only [OrdMap.get?_insertWith]
    by_cases hkj : k = j
    · obtain rfl := hkj
      by_cases hy : y = k
      · cases F.get? k with
        | none => simp [hy, h rfl]
        | some x => simp [hy, Edge.join_right_comm]
      · simp [hy]
    · by_cases hy : y = k
      · simp [hy, hkj]
      · simp [hy, Ne.symm hkj]
  refine OrdMap.ext fun x => ?_
  unfold addToSide
  simp only [OrdMap.get?_insert]
  by_cases hnm : n = m
  · obtain rfl := hnm
    simp only [if_true, Option.getD_some]
    rw [fans _ (h rfl)]
    split <;> rfl
  · by_cases hx : x = n
    · simp [hx, hnm]
    · simp [hx, Ne.symm hnm]

theorem insertEdge_comm (g : FlowGraph) (e f : Edge) :
    (g.insertEdge e).insertEdge f = (g.insertEdge f).insertEdge e := by
  unfold insertEdge
  congr 1
  · refine OrdSet.ext fun t => ?_
    simp only [OrdSet.mem_insert]
    tauto
  · exact addToSide_comm _ fun hs ht => Edge.join_comm hs ht
  · exact addToSide_comm _ fun ht hs => Edge.join_comm hs ht

/-- **The order of insertions does not matter.** -/
theorem insertEdges_perm (g : FlowGraph) {l l' : List Edge} (h : l.Perm l') :
    g.insertEdges l = g.insertEdges l' :=
  h.foldl_eq' (fun e _ f _ g => insertEdge_comm g e f) g

end FlowGraph

end PolicyReach
