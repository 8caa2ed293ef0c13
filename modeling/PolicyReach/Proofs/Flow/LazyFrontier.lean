import Mathlib.Data.List.Sort
import PolicyReach.Proofs.Flow.Ties

/-!
# A frontier with superseded entries

A priority queue gives what waits the least first, but gives nothing up in its middle: when a type gets
a lighter walk, its old entry stays in the heap, and is skipped when it comes out and the type is settled
by then. The search of `Search.run` gives up the old entry at once. Both settle the same types in the same
order, at the same weights and after the same types.

* `Search.round`, `Search.Loops`: one turn of the loop with a heap, and the loop to its end;
* `Heaped.Matches`: what waits in the frontier is in the heap, and every other entry of the heap is of a
  settled type, or of one that is reached and lighter by now;
* `Matches.lightest?`: so the first entry of an unsettled type is the one that the frontier gives;
* **`Search.loops`**: turn by turn the two loops do the same;
* **`run_lazily`**: the loop with a heap ends in one way, with what `Search.run` finds;
* **`lazily_tiesByName`**: its ties too are broken by name.
-/

namespace PolicyReach

open Std

/-! ## The loop with a heap -/

/-- `v` comes out of a heap no later than `w`: it is lighter, or as light and of no greater name. -/
def Precedes (v w : KeyPair UInt32 TypeName) : Prop := (compare v w).isLE = true

instance : DecidableRel Precedes := fun v w => inferInstanceAs (Decidable ((compare v w).isLE = true))

instance : Std.Total Precedes where
  total v w := by
    unfold Precedes
    rw [← OrientedCmp.isGE_iff_isLE (a := v) (b := w)]
    cases compare v w <;> decide

instance : IsTrans (KeyPair UInt32 TypeName) Precedes where
  trans _ _ _ := TransCmp.isLE_trans

theorem first_le_of_precedes {v w : KeyPair UInt32 TypeName} (h : Precedes v w) : v.first ≤ w.first :=
  (LawfulOrderOrd.isLE_compare v.first w.first).mp (KeyPair.isLE_first h)

/-- What a search keeps when its frontier is a heap. -/
structure Heaped where
  dist : OrdMap TypeName UInt32 := ∅
  prev : OrdMap TypeName TypeName := ∅
  settled : OrdSet TypeName := ∅
  /-- The entries as they will come out: a type may have several, and equal ones stand side by side. -/
  heap : List (KeyPair UInt32 TypeName) := []

namespace Heaped

/-- What has been found, without what waits. -/
def books (h : Heaped) : Reached := { dist := h.dist, prev := h.prev, settled := h.settled }

/-- Put an entry into the heap. -/
def push (h : Heaped) (w : KeyPair UInt32 TypeName) : Heaped :=
  { h with heap := h.heap.orderedInsert Precedes w }

/-- The heap as it is after its first entry has come out, with the type of that entry settled. -/
def settle (h : Heaped) (t : TypeName) (rest : List (KeyPair UInt32 TypeName)) : Heaped :=
  { h with settled := h.settled.insert t, heap := rest }

/-- Offer an unsettled type a walk of weight `cost` over `via`. -/
def offer (h : Heaped) (t via : TypeName) (cost : UInt32) : Heaped :=
  if h.books.isBetter t via cost then
    { h with dist := h.dist.insert t cost, prev := h.prev.insert t via }.push ⟨cost, t⟩
  else h

/-- The heap in the beginning. -/
def start (source : TypeName) : Heaped := { dist := OrdMap.insert ∅ source 0, heap := [⟨0, source⟩] }

end Heaped

namespace Search

/-- What one neighbour is offered. -/
def visitHeaped (q : Search) (a : TypeName) (c : UInt32) (h : Heaped) (hop : TypeName × Edge) : Heaped :=
  if q.mayHop h.books a hop.1 then h.offer hop.1 a (saturatingAdd c hop.2.weight) else h

/-- One turn of the loop. -/
def round (q : Search) (h : Heaped) : ForInStep Heaped :=
  match h.heap with
  | [] => .done h
  | w :: rest =>
    if h.settled.contains w.second then .yield { h with heap := rest }
    else
      let h := h.settle w.second rest
      if q.target = some w.second then .done h
      else if q.expands w.second then
        .yield ((q.graph.neighbors q.orientation w.second).foldl (q.visitHeaped w.second w.first) h)
      else .yield h

/-- The loop, begun with a heap, ends with another. -/
inductive Loops (q : Search) : Heaped → Heaped → Prop
  | done {h h' : Heaped} (last : q.round h = .done h') : Loops q h h'
  | more {h h₁ h' : Heaped} (turn : q.round h = .yield h₁) (rest : Loops q h₁ h') : Loops q h h'

/-- What is left in the end: with a target, only what is settled. -/
def found (q : Search) (h : Heaped) : Reached :=
  if q.target.isSome then h.books.settledOnly else h.books

variable {q : Search}

/-- The loop ends in one way at most. -/
theorem Loops.unique {h h₁ h₂ : Heaped} (h₁ends : q.Loops h h₁) (h₂ends : q.Loops h h₂) : h₁ = h₂ := by
  induction h₁ends with
  | done last =>
    cases h₂ends with
    | done last' => exact ForInStep.done.inj (last.symm.trans last')
    | more turn' => exact nomatch last.symm.trans turn'
  | more turn _ ih =>
    cases h₂ends with
    | done last' => exact nomatch turn.symm.trans last'
    | more turn' rest' =>
      obtain rfl := ForInStep.yield.inj (turn.symm.trans turn')
      exact ih rest'

/-! ## What waits in the frontier -/

/-- What is reached and not settled waits, and only the source and nodes are reached. -/
structure Within (q : Search) (s : Reached) : Prop where
  waits : s.Waits
  reached : ∀ {t d}, s.dist.get? t = some d → t ∈ q.source :: q.graph.nodes.toList
  settled : ∀ {t}, t ∈ s.settled → t ∈ q.source :: q.graph.nodes.toList

variable {s : Reached} {t : TypeName} {c : UInt32}

theorem within_start (q : Search) : q.Within (Reached.reach {} q.source 0) where
  waits := (explored_start q).waits
  reached {t d} ht := by
    have hd : (if t = q.source then some 0 else OrdMap.get? ∅ t) = some d :=
      (OrdMap.get?_insert ..).symm.trans ht
    split at hd
    · rename_i heq
      exact heq ▸ List.mem_cons_self
    · have hnone : none = some d := (OrdMap.get?_empty t).symm.trans hd
      cases hnone
  settled ht := absurd ht (OrdSet.not_mem_empty _)

theorem Within.settle (h : q.Within s) (ht : s.dist.get? t = some c) : q.Within (s.settle t c) where
  waits := h.waits.settle ht
  reached := h.reached
  settled {x} hx := by
    rcases OrdSet.mem_insert.mp hx with rfl | hold
    · exact h.reached ht
    · exact h.settled hold

theorem Within.visit (hg : q.graph.Closed) {a : TypeName} {hop : TypeName × Edge}
    (harc : q.graph.arc? q.orientation a hop.1 = some hop.2) (h : q.Within s) :
    q.Within (q.visit a c s hop) := by
  unfold Search.visit Reached.offer
  split_ifs with hmay hbetter
  · obtain ⟨hnew, -⟩ := mayHop_iff.mp hmay
    refine ⟨h.waits.reachVia hnew, fun {t d} hd => ?_, h.settled⟩
    by_cases ht : t = hop.1
    · exact ht ▸ List.mem_cons_of_mem _ (OrdSet.mem_toList.mpr (hg harc).2)
    · exact h.reached ((Reached.dist_reachVia_ne ht).symm.trans hd)
  · exact h
  · exact h

/-- While a type is yet to be settled, no more are than there are nodes. -/
theorem Within.size_le (h : q.Within s) (ht : s.dist.get? t = some c) (hnew : t ∉ s.settled) :
    s.settled.size ≤ q.graph.nodeCount := by
  have hnodes : ∀ x ∈ s.settled.insert t, x ∈ q.source :: q.graph.nodes.toList := by
    intro x hx
    rcases OrdSet.mem_insert.mp hx with rfl | hx
    · exact h.reached ht
    · exact h.settled hx
  exact size_le_nodeCount hnew hnodes

/-- The first waiting entry, told by the order of entries. -/
theorem lightest?_of_least (hw : ⟨c, t⟩ ∈ s.frontier)
    (hleast : ∀ w ∈ s.frontier, Precedes ⟨c, t⟩ w) : s.lightest? = some (t, c) := by
  unfold Reached.lightest?
  rw [OrdSet.least?_eq_head?]
  have hasc := s.frontier.ascending_toList
  cases hlist : s.frontier.toList with
  | nil => exact nomatch hlist ▸ OrdSet.mem_toList.mpr hw
  | cons w rest =>
    rw [hlist, List.pairwise_cons] at hasc
    have hmem : (⟨c, t⟩ : KeyPair UInt32 TypeName) ∈ w :: rest := hlist ▸ OrdSet.mem_toList.mpr hw
    rcases List.mem_cons.mp hmem with rfl | hrest
    · rfl
    · have hle := hleast w (OrdSet.mem_toList.mp (hlist ▸ List.mem_cons_self))
      exact absurd (OrientedCmp.isGE_iff_isLE.mpr hle) (by rw [hasc.1 _ hrest]; decide)

end Search

/-! ## The heap and the frontier -/

namespace Heaped

/-- **The heap holds what waits, and what was superseded.** What has been found is the same. An entry of a
type that is not settled is no lighter than the type is by now. -/
structure Matches (h : Heaped) (s : Reached) : Prop where
  dist : h.dist = s.dist
  prev : h.prev = s.prev
  settled : h.settled = s.settled
  ascending : h.heap.Pairwise Precedes
  waiting : ∀ w ∈ s.frontier, w ∈ h.heap
  superseded : ∀ w ∈ h.heap, w.second ∉ s.settled → ∃ d, s.dist.get? w.second = some d ∧ d ≤ w.first

variable {h : Heaped} {s : Reached} {w : KeyPair UInt32 TypeName} {rest : List (KeyPair UInt32 TypeName)}

theorem matches_start (source : TypeName) : (start source).Matches (Reached.reach {} source 0) where
  dist := rfl
  prev := rfl
  settled := rfl
  ascending := List.pairwise_singleton _ _
  waiting w hw := by
    rcases OrdSet.mem_insert.mp hw with rfl | hold
    · exact List.mem_cons_self
    · exact absurd hold (OrdSet.not_mem_empty w)
  superseded w hw _ := by
    obtain rfl := List.mem_singleton.mp hw
    exact ⟨0, (OrdMap.get?_insert ..).trans (if_pos rfl), UInt32.le_refl _⟩

namespace Matches

theorem isBetter_eq (hm : h.Matches s) (t via : TypeName) (cost : UInt32) :
    h.books.isBetter t via cost = s.isBetter t via cost := by
  unfold Reached.isBetter books
  rw [hm.dist, hm.prev]

theorem mayHop_eq (hm : h.Matches s) (q : Search) (a b : TypeName) :
    q.mayHop h.books a b = q.mayHop s a b := by
  unfold Search.mayHop books
  rw [hm.settled]

/-- The entry of a settled type is skipped. -/
theorem skip (hm : h.Matches s) (hs : s.Waits) (hheap : h.heap = w :: rest) (hold : w.second ∈ s.settled) :
    { h with heap := rest }.Matches s where
  dist := hm.dist
  prev := hm.prev
  settled := hm.settled
  ascending := (List.pairwise_cons.mp (hheap ▸ hm.ascending)).2
  waiting v hv := by
    have hmem : v ∈ w :: rest := hheap ▸ hm.waiting v hv
    rcases List.mem_cons.mp hmem with rfl | hrest
    · exact absurd hold ((hs _ _).mp hv).2
    · exact hrest
  superseded v hv := hm.superseded v (hheap ▸ List.mem_cons_of_mem w hv)

/-- **The first entry of an unsettled type is the one that the frontier gives.** -/
theorem lightest? (hm : h.Matches s) (hs : s.Waits) (hheap : h.heap = w :: rest)
    (hnew : w.second ∉ s.settled) :
    s.dist.get? w.second = some w.first ∧ s.lightest? = some (w.second, w.first) := by
  have hfirst (v : KeyPair UInt32 TypeName) (hv : v ∈ s.frontier) : Precedes w v := by
    have hmem : v ∈ w :: rest := hheap ▸ hm.waiting v hv
    rcases List.mem_cons.mp hmem with rfl | hrest
    · exact ReflCmp.isLE_rfl
    · exact (List.pairwise_cons.mp (hheap ▸ hm.ascending)).1 v hrest
  obtain ⟨d, hd, hle⟩ := hm.superseded w (hheap ▸ List.mem_cons_self) hnew
  have hwaits : ⟨d, w.second⟩ ∈ s.frontier := (hs _ _).mpr ⟨hd, hnew⟩
  obtain rfl : w.first = d := UInt32.le_antisymm (first_le_of_precedes (hfirst _ hwaits)) hle
  exact ⟨hd, Search.lightest?_of_least hwaits hfirst⟩

theorem settle (hm : h.Matches s) (hheap : h.heap = w :: rest) :
    (h.settle w.second rest).Matches (s.settle w.second w.first) where
  dist := hm.dist
  prev := hm.prev
  settled := congrArg (OrdSet.insert · w.second) hm.settled
  ascending := (List.pairwise_cons.mp (hheap ▸ hm.ascending)).2
  waiting v hv := by
    obtain ⟨hne, hold⟩ := OrdSet.mem_erase.mp hv
    have hmem : v ∈ w :: rest := hheap ▸ hm.waiting v hold
    exact (List.mem_cons.mp hmem).resolve_left hne
  superseded v hv hout := by
    refine hm.superseded v (hheap ▸ List.mem_cons_of_mem w hv) fun hold => hout ?_
    exact OrdSet.mem_insert.mpr (Or.inr hold)

/-- An offer that is taken puts a new entry into the heap, no heavier than those it supersedes. -/
theorem take (hm : h.Matches s) (hs : s.Waits) {b a : TypeName} {cost : UInt32}
    (hbetter : s.isBetter b a cost = true) :
    ({ h with dist := h.dist.insert b cost, prev := h.prev.insert b a }.push ⟨cost, b⟩).Matches
      (s.reachVia b a cost) := by
  have hheap (v : KeyPair UInt32 TypeName) :
      v ∈ h.heap.orderedInsert Precedes ⟨cost, b⟩ ↔
        v = ⟨cost, b⟩ ∨ v ∈ h.heap :=
    List.mem_orderedInsert _
  refine ⟨congrArg (OrdMap.insert · b cost) hm.dist, congrArg (OrdMap.insert · b a) hm.prev, hm.settled,
    ?_, fun v hv => (hheap v).mpr ?_, fun v hv hout => ?_⟩
  · exact List.Pairwise.orderedInsert _ _ hm.ascending
  · rcases hs.mem_reach.mp hv with ⟨hvb, hd⟩ | ⟨-, hold⟩
    · exact Or.inl (congrArg₂ KeyPair.mk hd hvb)
    · exact Or.inr (hm.waiting v hold)
  · rw [Reached.dist_reachVia]
    by_cases hvb : v.second = b
    · refine ⟨cost, if_pos hvb, ?_⟩
      rcases (hheap v).mp hv with rfl | hold
      · exact UInt32.le_refl _
      · obtain ⟨d, hd, hle⟩ := hm.superseded v hold hout
        have hcost : cost.toNat ≤ d.toNat := by
          rcases Reached.le_of_isBetter (hvb ▸ hd) hbetter with hlt | ⟨heq, -⟩ <;> omega
        exact UInt32.le_trans (UInt32.le_iff_toNat_le.mpr hcost) hle
    · rw [if_neg hvb]
      rcases (hheap v).mp hv with rfl | hold
      · exact absurd rfl hvb
      · exact hm.superseded v hold hout

theorem visit (hm : h.Matches s) (hs : s.Waits) (q : Search) (a : TypeName) (c : UInt32)
    (hop : TypeName × Edge) : (q.visitHeaped a c h hop).Matches (q.visit a c s hop) := by
  unfold Search.visitHeaped Search.visit
  rw [hm.mayHop_eq]
  by_cases hmay : q.mayHop s a hop.1 = true
  · rw [if_pos hmay, if_pos hmay]
    unfold Heaped.offer Reached.offer
    rw [hm.isBetter_eq]
    split
    · rename_i hbetter
      exact hm.take hs hbetter
    · exact hm
  · rw [if_neg hmay, if_neg hmay]
    exact hm

end Matches

end Heaped

/-! ## Turn by turn -/

namespace Search

variable {q : Search} {h : Heaped} {s : Reached} {w : KeyPair UInt32 TypeName}
  {rest : List (KeyPair UInt32 TypeName)} {a : TypeName} {c : UInt32}

theorem visitAll (hg : q.graph.Closed) :
    ∀ {hops : List (TypeName × Edge)} {h : Heaped} {s : Reached},
      (∀ hop ∈ hops, q.graph.arc? q.orientation a hop.1 = some hop.2) → q.Within s → h.Matches s →
      q.Within (hops.foldl (q.visit a c) s) ∧
        (hops.foldl (q.visitHeaped a c) h).Matches (hops.foldl (q.visit a c) s)
  | [], _, _, _, hs, hm => ⟨hs, hm⟩
  | hop :: hops, h, s, harcs, hs, hm => by
    have hrest : ∀ x ∈ hops, q.graph.arc? q.orientation a x.1 = some x.2 := fun x hx =>
      harcs x (List.mem_cons_of_mem hop hx)
    obtain ⟨hwithin, hall⟩ :=
      visitAll hg hrest (hs.visit hg (harcs hop List.mem_cons_self)) (hm.visit hs.waits q a c hop)
    exact ⟨hwithin, hall⟩

/-- A turn that settles a type does what the frontier's loop does. -/
theorem round_of_new (hg : q.graph.Closed) (hs : q.Within s) (hm : h.Matches s) (hheap : h.heap = w :: rest)
    (hnew : w.second ∉ s.settled) :
    ∃ h₁, h₁.Matches (q.settleOne s w.second w.first) ∧ q.Within (q.settleOne s w.second w.first) ∧
      q.round h = if q.target = some w.second then .done h₁ else .yield h₁ := by
  obtain ⟨hdist, -⟩ := hm.lightest? hs.waits hheap hnew
  have hsettled := hs.settle hdist
  have hmatches := hm.settle hheap
  have hout : h.settled.contains w.second = false := by
    rw [hm.settled, Bool.eq_false_iff, Ne, OrdSet.contains_eq_true_iff]
    exact hnew
  unfold round settleOne
  rw [hheap]
  simp only [hout, Bool.false_eq_true, if_false]
  by_cases htarget : q.target = some w.second
  · simp only [if_pos htarget]
    exact ⟨_, hmatches, hsettled, rfl⟩
  · simp only [if_neg htarget]
    by_cases hexp : q.expands w.second = true
    · simp only [if_pos hexp]
      obtain ⟨hwithin, hall⟩ := visitAll (c := w.first) hg
        (fun _ hhop => FlowGraph.mem_neighbors.mp hhop) hsettled hmatches
      exact ⟨_, hall, hwithin, rfl⟩
    · simp only [if_neg hexp]
      exact ⟨_, hmatches, hsettled, rfl⟩

/-- Entries of settled types are skipped, up to the first one of another type. -/
theorem exists_skipped (q : Search) (hs : s.Waits) (hm : h.Matches s) :
    ∃ h₁ : Heaped, h₁.Matches s ∧ (∀ h', q.Loops h₁ h' → q.Loops h h') ∧
      ∀ w rest, h₁.heap = w :: rest → w.second ∉ s.settled := by
  generalize hheap : h.heap = entries
  induction entries generalizing h with
  | nil => exact ⟨h, hm, fun _ => id, fun w rest hcons => nomatch hheap.symm.trans hcons⟩
  | cons w rest ih =>
    by_cases hold : w.second ∈ s.settled
    · obtain ⟨h₁, hm₁, hloops, hnew⟩ := ih (hm.skip hs hheap hold) rfl
      have hin : h.settled.contains w.second = true := by
        rw [hm.settled]
        exact OrdSet.contains_eq_true_iff.mpr hold
      have hturn : q.round h = .yield { h with heap := rest } := by
        unfold round
        rw [hheap]
        simp only [hin, if_true]
      exact ⟨h₁, hm₁, fun h' h'ends => .more hturn (hloops h' h'ends), hnew⟩
    · refine ⟨h, hm, fun _ => id, fun w' rest' hcons => ?_⟩
      obtain ⟨rfl, rfl⟩ := List.cons.inj (hheap.symm.trans hcons)
      exact hold

/-- **The two loops end alike.** Skipping changes nothing that is found, and every other turn of the loop
with a heap is a turn of the loop with the frontier. -/
theorem loops (hg : q.graph.Closed) :
    ∀ {fuel : Nat} {h : Heaped} {s : Reached}, q.Within s → h.Matches s →
      q.graph.nodeCount + 1 ≤ s.settled.size + fuel →
      ∃ h', q.Loops h h' ∧ h'.Matches (q.settleAll fuel s)
  | fuel, h, s, hs, hm, hsize => by
    obtain ⟨h₁, hm₁, hloops, hnew⟩ := exists_skipped q hs.waits hm
    cases hheap : h₁.heap with
    | nil =>
      have hnone : s.lightest? = none := by
        by_contra hsome
        obtain ⟨⟨t, c⟩, ht⟩ := Option.ne_none_iff_exists'.mp hsome
        exact nomatch hheap ▸ hm₁.waiting _ (lightest?_eq_some ht).1
      have hturn : q.round h₁ = .done h₁ := by
        unfold round
        rw [hheap]
      rw [settleAll_of_none q fuel hnone]
      exact ⟨h₁, hloops h₁ (.done hturn), hm₁⟩
    | cons w rest =>
      have hnew := hnew w rest hheap
      obtain ⟨hdist, hlightest⟩ := hm₁.lightest? hs.waits hheap hnew
      have hle := hs.size_le hdist hnew
      obtain ⟨h₂, hm₂, hs₂, hturn⟩ := round_of_new hg hs hm₁ hheap hnew
      cases fuel with
      | zero => omega
      | succ fuel =>
        by_cases htarget : q.target = some w.second
        · rw [if_pos htarget] at hturn
          rw [settleAll_of_target hlightest htarget]
          exact ⟨h₂, hloops h₂ (.done hturn), hm₂⟩
        · rw [if_neg htarget] at hturn
          rw [settleAll_of_some hlightest htarget]
          have hmore : (q.settleOne s w.second w.first).settled.size = s.settled.size + 1 :=
            settled_settleOne q s w.second w.first ▸ OrdSet.size_insert hnew
          have hsize₂ : q.graph.nodeCount + 1 ≤
              (q.settleOne s w.second w.first).settled.size + fuel := by
            omega
          obtain ⟨h', hrest, hm'⟩ := loops hg hs₂ hm₂ hsize₂
          exact ⟨h', hloops h' (.more hturn hrest), hm'⟩

/-- **The loop with a heap finds what the search finds**, and ends in one way. This rests on no bound on
weights: they may be zero, and sums of them may be cut off. -/
theorem run_lazily (q : Search) (hg : q.graph.Closed) :
    ∃ h, (∀ h', q.Loops (Heaped.start q.source) h' ↔ h' = h) ∧
      q.found h = { q.run with frontier := ∅ } := by
  obtain ⟨h, hloops, hm⟩ := loops hg (within_start q) (Heaped.matches_start q.source)
    (Nat.le_add_left _ _)
  refine ⟨h, fun h' => ⟨fun hends => hends.unique hloops, fun heq => heq ▸ hloops⟩, ?_⟩
  have hbooks : h.books =
      { q.settleAll (q.graph.nodeCount + 1) (Reached.reach {} q.source 0) with frontier := ∅ } := by
    unfold Heaped.books
    rw [hm.dist, hm.prev, hm.settled]
  unfold found run
  rw [hbooks]
  by_cases htarget : q.target.isSome = true
  · rw [if_pos htarget, if_pos htarget]
    rfl
  · rw [if_neg htarget, if_neg htarget]

/-! ## What is read off -/

section Ties

variable {f : OrdSet (KeyPair UInt32 TypeName)} {l : List TypeName} {t : TypeName}

/-- What stands before a type, and the way back from it, are told without what waits. -/
theorem before_iff : q.Before { s with frontier := f } a t ↔ q.Before s a t :=
  ⟨fun h => ⟨h.may, h.least⟩, fun h => ⟨h.may, h.least⟩⟩

theorem backwards_iff : q.Backwards { s with frontier := f } l t ↔ q.Backwards s l t := by
  constructor
  · intro h
    induction h with
    | source => exact .source
    | step _ before ih => exact ih.step (before_iff.mp before)
  · intro h
    induction h with
    | source => exact .source
    | step _ before ih => exact ih.step (before_iff.mpr before)

theorem walkBack_forget (s : Reached) (f : OrdSet (KeyPair UInt32 TypeName)) :
    ∀ (fuel : Nat) (t : TypeName) (l : List TypeName),
      { s with frontier := f }.walkBack fuel t l = s.walkBack fuel t l
  | 0, _, _ => rfl
  | fuel + 1, t, l => by
    cases hp : s.prev.get? t with
    | none => simp only [Reached.walkBack, hp]
    | some p =>
      simp only [Reached.walkBack, hp]
      exact walkBack_forget s f fuel p (p :: l)

theorem walkTo?_forget (s : Reached) (f : OrdSet (KeyPair UInt32 TypeName)) (t : TypeName) :
    { s with frontier := f }.walkTo? t = s.walkTo? t := by
  unfold Reached.walkTo?
  simp only [walkBack_forget]

theorem TiesByName.forget (h : q.TiesByName s) (f : OrdSet (KeyPair UInt32 TypeName)) :
    q.TiesByName { s with frontier := f } where
  reached := h.reached
  lightest := h.lightest
  unled := h.unled
  before t ht hne := by
    obtain ⟨a, ha, hbefore⟩ := h.before t ht hne
    exact ⟨a, ha, before_iff.mpr hbefore⟩
  backwards t ht := by
    simp only [backwards_iff]
    exact h.backwards t ht
  walk t l := by
    rw [walkTo?_forget, backwards_iff]
    exact h.walk t l
  simple t l := by
    rw [walkTo?_forget]
    exact h.simple t l
  ended t fuel ht hfuel := by
    rw [walkBack_forget]
    exact (h.ended t fuel ht hfuel).trans (walkBack_forget s f s.prev.size t [t]).symm

/-- **A search whose frontier is a heap breaks ties by name too.** -/
theorem lazily_tiesByName (hg : q.graph.Closed) (hm : q.graph.Measured) (htarget : q.target = none)
    (hends : q.Loops (Heaped.start q.source) h) : q.TiesByName (q.found h) := by
  obtain ⟨h', honly, hfound⟩ := run_lazily q hg
  obtain rfl := (honly h).mp hends
  exact hfound ▸ (run_tiesByName q hg hm htarget).forget ∅

end Ties

end Search

end PolicyReach
