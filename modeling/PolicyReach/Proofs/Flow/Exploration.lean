import Mathlib.Data.List.Nodup
import PolicyReach.Proofs.Flow.Walk

/-!
# What a search explores

What a search may do is a relation (`Search.Walk`): walks from its source along edges that it does not
exclude, going on from the source and from passable types only, and never from its target. Against
it stands what the search has found (`Search.Explored`), the invariant of its loop.

* `Admissible.walk`, `Walk.admissible`: without a target, the walks that repeat no type are the admissible
  ones;
* `Explored.exists_walk`: whatever is reached is reached by a walk of its weight without repeats;
* `Explored.reaches`: whatever a walk reaches is settled, or a type before it is still waiting;
* **`Explored.settle`**, **`Explored.offer`**: settling a type and making an offer keep the invariant,
  and no sum of weights is cut off at the greatest word (`Explored.add_exact`).
-/

namespace PolicyReach

open Std

/-! ## The walks of a search -/

namespace Search

/-- The search may hop from `a` to `b`, along `e`. -/
structure Hop (q : Search) (a b : TypeName) (e : Edge) : Prop where
  arc : q.graph.arc? q.orientation a b = some e
  entered : b ∉ q.excludedTypes
  made : (a, b) ∉ q.excludedHops
  expands : q.expands a = true
  goesOn : q.target ≠ some a

/-- The search may walk along a list of types, which ends at a type and costs so much. -/
inductive Walk (q : Search) : List TypeName → TypeName → Nat → Prop
  | source : Walk q [q.source] q.source 0
  | hop {l : List TypeName} {a b : TypeName} {n : Nat} {e : Edge} (walk : Walk q l a n)
      (hop : q.Hop a b e) : Walk q (l ++ [b]) b (n + e.weight.toNat)

variable {q : Search} {l : List TypeName} {t : TypeName} {n : Nat}

theorem Walk.exists_snoc (h : q.Walk l t n) : ∃ m, l = m ++ [t] := by
  cases h with
  | source => exact ⟨[], rfl⟩
  | hop walk hop => exact ⟨_, rfl⟩

theorem Walk.walks (h : q.Walk l t n) :
    q.graph.Walks q.orientation l ∧ q.graph.cost q.orientation l = n := by
  induction h with
  | source => exact ⟨List.isChain_singleton _, rfl⟩
  | @hop l a b n e walk hop ih =>
    obtain ⟨m, rfl⟩ := walk.exists_snoc
    obtain ⟨hwalks, hcost⟩ := ih
    rw [List.append_assoc, List.singleton_append]
    refine ⟨FlowGraph.walks_snoc.mpr ⟨hwalks, e, hop.arc⟩, ?_⟩
    rw [FlowGraph.cost_snoc, hcost, FlowGraph.hopCost_of_arc hop.arc]

theorem Walk.head? (h : q.Walk l t n) : l.head? = some q.source := by
  induction h with
  | source => rfl
  | @hop l a b n e walk hop ih =>
    obtain ⟨m, rfl⟩ := walk.exists_snoc
    rw [List.head?_append, ih]
    rfl

theorem Walk.hops (h : q.Walk l t n) : ∀ x ∈ FlowGraph.hops l, ∃ e, q.Hop x.1 x.2 e := by
  induction h with
  | source => exact fun x hx => nomatch hx
  | @hop l a b n e walk hop ih =>
    obtain ⟨m, rfl⟩ := walk.exists_snoc
    intro x hx
    rw [List.append_assoc, List.singleton_append, FlowGraph.hops_split, List.mem_append] at hx
    rcases hx with hx | hx
    · exact ih x hx
    · obtain rfl := List.mem_singleton.mp hx
      exact ⟨e, hop⟩

theorem walk_of_hops {l : List TypeName} (hhead : l.head? = some q.source)
    (hops : ∀ x ∈ FlowGraph.hops l, ∃ e, q.Hop x.1 x.2 e) {t : TypeName}
    (hlast : l.getLast? = some t) : q.Walk l t (q.graph.cost q.orientation l) := by
  induction l using List.reverseRecOn generalizing t with
  | nil => exact nomatch hhead
  | append_singleton m b ih =>
    obtain rfl : b = t := Option.some.inj (List.getLast?_concat.symm.trans hlast)
    rcases List.eq_nil_or_concat' m with rfl | ⟨m, a, rfl⟩
    · obtain rfl := Option.some.inj hhead
      exact .source
    · rw [List.append_assoc, List.singleton_append] at hops ⊢
      rw [FlowGraph.hops_split] at hops
      obtain ⟨e, hop⟩ := hops (a, b) (List.mem_append_right _ List.mem_cons_self)
      have hhead' : (m ++ [a]).head? = some q.source := by
        rw [← hhead, List.head?_append (l := m ++ [a]), Option.or_of_isSome]
        exact List.isSome_head?.mpr (List.concat_ne_nil a m)
      have hwalk := ih hhead' (fun x hx => hops x (List.mem_append_left _ hx)) List.getLast?_concat
      rw [FlowGraph.cost_snoc, FlowGraph.hopCost_of_arc hop.arc, ← List.singleton_append (x := a),
        ← List.append_assoc]
      exact hwalk.hop hop

/-- What the search may do on the hops of a list, told by what it may do at its types. -/
theorem hops_iff :
    (∀ x ∈ FlowGraph.hops l, ∃ e, q.Hop x.1 x.2 e) ↔
      q.graph.Walks q.orientation l ∧ (∀ x ∈ l.tail, x ∉ q.excludedTypes) ∧
        (∀ x ∈ FlowGraph.hops l, x ∉ q.excludedHops) ∧
        ∀ x ∈ l.dropLast, q.expands x = true ∧ q.target ≠ some x := by
  constructor
  · intro h
    refine ⟨FlowGraph.walks_iff_hops.mpr fun x hx => ?_, fun b hb => ?_, fun x hx => ?_,
      fun a ha => ?_⟩
    · obtain ⟨e, hop⟩ := h x hx
      exact ⟨e, hop.arc⟩
    · obtain ⟨a, hab⟩ := FlowGraph.exists_mem_hops_to hb
      obtain ⟨e, hop⟩ := h _ hab
      exact hop.entered
    · obtain ⟨e, hop⟩ := h x hx
      exact hop.made
    · obtain ⟨b, hab⟩ := FlowGraph.exists_mem_hops ha
      obtain ⟨e, hop⟩ := h _ hab
      exact ⟨hop.expands, hop.goesOn⟩
  · rintro ⟨hwalks, htypes, hhops, hgo⟩ x hx
    obtain ⟨e, he⟩ := FlowGraph.walks_iff_hops.mp hwalks x hx
    obtain ⟨ha, hb⟩ := FlowGraph.mem_hops hx
    exact ⟨e, he, htypes _ hb, hhops x hx, (hgo _ ha).1, (hgo _ ha).2⟩

/-- **The walks of a search** are the lists from its source on whose hops it may make. -/
theorem walk_iff :
    q.Walk l t n ↔ l.head? = some q.source ∧ l.getLast? = some t ∧
      (∀ x ∈ FlowGraph.hops l, ∃ e, q.Hop x.1 x.2 e) ∧ q.graph.cost q.orientation l = n := by
  constructor
  · intro h
    obtain ⟨m, hm⟩ := h.exists_snoc
    exact ⟨h.head?, hm ▸ List.getLast?_concat, h.hops, h.walks.2⟩
  · rintro ⟨hhead, hlast, hops, rfl⟩
    exact walk_of_hops hhead hops hlast

end Search

/-! ## Admissible walks -/

namespace Search

/-- An admissible walk from the source to `t`: it passes through passable types, enters no excluded
type and makes no excluded hop. -/
structure Admissible (q : Search) (l : List TypeName) (t : TypeName) : Prop where
  head : l.head? = some q.source
  last : l.getLast? = some t
  walks : q.graph.Walks q.orientation l
  inner : ∀ x ∈ l.tail.dropLast, q.passable x = true
  entered : ∀ x ∈ l.tail, x ∉ q.excludedTypes
  made : ∀ h ∈ FlowGraph.hops l, h ∉ q.excludedHops

variable {q : Search} {l : List TypeName} {t : TypeName} {n : Nat}

theorem expands_iff {x : TypeName} : q.expands x = true ↔ x = q.source ∨ q.passable x = true := by
  unfold expands
  rw [Bool.or_eq_true, beq_iff_eq]

/-- A search without a target may go along any admissible walk. -/
theorem Admissible.walk (htarget : q.target = none) (h : q.Admissible l t) :
    q.Walk l t (q.graph.cost q.orientation l) := by
  refine walk_iff.mpr ⟨h.head, h.last, hops_iff.mpr ⟨h.walks, h.entered, h.made, fun x hx => ?_⟩, rfl⟩
  refine ⟨expands_iff.mpr ?_, fun hsome => nomatch htarget.symm.trans hsome⟩
  exact (FlowGraph.mem_dropLast_cases h.head hx).imp_right (h.inner x)

/-- A walk of a search is admissible if it repeats no type: it does not come back to the source, from
which a search goes on even if that is not passable. -/
theorem Walk.admissible (h : q.Walk l t n) (hn : l.Nodup) : q.Admissible l t := by
  obtain ⟨hhead, hlast, hhops, -⟩ := walk_iff.mp h
  obtain ⟨hwalks, hentered, hmade, hgo⟩ := hops_iff.mp hhops
  refine ⟨hhead, hlast, hwalks, fun x hx => ?_, hentered, hmade⟩
  obtain ⟨hexp, -⟩ := hgo x (FlowGraph.mem_dropLast_of_inner hx)
  refine (expands_iff.mp hexp).resolve_left fun heq => ?_
  obtain ⟨rest, rfl⟩ := List.head?_eq_some_iff.mp hhead
  have hmem : x ∈ rest := List.dropLast_subset _ hx
  exact (List.nodup_cons.mp hn).1 (heq ▸ hmem)

end Search

/-! ## What a search has found -/

namespace Reached

/-- `t` is settled, at weight `d`. -/
def Settled (s : Reached) (t : TypeName) (d : UInt32) : Prop :=
  t ∈ s.settled ∧ s.dist.get? t = some d

/-- What waits is what is reached and not settled, under its weight. -/
def Waits (s : Reached) : Prop :=
  ∀ t d, ⟨d, t⟩ ∈ s.frontier ↔ s.dist.get? t = some d ∧ t ∉ s.settled

/-- What `b` has is no worse than a walk of weight `n` over `a`: it is lighter, or as light and from a
type of no greater name. -/
def Beats (s : Reached) (b a : TypeName) (n : Nat) : Prop :=
  ∃ d, s.dist.get? b = some d ∧
    (d.toNat < n ∨ d.toNat = n ∧ ∃ p, s.prev.get? b = some p ∧ (compare a p).isLT = false)

theorem Beats.exists_le {s : Reached} {b a : TypeName} {n : Nat} (h : s.Beats b a n) :
    ∃ d, s.dist.get? b = some d ∧ d.toNat ≤ n := by
  obtain ⟨d, hd, hlt | ⟨heq, -⟩⟩ := h
  · exact ⟨d, hd, Nat.le_of_lt hlt⟩
  · exact ⟨d, hd, Nat.le_of_eq heq⟩

/-- A type that is settled waits no longer. -/
theorem Waits.settle {s : Reached} (h : s.Waits) {t : TypeName} {c : UInt32}
    (ht : s.dist.get? t = some c) : (s.settle t c).Waits := fun a d => by
  show ⟨d, a⟩ ∈ s.frontier.erase ⟨c, t⟩ ↔ s.dist.get? a = some d ∧ a ∉ s.settled.insert t
  rw [OrdSet.mem_erase, h, OrdSet.mem_insert, not_or]
  constructor
  · rintro ⟨hne, hd, hout⟩
    refine ⟨hd, fun heq => hne ?_, hout⟩
    obtain rfl := heq
    obtain rfl := Option.some.inj (hd.symm.trans ht)
    rfl
  · rintro ⟨hd, hat, hout⟩
    exact ⟨fun heq => hat (congrArg KeyPair.second heq), hd, hout⟩

/-- The types before a type lead back to the source. -/
inductive Chain (s : Reached) (source : TypeName) : List TypeName → TypeName → Prop
  | source : Chain s source [source] source
  | step {l : List TypeName} {a t : TypeName} (chain : Chain s source l a)
      (prev : s.prev.get? t = some a) : Chain s source (l ++ [t]) t

end Reached

namespace Search

/-- **What a search has found**, when all hops of the settled types but the pending ones have been
offered. -/
structure Explored (q : Search) (pending : List (TypeName × TypeName)) (s : Reached) : Prop where
  source : s.dist.get? q.source = some 0
  unled : s.prev.get? q.source = none
  settled : ∀ {t}, t ∈ s.settled → ∃ d, s.dist.get? t = some d
  /-- The frontier holds what is reached and not settled. -/
  frontier : ∀ {t d}, ⟨d, t⟩ ∈ s.frontier ↔ s.dist.get? t = some d ∧ t ∉ s.settled
  /-- Lighter types are settled first. -/
  ordered : ∀ {a b c d}, s.Settled a c → s.dist.get? b = some d → b ∉ s.settled → c.toNat ≤ d.toNat
  /-- The type before another is settled, and leads to it. -/
  led : ∀ {t d}, s.dist.get? t = some d → t ≠ q.source →
    ∃ a c e, s.prev.get? t = some a ∧ s.Settled a c ∧ q.Hop a t e ∧
      d.toNat = c.toNat + e.weight.toNat
  /-- No hop from a settled type is better than what its other end has. -/
  relaxed : ∀ {a b c e}, s.Settled a c → q.Hop a b e → (a, b) ∉ pending →
    s.Beats b a (c.toNat + e.weight.toNat)

variable {q : Search} {s : Reached} {pending : List (TypeName × TypeName)}

theorem Explored.waits (h : q.Explored pending s) : s.Waits := fun _ _ => h.frontier

/-- **What is reached is reached by a walk of its weight**: the chain of the types before it, which
repeats none since the weights on it ascend. -/
theorem Explored.exists_walk (hm : q.graph.Measured) (h : q.Explored pending s) {t : TypeName}
    {d : UInt32} (hd : s.dist.get? t = some d) :
    ∃ l, q.Walk l t d.toNat ∧ s.Chain q.source l t ∧ l.Nodup ∧
      ∀ x ∈ l, ∃ c, s.dist.get? x = some c ∧ (x = t ∨ x ∈ s.settled ∧ c.toNat < d.toNat) := by
  induction hk : d.toNat using Nat.strongRecOn generalizing t d with
  | _ k ih =>
    obtain rfl := hk
    by_cases ht : t = q.source
    · obtain rfl := ht
      have hzero : d = 0 := Option.some.inj (hd.symm.trans h.source)
      obtain rfl := hzero
      refine ⟨[q.source], .source, .source, List.nodup_singleton _, fun x hx => ?_⟩
      obtain rfl := List.mem_singleton.mp hx
      exact ⟨0, hd, Or.inl rfl⟩
    · obtain ⟨a, c, e, hprev, ha, hop, hsum⟩ := h.led hd ht
      have hpos := hm.positive hop.arc
      obtain ⟨l, hwalk, hchain, hnodup, hall⟩ := ih c.toNat (by omega) ha.2 rfl
      have hbelow (x : TypeName) (hx : x ∈ l) :
          ∃ y, s.dist.get? x = some y ∧ x ∈ s.settled ∧ y.toNat < d.toNat := by
        obtain ⟨y, hy, rfl | ⟨hmem, hlt⟩⟩ := hall x hx
        · obtain rfl := Option.some.inj (hy.symm.trans ha.2)
          exact ⟨y, hy, ha.1, by omega⟩
        · exact ⟨y, hy, hmem, by omega⟩
      have hnew : t ∉ l := by
        intro hmem
        obtain ⟨y, hy, -, hlt⟩ := hbelow t hmem
        obtain rfl := Option.some.inj (hy.symm.trans hd)
        exact Nat.lt_irrefl _ hlt
      refine ⟨l ++ [t], hsum ▸ hwalk.hop hop, hchain.step hprev, ?_, fun x hx => ?_⟩
      · exact hnodup.append (List.nodup_singleton t) (List.disjoint_singleton.mpr hnew)
      · rcases List.mem_append.mp hx with hx | hx
        · obtain ⟨y, hy, hmem, hlt⟩ := hbelow x hx
          exact ⟨y, hy, Or.inr ⟨hmem, hlt⟩⟩
        · obtain rfl := List.mem_singleton.mp hx
          exact ⟨d, hd, Or.inl rfl⟩

/-- **What a walk reaches is settled at no more than the walk's cost, or some type is still waiting
at no more.** -/
theorem Explored.reaches (h : q.Explored [] s) {l : List TypeName} {t : TypeName} {n : Nat}
    (hw : q.Walk l t n) :
    (∃ d, s.Settled t d ∧ d.toNat ≤ n) ∨
      ∃ x d, s.dist.get? x = some d ∧ x ∉ s.settled ∧ d.toNat ≤ n := by
  have split (x : TypeName) (d : UInt32) (k : Nat) (hd : s.dist.get? x = some d)
      (hle : d.toNat ≤ k) :
      (∃ d, s.Settled x d ∧ d.toNat ≤ k) ∨
        ∃ y d, s.dist.get? y = some d ∧ y ∉ s.settled ∧ d.toNat ≤ k := by
    by_cases hx : x ∈ s.settled
    · exact Or.inl ⟨d, ⟨hx, hd⟩, hle⟩
    · exact Or.inr ⟨x, d, hd, hx, hle⟩
  induction hw with
  | source => exact split _ 0 0 h.source (Nat.le_refl 0)
  | @hop l a b n e walk hop ih =>
    rcases ih with ⟨c, ha, hle⟩ | ⟨x, d, hx, hmem, hle⟩
    · obtain ⟨d, hd, hrelaxed⟩ := (h.relaxed ha hop List.not_mem_nil).exists_le
      exact split b d _ hd (by omega)
    · exact Or.inr ⟨x, d, hx, hmem, by omega⟩

/-! ## Settling a type -/

theorem lightest?_eq_some {t : TypeName} {c : UInt32} (h : s.lightest? = some (t, c)) :
    ⟨c, t⟩ ∈ s.frontier ∧ ∀ d x, ⟨d, x⟩ ∈ s.frontier → c.toNat ≤ d.toNat := by
  obtain ⟨w, hw, hpair⟩ := Option.map_eq_some_iff.mp h
  cases hpair
  rw [OrdSet.least?_eq_head?, List.head?_eq_some_iff] at hw
  obtain ⟨rest, hlist⟩ := hw
  refine ⟨OrdSet.mem_toList.mp (hlist ▸ List.mem_cons_self), fun d x hx => ?_⟩
  have hmem : ⟨d, x⟩ ∈ w :: rest := hlist ▸ OrdSet.mem_toList.mpr hx
  rcases List.mem_cons.mp hmem with rfl | hrest
  · exact Nat.le_refl _
  · have hasc := s.frontier.ascending_toList
    rw [hlist] at hasc
    have hlt := (List.pairwise_cons.mp hasc).1 _ hrest
    have hle := KeyPair.isLE_first (Ordering.isLE_of_eq_lt hlt)
    exact UInt32.le_iff_toNat_le.mp ((LawfulOrderOrd.isLE_compare w.first d).mp hle)

/-- The hops of a type to its neighbours. -/
def hopsFrom (q : Search) (t : TypeName) : List (TypeName × TypeName) :=
  (q.graph.neighbors q.orientation t).map fun h => (t, h.1)

/-- **Settling the lightest waiting type** leaves its own hops to be offered. -/
theorem Explored.settle (h : q.Explored [] s) {t : TypeName} {c : UInt32}
    (ht : s.lightest? = some (t, c)) : q.Explored (q.hopsFrom t) (s.settle t c) := by
  obtain ⟨hmem, hleast⟩ := lightest?_eq_some ht
  obtain ⟨hdist, hnew⟩ := h.frontier.mp hmem
  have hcases {a : TypeName} {d : UInt32} (ha : (s.settle t c).Settled a d) :
      s.Settled a d ∨ a = t ∧ d = c := by
    obtain ⟨hin, hd⟩ := ha
    rcases OrdSet.mem_insert.mp hin with rfl | hold
    · exact Or.inr ⟨rfl, Option.some.inj (hd.symm.trans hdist)⟩
    · exact Or.inl ⟨hold, hd⟩
  have hkeep {a : TypeName} {d : UInt32} (ha : s.Settled a d) : (s.settle t c).Settled a d :=
    ⟨OrdSet.mem_insert.mpr (Or.inr ha.1), ha.2⟩
  refine ⟨h.source, h.unled, fun {a} ha => ?_, fun {a d} => h.waits.settle hdist a d,
    fun {a b x y} ha hb hout => ?_, fun {a d} ha hne => ?_, fun {a b x e} ha hop hpend => ?_⟩
  · rcases OrdSet.mem_insert.mp ha with rfl | hold
    · exact ⟨c, hdist⟩
    · exact h.settled hold
  · have hout' : b ∉ s.settled := fun hb => hout (OrdSet.mem_insert.mpr (Or.inr hb))
    rcases hcases ha with hold | ⟨rfl, rfl⟩
    · exact h.ordered hold hb hout'
    · exact hleast y b (h.frontier.mpr ⟨hb, hout'⟩)
  · obtain ⟨p, x, e, hprev, hp, hop, hsum⟩ := h.led ha hne
    exact ⟨p, x, e, hprev, hkeep hp, hop, hsum⟩
  · rcases hcases ha with hold | ⟨rfl, rfl⟩
    · exact h.relaxed hold hop List.not_mem_nil
    · exact absurd (List.mem_map.mpr ⟨(b, e), FlowGraph.mem_neighbors.mpr hop.arc, rfl⟩) hpend

/-! ## Offering a hop -/

end Search

namespace Reached

variable {s : Reached} {a b t : TypeName} {cost d : UInt32}

/-- What there is after `b` has taken an offer over `a`. -/
def reachVia (s : Reached) (b a : TypeName) (cost : UInt32) : Reached :=
  { s.reach b cost with prev := s.prev.insert b a }

theorem dist_reachVia :
    (s.reachVia b a cost).dist.get? t = if t = b then some cost else s.dist.get? t :=
  OrdMap.get?_insert ..

theorem dist_reachVia_self : (s.reachVia b a cost).dist.get? b = some cost :=
  dist_reachVia.trans (if_pos rfl)

theorem dist_reachVia_ne (ht : t ≠ b) : (s.reachVia b a cost).dist.get? t = s.dist.get? t :=
  dist_reachVia.trans (if_neg ht)

theorem prev_reachVia_self : (s.reachVia b a cost).prev.get? b = some a :=
  (OrdMap.get?_insert ..).trans (if_pos rfl)

theorem prev_reachVia_ne (ht : t ≠ b) : (s.reachVia b a cost).prev.get? t = s.prev.get? t :=
  (OrdMap.get?_insert ..).trans (if_neg ht)

theorem Waits.mem_reach (h : s.Waits) :
    ⟨d, t⟩ ∈ (s.reach b cost).frontier ↔ t = b ∧ d = cost ∨ t ≠ b ∧ ⟨d, t⟩ ∈ s.frontier := by
  have hpair : (⟨d, t⟩ : KeyPair UInt32 TypeName) = ⟨cost, b⟩ ↔ t = b ∧ d = cost := by
    rw [KeyPair.mk.injEq, and_comm]
  unfold Reached.reach
  cases hb : s.dist.get? b with
  | none =>
    simp only [OrdSet.mem_insert, hpair]
    refine or_congr_right ⟨fun hmem => ⟨?_, hmem⟩, And.right⟩
    rintro rfl
    cases hb.symm.trans ((h _ _).mp hmem).1
  | some old =>
    simp only [OrdSet.mem_insert, OrdSet.mem_erase, hpair]
    refine or_congr_right ⟨?_, ?_⟩
    · rintro ⟨hne, hmem⟩
      refine ⟨?_, hmem⟩
      rintro rfl
      obtain rfl := Option.some.inj (hb.symm.trans ((h _ _).mp hmem).1)
      exact hne rfl
    · rintro ⟨hne, hmem⟩
      exact ⟨fun heq => hne (congrArg KeyPair.second heq), hmem⟩

/-- A type that takes an offer waits under the weight offered, and no longer under another one. -/
theorem Waits.reachVia (h : s.Waits) (hb : b ∉ s.settled) : (s.reachVia b a cost).Waits := fun t d => by
  show ⟨d, t⟩ ∈ (s.reach b cost).frontier ↔ (s.reachVia b a cost).dist.get? t = some d ∧ t ∉ s.settled
  rw [h.mem_reach, dist_reachVia]
  by_cases ht : t = b
  · subst ht
    simp only [true_and, ne_eq, not_true, false_and, or_false, if_true, hb, not_false_iff, and_true]
    exact ⟨fun heq => heq ▸ rfl, fun heq => (Option.some.inj heq).symm⟩
  · simp only [ht, false_and, ne_eq, not_false_iff, true_and, false_or, if_false, h t d]

/-- Taking an offer changes nothing of the types that are settled. -/
theorem settled_reachVia_iff (hb : b ∉ s.settled) :
    (s.reachVia b a cost).Settled t d ↔ s.Settled t d := by
  refine and_congr_right fun ht => ?_
  have hne : t ≠ b := fun heq => hb (heq ▸ ht)
  rw [dist_reachVia_ne hne]

/-- An offer that is not taken is no better than what there is. -/
theorem le_of_not_isBetter (hd : s.dist.get? b = some d)
    (h : ¬ s.isBetter b a cost = true) :
    d.toNat < cost.toNat ∨
      d.toNat = cost.toNat ∧ ∀ p, s.prev.get? b = some p → (compare a p).isLT = false := by
  unfold Reached.isBetter at h
  rw [hd] at h
  simp only [Bool.or_eq_true, Bool.and_eq_true, decide_eq_true_eq, beq_iff_eq, not_or,
    not_and] at h
  obtain ⟨hle, htie⟩ := h
  have hle' : d.toNat ≤ cost.toNat := UInt32.le_iff_toNat_le.mp (UInt32.not_lt.mp hle)
  rcases Nat.lt_or_eq_of_le hle' with hlt | heq
  · exact Or.inl hlt
  · refine Or.inr ⟨heq, fun p hp => ?_⟩
    have hnone := htie (UInt32.toNat_inj.mp heq.symm)
    rw [hp] at hnone
    exact Bool.eq_false_iff.mpr hnone

/-- An offer that is taken is better than what there was. -/
theorem le_of_isBetter (hd : s.dist.get? b = some d)
    (h : s.isBetter b a cost = true) :
    cost.toNat < d.toNat ∨
      cost.toNat = d.toNat ∧ ∃ p, s.prev.get? b = some p ∧ compare a p = .lt := by
  unfold Reached.isBetter at h
  rw [hd] at h
  simp only [Bool.or_eq_true, Bool.and_eq_true, decide_eq_true_eq, beq_iff_eq,
    Option.any_eq_true] at h
  rcases h with hlt | ⟨rfl, p, hp, hcmp⟩
  · exact Or.inl (UInt32.lt_iff_toNat_lt.mp hlt)
  · exact Or.inr ⟨rfl, p, hp, Ordering.isLT_iff_eq_lt.mp hcmp⟩

/-- An offer that is taken beats all that was beaten by what was there before. -/
theorem Beats.reachVia {x : TypeName} {n : Nat}
    (hbetter : s.isBetter b a cost = true) (h : s.Beats b x n) :
    (s.reachVia b a cost).Beats b x n := by
  obtain ⟨d, hd, hle⟩ := h
  refine ⟨cost, dist_reachVia_self, ?_⟩
  rcases le_of_isBetter hd hbetter with hlt | ⟨heq, p, hp, hcmp⟩
  · rcases hle with hle | ⟨hle, -⟩
    · exact Or.inl (by omega)
    · exact Or.inl (by omega)
  · rcases hle with hle | ⟨hle, p', hp', hcmp'⟩
    · exact Or.inl (by omega)
    · obtain rfl := Option.some.inj (hp.symm.trans hp')
      refine Or.inr ⟨by omega, a, prev_reachVia_self, Bool.eq_false_iff.mpr fun hlt => ?_⟩
      have hxp : compare x p = .lt := TransCmp.lt_trans (Ordering.isLT_iff_eq_lt.mp hlt) hcmp
      rw [hxp] at hcmp'
      exact nomatch hcmp'

end Reached

namespace Search

variable {q : Search} {s : Reached} {pending : List (TypeName × TypeName)}

/-- The search is at `a`, the last type settled, and goes on from it. -/
structure Expanding (q : Search) (a : TypeName) (c : UInt32) (s : Reached) : Prop where
  settled : s.Settled a c
  most : ∀ {x d}, s.Settled x d → d.toNat ≤ c.toNat
  expands : q.expands a = true
  goesOn : q.target ≠ some a

/-- A settled weight and the weight of a hop to a type that is not settled add up to a word, since the hop
makes a walk without repeats longer. -/
theorem Explored.sum_fits (hm : q.graph.Measured) (h : q.Explored pending s) {a b : TypeName}
    {c : UInt32} {e : Edge} (ha : s.Settled a c) (hop : q.Hop a b e) (hb : b ∉ s.settled) :
    c.toNat + e.weight.toNat < UInt32.size := by
  obtain ⟨l, hwalk, -, hnodup, hall⟩ := h.exists_walk hm ha.2
  have hnew : b ∉ l := by
    intro hmem
    obtain ⟨-, -, rfl | ⟨hin, -⟩⟩ := hall b hmem
    · exact hb ha.1
    · exact hb hin
  obtain ⟨hwalks, hcost⟩ := (hwalk.hop hop).walks
  rw [← hcost]
  exact hm.fits hwalks (hnodup.append (List.nodup_singleton b) (List.disjoint_singleton.mpr hnew))

/-- The sum of a settled weight and the weight of a hop to a type that is not settled is exact. -/
theorem Explored.add_exact (hm : q.graph.Measured) (h : q.Explored pending s) {a b : TypeName}
    {c : UInt32} {e : Edge} (ha : s.Settled a c) (hop : q.Hop a b e) (hb : b ∉ s.settled) :
    (saturatingAdd c e.weight).toNat = c.toNat + e.weight.toNat := by
  have hfits := h.sum_fits hm ha hop hb
  unfold saturatingAdd
  rw [if_pos hfits]
  exact FlowGraph.toNat_add_eq hfits

/-- After an offer has been taken, no hop is better than what its other end has, but for those that are
still pending. -/
theorem Explored.relaxed_reachVia {a b : TypeName} {c cost : UInt32} {e : Edge}
    (h : q.Explored ((a, b) :: pending) s) (ha : q.Expanding a c s) (hop : q.Hop a b e)
    (hcost : cost.toNat = c.toNat + e.weight.toNat) (hbetter : s.isBetter b a cost = true)
    {x y : TypeName} {m : UInt32} {f : Edge} (hx : s.Settled x m) (hopx : q.Hop x y f)
    (hpend : (x, y) ∉ pending) :
    (s.reachVia b a cost).Beats y x (m.toNat + f.weight.toNat) := by
  by_cases hxy : (x, y) = (a, b)
  · -- the hop that is offered now
    cases hxy
    obtain rfl := Option.some.inj (hx.2.symm.trans ha.settled.2)
    obtain rfl := Option.some.inj (hopx.arc.symm.trans hop.arc)
    have hrefl : (compare a a).isLT = false := by
      have heq : compare a a = .eq := ReflCmp.compare_self
      rw [heq]
      rfl
    exact ⟨cost, Reached.dist_reachVia_self, Or.inr ⟨hcost, a, Reached.prev_reachVia_self, hrefl⟩⟩
  · -- a hop that was offered before
    have hold := h.relaxed hx hopx fun hmem => (List.mem_cons.mp hmem).elim hxy hpend
    by_cases hyb : y = b
    · subst hyb
      exact hold.reachVia hbetter
    · obtain ⟨d, hd, hle⟩ := hold
      refine ⟨d, (Reached.dist_reachVia_ne hyb).trans hd, ?_⟩
      rw [Reached.prev_reachVia_ne hyb]
      exact hle

/-- **An offer that is taken** keeps what the search has found, but for the weight and the type
before the one type it is made to. -/
theorem Explored.take (hm : q.graph.Measured) {a b : TypeName} {c cost : UInt32} {e : Edge}
    (h : q.Explored ((a, b) :: pending) s) (ha : q.Expanding a c s) (hop : q.Hop a b e)
    (hb : b ∉ s.settled) (hcost : cost.toNat = c.toNat + e.weight.toNat)
    (hbetter : s.isBetter b a cost = true) : q.Explored pending (s.reachVia b a cost) := by
  have hpos := hm.positive hop.arc
  have hsource : q.source ≠ b := by
    rintro rfl
    have hzero : (0 : UInt32).toNat = 0 := rfl
    rcases Reached.le_of_isBetter h.source hbetter with hlt | ⟨heq, -⟩ <;> omega
  refine ⟨?_, ?_, fun {t} ht => ?_, fun {t d} => h.waits.reachVia hb t d, fun {x y m n} hx hy hout => ?_,
    fun {t d} ht hnot => ?_, fun {x y m f} hx hopx hpend => ?_⟩
  · rw [Reached.dist_reachVia_ne hsource]
    exact h.source
  · rw [Reached.prev_reachVia_ne hsource]
    exact h.unled
  · obtain ⟨d, hd⟩ := h.settled ht
    exact ⟨d, ((Reached.settled_reachVia_iff hb).mpr ⟨ht, hd⟩).2⟩
  · rw [Reached.settled_reachVia_iff hb] at hx
    by_cases hyb : y = b
    · subst hyb
      obtain rfl := Option.some.inj (hy.symm.trans Reached.dist_reachVia_self)
      have hle := ha.most hx
      omega
    · rw [Reached.dist_reachVia_ne hyb] at hy
      exact h.ordered hx hy hout
  · by_cases htb : t = b
    · subst htb
      obtain rfl := Option.some.inj (ht.symm.trans Reached.dist_reachVia_self)
      exact ⟨a, c, e, Reached.prev_reachVia_self, (Reached.settled_reachVia_iff hb).mpr ha.settled,
        hop, hcost⟩
    · rw [Reached.dist_reachVia_ne htb] at ht
      obtain ⟨p, m, f, hp, hset, hopf, hsum⟩ := h.led ht hnot
      exact ⟨p, m, f, (Reached.prev_reachVia_ne htb).trans hp,
        (Reached.settled_reachVia_iff hb).mpr hset, hopf, hsum⟩
  · rw [Reached.settled_reachVia_iff hb] at hx
    exact h.relaxed_reachVia ha hop hcost hbetter hx hopx hpend

theorem Explored.discharge {a b : TypeName} (h : q.Explored ((a, b) :: pending) s)
    (hb : ∀ {c e}, s.Settled a c → q.Hop a b e → s.Beats b a (c.toNat + e.weight.toNat)) :
    q.Explored pending s where
  source := h.source
  unled := h.unled
  settled := h.settled
  frontier := h.frontier
  ordered := h.ordered
  led := h.led
  relaxed {x y m f} hx hop hpend := by
    by_cases hxy : (x, y) = (a, b)
    · cases hxy
      exact hb hx hop
    · exact h.relaxed hx hop fun hmem => (List.mem_cons.mp hmem).elim hxy hpend

theorem settled_offer (s : Reached) (b a : TypeName) (cost : UInt32) :
    (s.offer b a cost).settled = s.settled := by
  unfold Reached.offer
  split <;> rfl

theorem Expanding.offer {a b : TypeName} {c : UInt32} (ha : q.Expanding a c s) (hb : b ∉ s.settled)
    (cost : UInt32) : q.Expanding a c (s.offer b a cost) := by
  have hsettled {t : TypeName} {d : UInt32} : (s.offer b a cost).Settled t d ↔ s.Settled t d := by
    unfold Reached.offer
    split
    · exact Reached.settled_reachVia_iff hb
    · rfl
  exact ⟨hsettled.mpr ha.settled, fun hx => ha.most (hsettled.mp hx), ha.expands, ha.goesOn⟩

/-- **An offer**, made where the search may hop, and taken where it is better. -/
theorem Explored.offer (hm : q.graph.Measured) {a b : TypeName} {c : UInt32} {e : Edge}
    (h : q.Explored ((a, b) :: pending) s) (ha : q.Expanding a c s) (hop : q.Hop a b e)
    (hb : b ∉ s.settled) : q.Explored pending (s.offer b a (saturatingAdd c e.weight)) := by
  have hcost := h.add_exact hm ha.settled hop hb
  unfold Reached.offer
  by_cases hbetter : s.isBetter b a (saturatingAdd c e.weight) = true
  · rw [if_pos hbetter]
    exact h.take hm ha hop hb hcost hbetter
  · rw [if_neg hbetter]
    refine h.discharge fun {c' e'} hset hop' => ?_
    obtain rfl := Option.some.inj (hset.2.symm.trans ha.settled.2)
    obtain rfl := Option.some.inj (hop'.arc.symm.trans hop.arc)
    rw [← hcost]
    cases hd : s.dist.get? b with
    | none =>
      unfold Reached.isBetter at hbetter
      rw [hd] at hbetter
      exact absurd rfl hbetter
    | some d =>
      refine ⟨d, hd, ?_⟩
      rcases Reached.le_of_not_isBetter hd hbetter with hlt | ⟨heq, hprev⟩
      · exact Or.inl hlt
      · have hpos := hm.positive hop'.arc
        have hsource : b ≠ q.source := by
          rintro rfl
          obtain rfl := Option.some.inj (hd.symm.trans h.source)
          have hzero : (0 : UInt32).toNat = 0 := rfl
          omega
        obtain ⟨p, -, -, hp, -⟩ := h.led hd hsource
        exact Or.inr ⟨heq, p, hp, hprev p hp⟩

/-- What one neighbour is offered. -/
def visit (q : Search) (a : TypeName) (c : UInt32) (s : Reached) (hop : TypeName × Edge) : Reached :=
  if q.mayHop s a hop.1 then s.offer hop.1 a (saturatingAdd c hop.2.weight) else s

/-- Offers settle nothing. -/
theorem settled_visit (q : Search) (a : TypeName) (c : UInt32) (s : Reached) (hop : TypeName × Edge) :
    (q.visit a c s hop).settled = s.settled := by
  unfold Search.visit
  split
  · exact settled_offer s hop.1 a _
  · rfl

theorem settled_offerAll (q : Search) (s : Reached) (a : TypeName) (c : UInt32) :
    (q.offerAll s a c).settled = s.settled := by
  show ((q.graph.neighbors q.orientation a).foldl (q.visit a c) s).settled = s.settled
  generalize q.graph.neighbors q.orientation a = hops
  induction hops generalizing s with
  | nil => rfl
  | cons hop hops ih => exact (ih (q.visit a c s hop)).trans (settled_visit q a c s hop)

theorem mayHop_iff {a b : TypeName} :
    q.mayHop s a b = true ↔ b ∉ s.settled ∧ b ∉ q.excludedTypes ∧ (a, b) ∉ q.excludedHops := by
  unfold mayHop
  simp only [Bool.and_eq_true, Bool.not_eq_true', ← Bool.not_eq_true, OrdSet.contains_eq_true_iff,
    List.contains_iff_mem, and_assoc]

theorem Explored.visit (hm : q.graph.Measured) {a : TypeName} {c : UInt32} {hop : TypeName × Edge}
    (h : q.Explored ((a, hop.1) :: pending) s) (ha : q.Expanding a c s)
    (harc : q.graph.arc? q.orientation a hop.1 = some hop.2) :
    q.Explored pending (q.visit a c s hop) ∧ q.Expanding a c (q.visit a c s hop) := by
  unfold Search.visit
  by_cases hmay : q.mayHop s a hop.1 = true
  · obtain ⟨hnew, hentered, hmade⟩ := mayHop_iff.mp hmay
    rw [if_pos hmay]
    exact ⟨h.offer hm ha ⟨harc, hentered, hmade, ha.expands, ha.goesOn⟩ hnew, ha.offer hnew _⟩
  · rw [if_neg hmay]
    refine ⟨h.discharge fun {c' e'} hset hop' => ?_, ha⟩
    have hold : hop.1 ∈ s.settled := by
      by_contra hnew
      exact hmay (mayHop_iff.mpr ⟨hnew, hop'.entered, hop'.made⟩)
    obtain ⟨d, hd⟩ := h.settled hold
    obtain rfl := Option.some.inj (hset.2.symm.trans ha.settled.2)
    have hle := ha.most ⟨hold, hd⟩
    have hpos := hm.positive hop'.arc
    exact ⟨d, hd, Or.inl (by omega)⟩

theorem Explored.visitAll (hm : q.graph.Measured) {a : TypeName} {c : UInt32} :
    ∀ {hops : List (TypeName × Edge)} {s : Reached},
      (∀ hop ∈ hops, q.graph.arc? q.orientation a hop.1 = some hop.2) →
      q.Explored (hops.map fun hop => (a, hop.1)) s → q.Expanding a c s →
      q.Explored [] (hops.foldl (q.visit a c) s)
  | [], _, _, h, _ => h
  | hop :: hops, s, harcs, h, ha => by
    obtain ⟨h', ha'⟩ := h.visit hm ha (harcs hop List.mem_cons_self)
    rw [List.foldl_cons]
    exact visitAll hm (fun x hx => harcs x (List.mem_cons_of_mem hop hx)) h' ha'

/-- **Offering all hops of the last type settled** leaves none pending. -/
theorem Explored.offerAll (hm : q.graph.Measured) {a : TypeName} {c : UInt32}
    (h : q.Explored (q.hopsFrom a) s) (ha : q.Expanding a c s) : q.Explored [] (q.offerAll s a c) :=
  Explored.visitAll hm (fun _ hhop => FlowGraph.mem_neighbors.mp hhop) h ha

end Search

end PolicyReach
