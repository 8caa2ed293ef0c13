import Mathlib.Order.Bounds.Basic
import PolicyReach.Proofs.Flow.ShortestPath

/-!
# Ties between walks are broken by name

Of several lightest walks to a type a search finds one, and which one depends on the names alone: going
back from the type, it is always the least of the types that may stand before the last one.

An offer that is as light as what a type has takes its place when it comes from a lesser name. As weights
are positive, all types that may stand before a type on a lightest walk are settled before it is: they
have all made their offers by then, and the least of them is left.

* `Before.unique`: at most one type is the least of those that may stand before another;
* **`Explored.before`**: when nothing waits, that is the type which the search has on record;
* `Chain.backwards`, `Backwards.chain`: so walking back along the records is choosing the least type;
* **`run_tiesByName`**: a search without a target finds the types that admissible walks reach, what they
  weigh, and the walks that are chosen so.
-/

namespace PolicyReach

open Std

namespace Search

variable {q : Search} {s : Reached} {l : List TypeName} {t a b : TypeName} {d : UInt32}

/-! ## The least type before another -/

/-- `a` may stand before `t`: the search may hop from it to `t`, and comes to `t` at its weight. -/
def MayPrecede (q : Search) (s : Reached) (a t : TypeName) : Prop :=
  ∃ c d e, s.dist.get? a = some c ∧ s.dist.get? t = some d ∧ q.Hop a t e ∧
    c.toNat + e.weight.toNat = d.toNat

/-- `a` is the least of the types that may stand before `t`. -/
structure Before (q : Search) (s : Reached) (a t : TypeName) : Prop where
  may : q.MayPrecede s a t
  least : ∀ {b}, q.MayPrecede s b t → (compare a b).isLE = true

theorem Before.unique (ha : q.Before s a t) (hb : q.Before s b t) : a = b :=
  LawfulEqOrd.eq_of_compare (OrientedCmp.isLE_antisymm (ha.least hb.may) (hb.least ha.may))

/-- Nothing may stand before the source, which weighs nothing. -/
theorem MayPrecede.ne_source (hm : q.graph.Measured) (h : q.Explored [] s)
    (hmay : q.MayPrecede s a t) : t ≠ q.source := by
  rintro rfl
  obtain ⟨c, d, e, -, hd, hop, hsum⟩ := hmay
  obtain rfl := Option.some.inj (hd.symm.trans h.source)
  have hpos := hm.positive hop.arc
  have hzero : (0 : UInt32).toNat = 0 := rfl
  omega

/-- **The least type that may stand before a type is the one on record**, when all that has been reached
is settled: then no hop is better than what its other end has. -/
theorem Explored.before (h : q.Explored [] s)
    (hall : ∀ t d, s.dist.get? t = some d → t ∈ s.settled) (hd : s.dist.get? t = some d)
    (hne : t ≠ q.source) : ∃ a, s.prev.get? t = some a ∧ q.Before s a t := by
  obtain ⟨a, c, e, hprev, ha, hop, hsum⟩ := h.led hd hne
  refine ⟨a, hprev, ⟨c, d, e, ha.2, hd, hop, hsum.symm⟩, fun {b} hb => ?_⟩
  obtain ⟨c', d', f, hc', hd', hopf, hsum'⟩ := hb
  obtain rfl := Option.some.inj (hd'.symm.trans hd)
  obtain ⟨x, hx, hbeats⟩ := h.relaxed ⟨hall b c' hc', hc'⟩ hopf List.not_mem_nil
  obtain rfl := Option.some.inj (hx.symm.trans hd)
  rcases hbeats with hlt | ⟨-, p, hp, hnot⟩
  · omega
  · obtain rfl := Option.some.inj (hp.symm.trans hprev)
    rw [← OrientedCmp.isGE_iff_isLE, Ordering.isGE_iff_ne_lt, ← Ordering.isLT_iff_eq_lt, hnot]
    exact Bool.false_ne_true

/-! ## Walking back -/

/-- The walk that goes back from `t` to the source, by the least type before another at every step. -/
inductive Backwards (q : Search) (s : Reached) : List TypeName → TypeName → Prop
  | source : Backwards q s [q.source] q.source
  | step {l : List TypeName} {a t : TypeName} (walk : Backwards q s l a) (before : q.Before s a t) :
      Backwards q s (l ++ [t]) t

theorem Backwards.reached (h : q.Explored [] s) (hl : q.Backwards s l t) :
    ∃ d, s.dist.get? t = some d := by
  cases hl with
  | source => exact ⟨0, h.source⟩
  | step walk before =>
    obtain ⟨-, d, -, -, hd, -⟩ := before.may
    exact ⟨d, hd⟩

/-- There is one way back from a type at most. -/
theorem Backwards.unique (hm : q.graph.Measured) (h : q.Explored [] s) (hl : q.Backwards s l t) :
    ∀ {l'}, q.Backwards s l' t → l = l' := by
  induction hl with
  | source =>
    intro l' hl'
    cases hl' with
    | source => rfl
    | step _ before => exact absurd rfl (before.may.ne_source hm h)
  | step _ before ih =>
    intro l' hl'
    cases hl' with
    | source => exact absurd rfl (before.may.ne_source hm h)
    | step walk' before' =>
      obtain rfl := before.unique before'
      rw [ih walk']

/-- A chain of reached types is the way back. -/
theorem Explored.backwards (h : q.Explored [] s)
    (hall : ∀ t d, s.dist.get? t = some d → t ∈ s.settled) (hl : s.Chain q.source l t)
    (hreached : ∀ x ∈ l, ∃ d, s.dist.get? x = some d) : q.Backwards s l t := by
  induction hl with
  | source => exact .source
  | @step l a t chain prev ih =>
    obtain ⟨d, hd⟩ := hreached t (List.mem_append_right _ List.mem_cons_self)
    have hne : t ≠ q.source := fun heq => nomatch (heq ▸ prev).symm.trans h.unled
    obtain ⟨p, hp, hbefore⟩ := h.before hall hd hne
    obtain rfl := Option.some.inj (hp.symm.trans prev)
    exact (ih fun x hx => hreached x (List.mem_append_left _ hx)).step hbefore

/-! ## What a search finds -/

/-- What admissible walks to `t` cost. -/
def costs (q : Search) (t : TypeName) : Set Nat :=
  {n | ∃ l, q.Admissible l t ∧ q.graph.cost q.orientation l = n}

/-- **What a search finds, with ties broken by name**: the types that admissible walks reach, each at the
least cost; before each the least type that may stand there; and the walk that is chosen so, the steps
back along which end at the source. -/
structure TiesByName (q : Search) (s : Reached) : Prop where
  reached : ∀ t, s.dist.contains t = true ↔ ∃ l, q.Admissible l t
  lightest : ∀ t d, s.dist.get? t = some d → IsLeast (q.costs t) d.toNat
  unled : s.prev.get? q.source = none
  before : ∀ t, s.dist.contains t = true → t ≠ q.source →
    ∃ a, s.prev.get? t = some a ∧ q.Before s a t
  backwards : ∀ t, s.dist.contains t = true → ∃! l, q.Backwards s l t
  walk : ∀ t l, s.walkTo? t = some l ↔ q.Backwards s l t
  simple : ∀ t l, s.walkTo? t = some l →
    l.Nodup ∧ q.Admissible l t ∧ IsLeast (q.costs t) (q.graph.cost q.orientation l)
  /-- Walking back is over within the steps it is given: more of them change nothing. -/
  ended : ∀ t fuel, s.dist.contains t = true → s.prev.size ≤ fuel →
    s.walkBack fuel t [t] = s.walkBack s.prev.size t [t]

theorem run_of_no_target (htarget : q.target = none) : q.run = q.finished := by
  unfold run finished
  rw [htarget]
  rfl

theorem Done.all (htarget : q.target = none) (h : q.Done s) :
    ∀ t d, s.dist.get? t = some d → t ∈ s.settled :=
  h.resolve_right fun ⟨_, _, hsome, _⟩ => nomatch htarget.symm.trans hsome

/-- A settled type has its weight from an admissible walk, and there is none lighter. -/
theorem isLeast_of_settled (hg : q.graph.Closed) (hm : q.graph.Measured) (htarget : q.target = none)
    (hd : q.finished.Settled t d) : IsLeast (q.costs t) d.toNat := by
  obtain ⟨l, -, hnodup, -, hwalk⟩ := exists_chain hg hm hd
  refine ⟨⟨l, hwalk.admissible hnodup, hwalk.walks.2⟩, ?_⟩
  rintro n ⟨l', hl', rfl⟩
  obtain ⟨d', hd', hle⟩ := settled_of_walk hg hm (Or.inl htarget) (hl'.walk htarget)
  obtain rfl := Option.some.inj (hd'.2.symm.trans hd.2)
  exact hle

/-- The way back from a type that is reached is a lightest walk, and walking back takes it. -/
theorem exists_backwards (hg : q.graph.Closed) (hm : q.graph.Measured) (htarget : q.target = none)
    (hd : q.finished.Settled t d) :
    ∃ l, q.Backwards q.run l t ∧ q.run.walkTo? t = some l ∧
      (∀ fuel, q.run.prev.size ≤ fuel → q.run.walkBack fuel t [t] = l) ∧
      l.Nodup ∧ q.Admissible l t ∧ q.graph.cost q.orientation l = d.toNat := by
  obtain ⟨h, hdone⟩ := run_explored hg hm
  obtain ⟨l, hchain, hnodup, hin, hwalk⟩ := exists_chain hg hm hd
  have hwalkTo := walkTo?_of_chain hg hm hd hchain hnodup hin
  rw [run_of_no_target htarget] at hwalkTo ⊢
  refine ⟨l, ?_, hwalkTo, fun fuel hfuel => ?_, hnodup, hwalk.admissible hnodup, hwalk.walks.2⟩
  · exact h.backwards (hdone.all htarget) hchain fun x hx => h.settled (hin x hx)
  · have hlen := hchain.length_le hnodup
    rw [hchain.walkBack_eq h.unled (by omega), List.append_nil]

/-- **A search without a target breaks ties by name**, in every graph whose weights are positive and whose
sums of weights on walks without repeats fit a word. -/
theorem run_tiesByName (q : Search) (hg : q.graph.Closed) (hm : q.graph.Measured)
    (htarget : q.target = none) : q.TiesByName q.run := by
  obtain ⟨h, hdone⟩ := run_explored hg hm
  have hrun := run_of_no_target htarget
  have hexplored : q.Explored [] q.run := hrun ▸ h
  have hall : ∀ t d, q.run.dist.get? t = some d → t ∈ q.run.settled := hrun ▸ hdone.all htarget
  have hsettled {t : TypeName} (ht : q.run.dist.contains t = true) :
      ∃ d, q.finished.Settled t d := by
    obtain ⟨d, hd⟩ := Option.isSome_iff_exists.mp ht
    exact ⟨d, (run_dist hg hm).mp hd⟩
  have hread {t : TypeName} {l : List TypeName} (hl : q.run.walkTo? t = some l) :
      q.run.dist.contains t = true :=
    (Option.ite_none_right_eq_some.mp hl).1
  constructor
  case reached =>
    intro t
    constructor
    · intro ht
      obtain ⟨d, hd⟩ := hsettled ht
      obtain ⟨⟨l, hl, -⟩, -⟩ := isLeast_of_settled hg hm htarget hd
      exact ⟨l, hl⟩
    · rintro ⟨l, hl⟩
      obtain ⟨d, hd, -⟩ := settled_of_walk hg hm (Or.inl htarget) (hl.walk htarget)
      exact Option.isSome_iff_exists.mpr ⟨d, (run_dist hg hm).mpr hd⟩
  case lightest =>
    intro t d hd
    exact isLeast_of_settled hg hm htarget ((run_dist hg hm).mp hd)
  case unled => exact hexplored.unled
  case before =>
    intro t ht hne
    obtain ⟨d, hd⟩ := Option.isSome_iff_exists.mp ht
    exact hexplored.before hall hd hne
  case backwards =>
    intro t ht
    obtain ⟨d, hd⟩ := hsettled ht
    obtain ⟨l, hl, -⟩ := exists_backwards hg hm htarget hd
    exact ⟨l, hl, fun l' hl' => hl'.unique hm hexplored hl⟩
  case walk =>
    intro t l
    constructor
    · intro hl
      obtain ⟨d, hd⟩ := hsettled (hread hl)
      obtain ⟨l', hback, hl', -⟩ := exists_backwards hg hm htarget hd
      obtain rfl := Option.some.inj (hl'.symm.trans hl)
      exact hback
    · intro hl
      obtain ⟨d, hd⟩ := hl.reached hexplored
      obtain ⟨l', hback, hl', -⟩ := exists_backwards hg hm htarget ((run_dist hg hm).mp hd)
      obtain rfl := hl.unique hm hexplored hback
      exact hl'
  case simple =>
    intro t l hl
    obtain ⟨d, hd⟩ := hsettled (hread hl)
    obtain ⟨l', -, hl', -, hnodup, hadmissible, hcost⟩ := exists_backwards hg hm htarget hd
    obtain rfl := Option.some.inj (hl'.symm.trans hl)
    exact ⟨hnodup, hadmissible, hcost ▸ isLeast_of_settled hg hm htarget hd⟩
  case ended =>
    intro t fuel ht hfuel
    obtain ⟨d, hd⟩ := hsettled ht
    obtain ⟨l, -, -, hwalkBack, -⟩ := exists_backwards hg hm htarget hd
    rw [hwalkBack fuel hfuel, hwalkBack _ (Nat.le_refl _)]

/-- From `a` to `d`: over `b` (3 and 3), over `c` (2 and 4), and at once (9). -/
def diamond : Search where
  graph := (FlowGraph.empty ⟨∅, .transitive .fromStart, none⟩).insertEdges
    [.single ⟨"a"⟩ ⟨"b"⟩ 3 ⟨0⟩, .single ⟨"b"⟩ ⟨"d"⟩ 3 ⟨1⟩, .single ⟨"a"⟩ ⟨"c"⟩ 2 ⟨2⟩,
      .single ⟨"c"⟩ ⟨"d"⟩ 4 ⟨3⟩, .single ⟨"a"⟩ ⟨"d"⟩ 9 ⟨4⟩]
  orientation := .forward
  source := ⟨"a"⟩

theorem diamond_sound : diamond.graph.Sound :=
  (FlowGraph.sound_empty _).insertEdges (by decide +kernel)

theorem diamond_measured : diamond.graph.Measured := by
  have hweights : ∀ e ∈ diamond.graph.edges, InRange e.weight := by
    unfold InRange
    decide +kernel
  refine FlowGraph.measured_of_inRange diamond_sound (fun he => ?_) (by decide +kernel)
  exact hweights _ (diamond_sound.arc_mem_edges he)

/-- Both walks weigh 6, and `b` comes before `c`. -/
example : diamond.run.walkTo? ⟨"d"⟩ = some [⟨"a"⟩, ⟨"b"⟩, ⟨"d"⟩] := by
  decide +kernel

theorem diamond_tiesByName : diamond.graph.Closed ∧ diamond.graph.Measured ∧ diamond.target = none ∧
    diamond.TiesByName diamond.run :=
  ⟨diamond_sound.closed, diamond_measured, rfl,
    run_tiesByName diamond diamond_sound.closed diamond_measured rfl⟩

end Search

end PolicyReach
