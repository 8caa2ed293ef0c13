import PolicyReach.Proofs.Flow.Exploration

/-!
# Lightest walks are found

The loop of a search settles a type in every round, so that it runs its course within its fuel
(`Explored.settleAll`). What is read off it then are lightest walks.

* **`run_explored`**: a search ends with nothing waiting, or with its target settled;
* **`walkTo?_eq_some`**: what is read off it is a lightest walk, without repeats;
* **`exists_walkTo?`**: a walk is read off wherever there is one.
-/

namespace PolicyReach

namespace Search

variable {q : Search} {s : Reached} {pending : List (TypeName × TypeName)}

/-! ## The loop -/

/-- Where the search does not go on from a type, none of its hops is pending. -/
theorem Explored.drop {a : TypeName} (h : q.Explored (q.hopsFrom a) s)
    (ha : q.expands a = false ∨ q.target = some a) : q.Explored [] s where
  source := h.source
  unled := h.unled
  settled := h.settled
  frontier := h.frontier
  ordered := h.ordered
  led := h.led
  relaxed {x y m e} hx hop _ := by
    refine h.relaxed hx hop fun hmem => ?_
    obtain ⟨other, -, heq⟩ := List.mem_map.mp hmem
    obtain rfl : a = x := congrArg Prod.fst heq
    rcases ha with hexp | htarget
    · exact nomatch hexp.symm.trans hop.expands
    · exact hop.goesOn htarget

/-- What the search is after settling a type. -/
def settleOne (q : Search) (s : Reached) (t : TypeName) (c : UInt32) : Reached :=
  if q.target = some t then s.settle t c
  else if q.expands t then q.offerAll (s.settle t c) t c else s.settle t c

theorem settleAll_of_none (q : Search) (fuel : Nat) (h : s.lightest? = none) :
    q.settleAll fuel s = s := by
  cases fuel with
  | zero => rfl
  | succ fuel => rw [Search.settleAll, h]

theorem settleAll_of_target {fuel : Nat} {t : TypeName} {c : UInt32} (h : s.lightest? = some (t, c))
    (htarget : q.target = some t) : q.settleAll (fuel + 1) s = q.settleOne s t c := by
  rw [Search.settleAll, h]
  simp only [Search.settleOne, if_pos htarget]

theorem settleAll_of_some {fuel : Nat} {t : TypeName} {c : UInt32} (h : s.lightest? = some (t, c))
    (htarget : q.target ≠ some t) :
    q.settleAll (fuel + 1) s = q.settleAll fuel (q.settleOne s t c) := by
  rw [Search.settleAll, h]
  simp only [Search.settleOne, if_neg htarget]

theorem settled_settleOne (q : Search) (s : Reached) (t : TypeName) (c : UInt32) :
    (q.settleOne s t c).settled = s.settled.insert t := by
  unfold Search.settleOne
  split_ifs
  · rfl
  · exact settled_offerAll q (s.settle t c) t c
  · rfl

/-- The type that is settled is the last one, and none settled before is heavier. -/
theorem Explored.expanding (h : q.Explored [] s) {t : TypeName} {c : UInt32}
    (ht : s.lightest? = some (t, c)) (hexp : q.expands t = true) (htarget : q.target ≠ some t) :
    q.Expanding t c (s.settle t c) := by
  obtain ⟨hmem, -⟩ := lightest?_eq_some ht
  obtain ⟨hdist, hnew⟩ := h.frontier.mp hmem
  refine ⟨⟨OrdSet.mem_insert.mpr (Or.inl rfl), hdist⟩, fun {x d} hx => ?_, hexp, htarget⟩
  rcases OrdSet.mem_insert.mp hx.1 with rfl | hold
  · obtain rfl := Option.some.inj (hx.2.symm.trans hdist)
    exact Nat.le_refl _
  · exact h.ordered ⟨hold, hx.2⟩ hdist hnew

/-- **One round of the loop.** -/
theorem Explored.settleOne (hm : q.graph.Measured) (h : q.Explored [] s) {t : TypeName} {c : UInt32}
    (ht : s.lightest? = some (t, c)) : q.Explored [] (q.settleOne s t c) := by
  have hsettle := h.settle ht
  unfold Search.settleOne
  by_cases htarget : q.target = some t
  · rw [if_pos htarget]
    exact hsettle.drop (Or.inr htarget)
  · rw [if_neg htarget]
    by_cases hexp : q.expands t = true
    · rw [if_pos hexp]
      exact hsettle.offerAll hm (h.expanding ht hexp htarget)
    · rw [if_neg hexp]
      exact hsettle.drop (Or.inl (Bool.eq_false_iff.mpr hexp))

/-- The loop has run its course: nothing waits, or the target is settled. -/
def Done (q : Search) (s : Reached) : Prop :=
  (∀ t d, s.dist.get? t = some d → t ∈ s.settled) ∨ ∃ t d, q.target = some t ∧ s.Settled t d

theorem Explored.mem_nodes (hg : q.graph.Closed) (h : q.Explored pending s) {t : TypeName} {d : UInt32}
    (hd : s.dist.get? t = some d) : t ∈ q.source :: q.graph.nodes.toList := by
  by_cases ht : t = q.source
  · exact ht ▸ List.mem_cons_self
  · obtain ⟨a, c, e, -, -, hop, -⟩ := h.led hd ht
    exact List.mem_cons_of_mem _ (OrdSet.mem_toList.mpr (hg hop.arc).2)

/-- While a type is yet to be settled, no more are than there are nodes. -/
theorem size_le_nodeCount {g : FlowGraph} {settled : OrdSet TypeName} {source t : TypeName}
    (hnew : t ∉ settled) (hnodes : ∀ x ∈ settled.insert t, x ∈ source :: g.nodes.toList) :
    settled.size ≤ g.nodeCount := by
  have hle := OrdSet.size_le_length hnodes
  rw [OrdSet.size_insert hnew, List.length_cons, OrdSet.length_toList] at hle
  exact Nat.le_of_succ_le_succ hle

/-- When as many types are settled as there can be, none is waiting. -/
theorem Explored.done_of_size (hg : q.graph.Closed) (h : q.Explored [] s)
    (hsize : q.graph.nodeCount + 1 ≤ s.settled.size) : q.Done s := by
  refine Or.inl fun t d hd => ?_
  by_contra hnew
  have hnodes : ∀ x ∈ s.settled.insert t, x ∈ q.source :: q.graph.nodes.toList := by
    intro x hx
    rcases OrdSet.mem_insert.mp hx with rfl | hx
    · exact h.mem_nodes hg hd
    · obtain ⟨y, hy⟩ := h.settled hx
      exact h.mem_nodes hg hy
  have hle := size_le_nodeCount hnew hnodes
  omega

theorem lightest?_eq_none (h : s.lightest? = none) : ∀ w, w ∉ s.frontier := by
  intro w hw
  have hnone := Option.map_eq_none_iff.mp h
  rw [OrdSet.least?_eq_head?, List.head?_eq_none_iff] at hnone
  have hmem := OrdSet.mem_toList.mpr hw
  rw [hnone] at hmem
  exact nomatch hmem

/-- **The loop runs its course**, as each round settles another type. -/
theorem Explored.settleAll (hg : q.graph.Closed) (hm : q.graph.Measured) :
    ∀ {fuel : Nat} {s : Reached}, q.Explored [] s →
      q.graph.nodeCount + 1 ≤ s.settled.size + fuel →
      q.Explored [] (q.settleAll fuel s) ∧ q.Done (q.settleAll fuel s)
  | 0, _, h, hsize => ⟨h, h.done_of_size hg hsize⟩
  | fuel + 1, s, h, hsize => by
    cases ht : s.lightest? with
    | none =>
      have hempty := lightest?_eq_none ht
      rw [settleAll_of_none q _ ht]
      refine ⟨h, Or.inl fun t d hd => ?_⟩
      by_contra hnew
      exact hempty _ (h.frontier.mpr ⟨hd, hnew⟩)
    | some w =>
      obtain ⟨t, c⟩ := w
      have hone := h.settleOne hm ht
      have hset := settled_settleOne q s t c
      obtain ⟨hdist, hnew⟩ := h.frontier.mp (lightest?_eq_some ht).1
      by_cases htarget : q.target = some t
      · rw [settleAll_of_target ht htarget]
        have hdist' : (q.settleOne s t c).dist.get? t = some c := by
          rw [Search.settleOne, if_pos htarget]
          exact hdist
        exact ⟨hone, Or.inr ⟨t, c, htarget, hset ▸ OrdSet.mem_insert.mpr (Or.inl rfl), hdist'⟩⟩
      · rw [settleAll_of_some ht htarget]
        refine Explored.settleAll hg hm hone ?_
        rw [hset, OrdSet.size_insert hnew]
        omega

/-! ## What is read off a search -/

theorem explored_start (q : Search) : q.Explored [] (Reached.reach {} q.source 0) := by
  have hdist (t : TypeName) : (Reached.reach {} q.source 0).dist.get? t =
      if t = q.source then some 0 else none := by
    refine (OrdMap.get?_insert ..).trans ?_
    split
    · rfl
    · exact OrdMap.get?_empty t
  have hsource {t : TypeName} {d : UInt32} (ht : (Reached.reach {} q.source 0).dist.get? t = some d) :
      t = q.source ∧ d = 0 := by
    rw [hdist] at ht
    split at ht
    · exact ⟨‹_›, (Option.some.inj ht).symm⟩
    · cases ht
  have hout (t : TypeName) : t ∉ (Reached.reach {} q.source 0).settled := OrdSet.not_mem_empty t
  refine ⟨(hdist _).trans (if_pos rfl), OrdMap.get?_empty _, fun ht => absurd ht (hout _), ?_,
    fun ha => absurd ha.1 (hout _), fun ht hne => absurd (hsource ht).1 hne,
    fun ha => absurd ha.1 (hout _)⟩
  intro t d
  have hfrontier : ⟨d, t⟩ ∈ (Reached.reach {} q.source 0).frontier ↔ d = 0 ∧ t = q.source := by
    have hempty : (∅ : OrdMap TypeName UInt32).get? q.source = none := OrdMap.get?_empty _
    unfold Reached.reach
    rw [hempty]
    refine OrdSet.mem_insert.trans ?_
    rw [KeyPair.mk.injEq]
    exact or_iff_left (OrdSet.not_mem_empty _)
  rw [hfrontier]
  constructor
  · rintro ⟨rfl, rfl⟩
    exact ⟨(hdist _).trans (if_pos rfl), hout _⟩
  · exact fun ht => (hsource ht.1).symm

/-- The search when the loop has run its course. -/
def finished (q : Search) : Reached :=
  q.settleAll (q.graph.nodeCount + 1) (Reached.reach {} q.source 0)

/-- **A search ends with nothing waiting, or with its target settled.** -/
theorem run_explored (hg : q.graph.Closed) (hm : q.graph.Measured) :
    q.Explored [] q.finished ∧ q.Done q.finished :=
  (explored_start q).settleAll hg hm (Nat.le_add_left _ _)

/-- What a walk to `t` costs is no less than the weight at which `t` is settled. -/
theorem settled_of_walk (hg : q.graph.Closed) (hm : q.graph.Measured) {t : TypeName}
    (ht : q.target = none ∨ q.target = some t) {l : List TypeName} {n : Nat} (hw : q.Walk l t n) :
    ∃ d, q.finished.Settled t d ∧ d.toNat ≤ n := by
  obtain ⟨h, hdone⟩ := run_explored hg hm
  rcases h.reaches hw with hsettled | ⟨x, d, hx, hnew, hle⟩
  · exact hsettled
  · rcases hdone with hall | ⟨t', c, htarget, hc⟩
    · exact absurd (hall x d hx) hnew
    · obtain rfl : t = t' := by
        rcases ht with hnone | hsome
        · exact nomatch hnone.symm.trans htarget
        · exact Option.some.inj (hsome.symm.trans htarget)
      exact ⟨c, hc, Nat.le_trans (h.ordered hc hx hnew) hle⟩

/-- A search that is read keeps what is settled, and nothing else. -/
theorem run_dist (hg : q.graph.Closed) (hm : q.graph.Measured) {t : TypeName} {d : UInt32} :
    q.run.dist.get? t = some d ↔ q.finished.Settled t d := by
  obtain ⟨h, hdone⟩ := run_explored hg hm
  have hrun : q.run = if q.target.isSome then q.finished.settledOnly else q.finished := rfl
  rw [hrun]
  by_cases htarget : q.target.isSome = true
  · rw [if_pos htarget]
    show (q.finished.dist.filter fun t _ => q.finished.settled.contains t).get? t = some d ↔ _
    rw [OrdMap.get?_filter, Option.filter_eq_some_iff, OrdSet.contains_eq_true_iff, and_comm]
    rfl
  · rw [if_neg htarget]
    refine ⟨fun hd => ⟨?_, hd⟩, fun hd => hd.2⟩
    rcases hdone with hall | ⟨t', c, hsome, -⟩
    · exact hall t d hd
    · rw [hsome] at htarget
      exact absurd rfl htarget

theorem run_prev {t : TypeName} (ht : t ∈ q.finished.settled) :
    q.run.prev.get? t = q.finished.prev.get? t := by
  have hrun : q.run = if q.target.isSome then q.finished.settledOnly else q.finished := rfl
  rw [hrun]
  by_cases htarget : q.target.isSome = true
  · rw [if_pos htarget]
    show (q.finished.prev.filter fun t _ => q.finished.settled.contains t).get? t = _
    rw [OrdMap.get?_filter, OrdSet.contains_eq_true_iff.mpr ht]
    cases q.finished.prev.get? t <;> rfl
  · rw [if_neg htarget]

end Search

namespace Reached

variable {s : Reached} {source t : TypeName} {l : List TypeName}

theorem Chain.head? (h : s.Chain source l t) : l.head? = some source := by
  induction h with
  | source => rfl
  | step chain prev ih =>
    rw [List.head?_append, ih]
    rfl

theorem Chain.ne_nil (h : s.Chain source l t) : l ≠ [] := by
  rintro rfl
  exact nomatch h.head?

theorem Chain.congr {s' : Reached} (h : s.Chain source l t)
    (heq : ∀ x ∈ l, s'.prev.get? x = s.prev.get? x) : s'.Chain source l t := by
  induction h with
  | source => exact .source
  | @step l a t chain prev ih =>
    refine .step (ih fun x hx => heq x (List.mem_append_left _ hx)) ?_
    rw [heq t (List.mem_append_right _ List.mem_cons_self)]
    exact prev

/-- A chain is as long as there are types with a type before them, at most, and its source. -/
theorem Chain.length_le (h : s.Chain source l t) (hn : l.Nodup) : l.length ≤ s.prev.size + 1 := by
  have hkeys : l.tail ⊆ s.prev.entries.map Prod.fst := by
    clear hn
    induction h with
    | source => exact List.nil_subset _
    | @step l a t chain prev ih =>
      rw [List.tail_append_of_ne_nil chain.ne_nil]
      have hkey : t ∈ s.prev.entries.map Prod.fst :=
        List.mem_map.mpr ⟨(t, a), OrdMap.get?_eq_some_iff.mp prev, rfl⟩
      exact List.append_subset.mpr ⟨ih, List.cons_subset.mpr ⟨hkey, List.nil_subset _⟩⟩
  have hle := (List.subperm_of_subset (hn.sublist (List.tail_sublist l)) hkeys).length_le
  rw [List.length_tail, List.length_map, OrdMap.length_entries] at hle
  omega

/-- **Walking back from a type follows its chain** to the source. -/
theorem Chain.walkBack_eq (hsource : s.prev.get? source = none) (h : s.Chain source l t) :
    ∀ {fuel : Nat} {rest : List TypeName}, l.length ≤ fuel + 1 →
      s.walkBack fuel t (t :: rest) = l ++ rest := by
  induction h with
  | source =>
    intro fuel rest _
    cases fuel with
    | zero => rfl
    | succ fuel =>
      rw [walkBack, hsource]
      rfl
  | @step l a t chain prev ih =>
    intro fuel rest hlen
    rw [List.length_append, List.length_singleton] at hlen
    have hpos := List.length_pos_iff.mpr chain.ne_nil
    cases fuel with
    | zero => omega
    | succ fuel =>
      rw [walkBack, prev, List.append_assoc]
      exact ih (by omega)

end Reached

namespace Search

variable {q : Search} {t : TypeName} {l : List TypeName}

/-- A settled type has a chain of settled types, which is a walk of its weight. -/
theorem exists_chain (hg : q.graph.Closed) (hm : q.graph.Measured) {d : UInt32}
    (hd : q.finished.Settled t d) :
    ∃ l, q.finished.Chain q.source l t ∧ l.Nodup ∧ (∀ x ∈ l, x ∈ q.finished.settled) ∧
      q.Walk l t d.toNat := by
  obtain ⟨h, -⟩ := run_explored hg hm
  obtain ⟨l, hwalk, hchain, hnodup, hall⟩ := h.exists_walk hm hd.2
  refine ⟨l, hchain, hnodup, fun x hx => ?_, hwalk⟩
  obtain ⟨-, -, rfl | ⟨hin, -⟩⟩ := hall x hx
  · exact hd.1
  · exact hin

/-- The walk that is read off a search is a chain of settled types. -/
theorem walkTo?_of_chain (hg : q.graph.Closed) (hm : q.graph.Measured) {d : UInt32}
    (hd : q.finished.Settled t d) (hchain : q.finished.Chain q.source l t) (hnodup : l.Nodup)
    (hsettled : ∀ x ∈ l, x ∈ q.finished.settled) : q.run.walkTo? t = some l := by
  have hchain' : q.run.Chain q.source l t := hchain.congr fun x hx => run_prev (hsettled x hx)
  have hsource : q.run.prev.get? q.source = none := by
    rw [run_prev (hsettled q.source (List.mem_of_mem_head? hchain.head?)), (run_explored hg hm).1.unled]
  have hcontains : q.run.dist.contains t = true := by
    unfold OrdMap.contains
    rw [(run_dist hg hm).mpr hd]
    rfl
  unfold Reached.walkTo?
  rw [if_pos hcontains, hchain'.walkBack_eq hsource (hchain'.length_le hnodup), List.append_nil]

/-- The walk to a settled type is its chain. -/
theorem walkTo?_of_settled (hg : q.graph.Closed) (hm : q.graph.Measured) {d : UInt32}
    (hd : q.finished.Settled t d) :
    ∃ l, q.run.walkTo? t = some l ∧ q.Walk l t d.toNat ∧ l.Nodup := by
  obtain ⟨l, hchain, hnodup, hsettled, hwalk⟩ := exists_chain hg hm hd
  exact ⟨l, walkTo?_of_chain hg hm hd hchain hnodup hsettled, hwalk, hnodup⟩

/-- **What is read off a search is a lightest walk**, without repeats. -/
theorem walkTo?_eq_some (hg : q.graph.Closed) (hm : q.graph.Measured)
    (ht : q.target = none ∨ q.target = some t) (h : q.run.walkTo? t = some l) :
    ∃ n, q.Walk l t n ∧ l.Nodup ∧ ∀ {l' n'}, q.Walk l' t n' → n ≤ n' := by
  have hcontains : q.run.dist.contains t = true := by
    unfold Reached.walkTo? at h
    split at h
    · assumption
    · exact nomatch h
  obtain ⟨d, hd⟩ := Option.isSome_iff_exists.mp hcontains
  have hsettled := (run_dist hg hm).mp hd
  obtain ⟨l', hl', hwalk, hnodup⟩ := walkTo?_of_settled hg hm hsettled
  obtain rfl := Option.some.inj (hl'.symm.trans h)
  refine ⟨d.toNat, hwalk, hnodup, fun {l'' n''} hw => ?_⟩
  obtain ⟨d', hd', hle⟩ := settled_of_walk hg hm ht hw
  obtain rfl := Option.some.inj (hd'.2.symm.trans hsettled.2)
  exact hle

/-- **A walk is read off wherever there is one.** -/
theorem exists_walkTo? (hg : q.graph.Closed) (hm : q.graph.Measured)
    (ht : q.target = none ∨ q.target = some t) {n : Nat} (hw : q.Walk l t n) :
    ∃ l', q.run.walkTo? t = some l' := by
  obtain ⟨d, hd, -⟩ := settled_of_walk hg hm ht hw
  obtain ⟨l', hl', -⟩ := walkTo?_of_settled hg hm hd
  exact ⟨l', hl'⟩

end Search

end PolicyReach
