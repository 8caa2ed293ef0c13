import PolicyReach.Proofs.Flow.InPlace

/-!
# The limit on candidates cuts an enumeration short and does nothing else

Taking a path queues its deviations, all of them or none: if the queue would get longer than its limit
the call fails and leaves the enumeration as it was, so that every call after it fails in the same way.
Up to there the limit has no part in what is taken.

Model: the calls are those of `InPlace.next`, which writes where the enumeration stands; `afterCalls` is
what a number of calls leaves, `reply` what the next one gives. An enumeration with a limit under which the
first calls all succeed stands for one with no limit, and there is one for any number of calls.

Results:
* `Answers`, `answers`: all that a call may give and leave;
* `length_queue_le`: the queue never gets longer than the limit, the first candidate apart;
* `reply_eq_error_iff`, `stuck_of_error`: when a call fails, and that it does so from then on;
* `afterCalls_withLimit`: as long as no call fails, two limits leave the same;
* `exists_limit`: some limit lets any number of calls succeed;
* **`limit_cuts_short`**: the four together, of an enumeration that has been prepared.
-/

namespace PolicyReach

open Procedure

namespace PathEnumeration

variable {g : FlowGraph} {e e' f' : PathEnumeration} {n : Nat} {error : AnalysisError}
  {r r' : Except AnalysisError (Option Candidate)}

/-- The same enumeration with another limit. -/
def withLimit (e : PathEnumeration) (limit : Nat) : PathEnumeration := { e with limit }

/-- The enumeration after a number of calls for the next path, those that fail included. -/
def afterCalls (e : PathEnumeration) (g : FlowGraph) : Nat → PathEnumeration
  | 0 => e
  | n + 1 => (exec (InPlace.next g) (e.afterCalls g n)).2

/-- What a call for the next path gives after `n` others. -/
def reply (e : PathEnumeration) (g : FlowGraph) (n : Nat) : Except AnalysisError (Option Candidate) :=
  (exec (InPlace.next g) (e.afterCalls g n)).1

/-- None of the first `n` calls fails. -/
def Succeeds (e : PathEnumeration) (g : FlowGraph) (n : Nat) : Prop :=
  ∀ i < n, ∀ error, e.reply g i ≠ .error error

/-- The number of candidates that would wait when a path has been taken and `rest` is left. -/
def wouldWait (e : PathEnumeration) (g : FlowGraph) (best : Candidate) (rest : List Candidate) : Nat :=
  rest.length + (e.deviations g best.walk).length

/-! ## One call -/

/-- What a call for the next path gives, and the enumeration that it leaves. -/
inductive Answers (g : FlowGraph) (e : PathEnumeration) :
    Except AnalysisError (Option Candidate) → PathEnumeration → Prop
  | exhausted (queue : e.queue = []) : Answers g e (.ok none) e
  | taken {best : Candidate} {rest : List Candidate} (queue : e.queue = best :: rest)
      (fits : e.wouldWait g best rest ≤ e.limit) :
      Answers g e (.ok (some best)) (e.take best rest (e.deviations g best.walk))
  | refused {best : Candidate} {rest : List Candidate} (queue : e.queue = best :: rest)
      (full : e.limit < e.wouldWait g best rest) :
      Answers g e
        (.error (.allocation (.candidates e.start e.finish (e.wouldWait g best rest) e.limit))) e

theorem answers (g : FlowGraph) (e : PathEnumeration) :
    Answers g e (exec (InPlace.next g) e).1 (exec (InPlace.next g) e).2 := by
  rw [InPlace.exec_next]
  unfold next
  cases hq : e.queue with
  | nil => exact .exhausted hq
  | cons best rest =>
    by_cases hfull : e.limit < rest.length + (e.deviations g best.walk).length
    · simp only [if_pos hfull]
      exact .refused hq hfull
    · simp only [if_neg hfull, foldl_push]
      exact .taken hq (Nat.not_lt.mp hfull)

theorem length_queue_take (best : Candidate) (rest found : List Candidate) :
    (e.take best rest found).queue.length = found.length + rest.length := by
  have hperm := (Candidate.perm_enqueueAll found rest).length_eq
  rw [List.length_append] at hperm
  exact hperm

namespace Answers

theorem limit_eq (h : Answers g e r e') : e'.limit = e.limit := by
  cases h with
  | exhausted | taken | refused => rfl

theorem ends_eq (h : Answers g e r e') : e'.start = e.start ∧ e'.finish = e.finish := by
  cases h with
  | exhausted | taken | refused => exact ⟨rfl, rfl⟩

/-- A call queues what fits under the limit, or nothing. -/
theorem length_queue_le (h : Answers g e r e') (hlen : e.queue.length ≤ max 1 e.limit) :
    e'.queue.length ≤ max 1 e.limit := by
  cases h with
  | exhausted | refused => exact hlen
  | taken queue fits =>
    unfold wouldWait at fits
    rw [length_queue_take]
    omega

/-- A call fails exactly if a path waits whose deviations do not fit. -/
theorem error_iff (h : Answers g e r e') :
    r = .error error ↔ ∃ best rest, e.queue = best :: rest ∧ e.limit < e.wouldWait g best rest ∧
      error = .allocation (.candidates e.start e.finish (e.wouldWait g best rest) e.limit) := by
  constructor
  · rintro rfl
    cases h with
    | refused queue full => exact ⟨_, _, queue, full, rfl⟩
  · rintro ⟨best, rest, hq, hfull, rfl⟩
    cases h with
    | exhausted queue => simp [queue] at hq
    | taken queue fits =>
      obtain ⟨rfl, rfl⟩ := List.cons.inj (queue.symm.trans hq)
      exact absurd hfull (Nat.not_lt.mpr fits)
    | refused queue full =>
      obtain ⟨rfl, rfl⟩ := List.cons.inj (queue.symm.trans hq)
      rfl

/-- A call that fails changes nothing. -/
theorem eq_of_error (h : Answers g e (.error error) e') : e' = e := by
  cases h with
  | refused => rfl

/-- Calls that do not fail under two limits give the same, and leave the same. -/
theorem agree {limit : Nat} (h : Answers g e r e') (h' : Answers g (e.withLimit limit) r' f')
    (hr : ∀ error, r ≠ .error error) (hr' : ∀ error, r' ≠ .error error) :
    r' = r ∧ f' = e'.withLimit limit := by
  -- the limit is no part of the queue, nor of the deviations
  cases h with
  | refused => exact absurd rfl (hr _)
  | exhausted queue =>
    cases h' with
    | refused => exact absurd rfl (hr' _)
    | exhausted => exact ⟨rfl, rfl⟩
    | taken queue' => exact nomatch queue.symm.trans queue'
  | taken queue =>
    cases h' with
    | refused => exact absurd rfl (hr' _)
    | exhausted queue' => exact nomatch queue.symm.trans queue'
    | taken queue' =>
      obtain ⟨rfl, rfl⟩ := List.cons.inj (queue.symm.trans queue')
      exact ⟨rfl, rfl⟩

end Answers

/-! ## Calls in a row -/

theorem answers_reply (e : PathEnumeration) (g : FlowGraph) (n : Nat) :
    Answers g (e.afterCalls g n) (e.reply g n) (e.afterCalls g (n + 1)) :=
  answers g (e.afterCalls g n)

theorem limit_afterCalls (e : PathEnumeration) (g : FlowGraph) (n : Nat) :
    (e.afterCalls g n).limit = e.limit := by
  induction n with
  | zero => rfl
  | succ n ih => exact (e.answers_reply g n).limit_eq.trans ih

theorem ends_afterCalls (e : PathEnumeration) (g : FlowGraph) (n : Nat) :
    (e.afterCalls g n).start = e.start ∧ (e.afterCalls g n).finish = e.finish := by
  induction n with
  | zero => exact ⟨rfl, rfl⟩
  | succ n ih =>
    obtain ⟨hstart, hfinish⟩ := (e.answers_reply g n).ends_eq
    exact ⟨hstart.trans ih.1, hfinish.trans ih.2⟩

/-- **The queue keeps to its limit**, unless it is the first candidate that the limit leaves no room for. -/
theorem length_queue_le (hlen : e.queue.length ≤ max 1 e.limit) (n : Nat) :
    (e.afterCalls g n).queue.length ≤ max 1 e.limit := by
  induction n with
  | zero => exact hlen
  | succ n ih =>
    have hstep := (e.answers_reply g n).length_queue_le
    rw [limit_afterCalls] at hstep
    exact hstep ih

/-- **When a call fails.** -/
theorem reply_eq_error_iff :
    e.reply g n = .error error ↔
      ∃ best rest, (e.afterCalls g n).queue = best :: rest ∧
        e.limit < (e.afterCalls g n).wouldWait g best rest ∧
        error = .allocation
          (.candidates e.start e.finish ((e.afterCalls g n).wouldWait g best rest) e.limit) := by
  rw [(e.answers_reply g n).error_iff, limit_afterCalls, (e.ends_afterCalls g n).1,
    (e.ends_afterCalls g n).2]

/-- **After a call that fails nothing changes any more**: every further call fails as it did. -/
theorem stuck_of_error (h : e.reply g n = .error error) (k : Nat) :
    e.afterCalls g (n + k) = e.afterCalls g n ∧ e.reply g (n + k) = .error error := by
  induction k with
  | zero => exact ⟨rfl, h⟩
  | succ k ih =>
    obtain ⟨hsame, hfails⟩ := ih
    have hstep := e.answers_reply g (n + k)
    rw [hfails] at hstep
    have hsame' : e.afterCalls g (n + (k + 1)) = e.afterCalls g n := hstep.eq_of_error.trans hsame
    refine ⟨hsame', ?_⟩
    unfold reply at h ⊢
    rw [hsame', h]

theorem Succeeds.of_succ (h : e.Succeeds g (n + 1)) : e.Succeeds g n :=
  fun i hi => h i (Nat.lt_succ_of_lt hi)

/-- **As long as no call fails, two limits leave the same.** -/
theorem afterCalls_withLimit {limit : Nat} (h : e.Succeeds g n)
    (h' : (e.withLimit limit).Succeeds g n) :
    (e.withLimit limit).afterCalls g n = (e.afterCalls g n).withLimit limit := by
  induction n with
  | zero => rfl
  | succ n ih =>
    have hstep' := (e.withLimit limit).answers_reply g n
    rw [ih h.of_succ h'.of_succ] at hstep'
    have hn := Nat.lt_succ_self n
    exact ((e.answers_reply g n).agree hstep' (h n hn) (h' n hn)).2

theorem reply_withLimit {limit i : Nat} (h : e.Succeeds g n)
    (h' : (e.withLimit limit).Succeeds g n) (hi : i < n) :
    (e.withLimit limit).reply g i = e.reply g i := by
  have hstep' := (e.withLimit limit).answers_reply g i
  rw [afterCalls_withLimit (fun j hj => h j (hj.trans hi)) fun j hj => h' j (hj.trans hi)] at hstep'
  exact ((e.answers_reply g i).agree hstep' (h i hi) (h' i hi)).1

/-- **Some limit lets any number of calls succeed**, as does every greater one. -/
theorem exists_limit (e : PathEnumeration) (g : FlowGraph) (n : Nat) :
    ∃ enough, ∀ limit, enough ≤ limit → (e.withLimit limit).Succeeds g n := by
  induction n with
  | zero => exact ⟨0, fun _ _ i hi => absurd hi (Nat.not_lt_zero i)⟩
  | succ n ih =>
    obtain ⟨enough, henough⟩ := ih
    -- what waits after `n` calls does not depend on the limit, and tells how much the next one needs
    obtain ⟨best, rest, hmost⟩ : ∃ best rest, ∀ c q,
        ((e.withLimit enough).afterCalls g n).queue = c :: q → c = best ∧ q = rest := by
      cases ((e.withLimit enough).afterCalls g n).queue with
      | nil => exact ⟨⟨0, []⟩, [], fun c q hq => nomatch hq⟩
      | cons c q => exact ⟨c, q, fun d p hq => (List.cons.inj hq.symm)⟩
    refine ⟨max enough (((e.withLimit enough).afterCalls g n).wouldWait g best rest),
      fun limit hlimit i hi error hfails => ?_⟩
    have hmore := henough limit (le_trans (Nat.le_max_left _ _) hlimit)
    rcases Nat.lt_succ_iff_lt_or_eq.mp hi with hi | rfl
    · exact hmore i hi error hfails
    · have hsame := afterCalls_withLimit (henough enough (Nat.le_refl _)) hmore
      obtain ⟨c, q, hq, hfull, -⟩ := reply_eq_error_iff.mp hfails
      change (e.withLimit limit).afterCalls g i = _ at hsame
      rw [hsame] at hq hfull
      obtain ⟨rfl, rfl⟩ := hmost c q hq
      exact absurd hlimit (Nat.not_le.mpr (Nat.lt_of_lt_of_le hfull (Nat.le_max_right _ _)))

/-! ## Enumerations that have been prepared -/

theorem prepare_withLimit (g : FlowGraph) (a b : TypeName) (o : Orientation) (limit limit' : Nat) :
    (prepare g a b o limit).withLimit limit' = prepare g a b o limit' := by
  -- the search for the first candidate is the same under any limit
  have hseed : ((blank a b o limit').spur? g a [] []).bind ((blank a b o limit').candidate? g) =
      ((blank a b o limit).spur? g a [] []).bind ((blank a b o limit).candidate? g) := rfl
  unfold blank at hseed
  unfold prepare
  dsimp only
  rw [hseed]
  split <;> rfl

theorem ends_prepare (g : FlowGraph) (a b : TypeName) (o : Orientation) (limit : Nat) :
    (prepare g a b o limit).start = a ∧ (prepare g a b o limit).finish = b ∧
      (prepare g a b o limit).limit = limit := by
  unfold prepare
  dsimp only
  split <;> exact ⟨rfl, rfl, rfl⟩

theorem length_queue_prepare (g : FlowGraph) (a b : TypeName) (o : Orientation) (limit : Nat) :
    (prepare g a b o limit).queue.length ≤ 1 := by
  unfold prepare
  dsimp only
  split
  · exact Nat.le_refl 1
  · exact Nat.zero_le 1

/-- **The limit on candidates only cuts an enumeration short.** Whatever the graph, the two types, the
orientation and the limit of an enumeration that has been prepared, after any number of calls

* no more candidates wait than the limit allows, or one;
* a call fails exactly if a path waits and the others together with its deviations are more than the limit
  allows, and with the error that says so;
* a call that fails leaves the enumeration as it is, and so do all after it, which fail in the same way;
* as long as no call fails, the paths taken are those that an enumeration of the same paths takes under any
  other limit with which its calls do not fail, in the same order; and for any number of calls all limits but
  the lower ones are such. -/
theorem limit_cuts_short (g : FlowGraph) (a b : TypeName) (o : Orientation) (limit n : Nat) :
    let e := prepare g a b o limit
    (e.afterCalls g n).queue.length ≤ max 1 limit ∧
    (∀ error, e.reply g n = .error error ↔
      ∃ best rest, (e.afterCalls g n).queue = best :: rest ∧
        limit < (e.afterCalls g n).wouldWait g best rest ∧
        error = .allocation (.candidates a b ((e.afterCalls g n).wouldWait g best rest) limit)) ∧
    (∀ error, e.reply g n = .error error → ∀ k,
      e.afterCalls g (n + k) = e.afterCalls g n ∧ e.reply g (n + k) = .error error) ∧
    (∀ limit', e.Succeeds g n → (prepare g a b o limit').Succeeds g n →
      (∀ i < n, e.reply g i = (prepare g a b o limit').reply g i) ∧
        (e.afterCalls g n).returned = ((prepare g a b o limit').afterCalls g n).returned) ∧
    ∃ enough, ∀ limit', enough ≤ limit' → (prepare g a b o limit').Succeeds g n := by
  intro e
  obtain ⟨hstart, hfinish, hlimit⟩ := ends_prepare g a b o limit
  refine ⟨?_, fun error => ?_, fun error => stuck_of_error, fun limit' hn hn' => ?_, ?_⟩
  · have hlen : e.queue.length ≤ max 1 e.limit :=
      le_trans (length_queue_prepare g a b o limit) (Nat.le_max_left _ _)
    exact hlimit ▸ length_queue_le hlen n
  · rw [reply_eq_error_iff, hstart, hfinish, hlimit]
  · rw [← prepare_withLimit g a b o limit limit'] at hn' ⊢
    refine ⟨fun i hi => (reply_withLimit hn hn' hi).symm, ?_⟩
    rw [afterCalls_withLimit hn hn']
    rfl
  · obtain ⟨enough, henough⟩ := exists_limit e g n
    refine ⟨enough, fun limit' hle => ?_⟩
    rw [← prepare_withLimit g a b o limit limit']
    exact henough limit' hle

/-- From `a` to `d`: at once (1), over `b` (3 and 3), over `c` (2 and 4), and over both (3, 1 and 4). -/
def sampleCrossing : FlowGraph :=
  (FlowGraph.empty ⟨∅, .transitive .fromStart, none⟩).insertEdges
    [.single ⟨"a"⟩ ⟨"d"⟩ 1 ⟨0⟩, .single ⟨"a"⟩ ⟨"b"⟩ 3 ⟨1⟩, .single ⟨"b"⟩ ⟨"d"⟩ 3 ⟨2⟩,
      .single ⟨"a"⟩ ⟨"c"⟩ 2 ⟨3⟩, .single ⟨"c"⟩ ⟨"d"⟩ 4 ⟨4⟩, .single ⟨"b"⟩ ⟨"c"⟩ 1 ⟨5⟩]

/-- Where one candidate may wait, the path of one hop is taken, as it is without a limit; the path over `b`
has two deviations, and is never taken. -/
theorem sample_cut_short :
    let e := prepare sampleCrossing ⟨"a"⟩ ⟨"d"⟩ .forward 1
    let error := AnalysisError.allocation (.candidates ⟨"a"⟩ ⟨"d"⟩ 2 1)
    e.Succeeds sampleCrossing 1 ∧ (prepare sampleCrossing ⟨"a"⟩ ⟨"d"⟩ .forward 9).Succeeds sampleCrossing 1 ∧
      e.reply sampleCrossing 0 = (prepare sampleCrossing ⟨"a"⟩ ⟨"d"⟩ .forward 9).reply sampleCrossing 0 ∧
      e.reply sampleCrossing 1 = .error error ∧
      (∀ k, e.reply sampleCrossing (1 + k) = .error error) := by
  intro e error
  have hfirst {limit : Nat} {c : Option Candidate}
      (h : (prepare sampleCrossing ⟨"a"⟩ ⟨"d"⟩ .forward limit).reply sampleCrossing 0 = .ok c) :
      (prepare sampleCrossing ⟨"a"⟩ ⟨"d"⟩ .forward limit).Succeeds sampleCrossing 1 := by
    intro i hi
    obtain rfl : i = 0 := Nat.lt_one_iff.mp hi
    simp [h]
  have hone : e.Succeeds sampleCrossing 1 :=
    hfirst (c := some ⟨1, [⟨"a"⟩, ⟨"d"⟩]⟩) (by decide +kernel)
  have hnine : (prepare sampleCrossing ⟨"a"⟩ ⟨"d"⟩ .forward 9).Succeeds sampleCrossing 1 :=
    hfirst (c := some ⟨1, [⟨"a"⟩, ⟨"d"⟩]⟩) (by decide +kernel)
  have hfails : e.reply sampleCrossing 1 = .error error := by decide +kernel
  obtain ⟨-, -, hstuck, hsame, -⟩ := limit_cuts_short sampleCrossing ⟨"a"⟩ ⟨"d"⟩ .forward 1 1
  exact ⟨hone, hnine, (hsame 9 hone hnine).1 0 Nat.one_pos, hfails, fun k => (hstuck error hfails k).2⟩

end PathEnumeration

end PolicyReach
