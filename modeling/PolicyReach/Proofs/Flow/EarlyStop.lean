import PolicyReach.Proofs.Flow.Locality
import PolicyReach.Proofs.Flow.PathEnumeration

/-!
# The first path of an enumeration

An analysis searches until nothing waits, an enumeration until its end is settled, and then forgets
what is not. Still both find the same walk to that end, also among equally light ones: what is settled
is final, the type before it included, and the walk leads over settled types only.

* `Reached.KeptIn`: what is settled on one side is on the other, with all that is known of it;
* **`Search.settleAll_early`**: up to the early stop the two loops are one, and what is settled then
  the longer one keeps;
* **`Search.walkTo?_exhaustive`**: both searches give the same walk to the target;
* **`PathEnumeration.first_eq`**: the first path taken is the walk that the analysis found;
* `FlowGraph.filter_reachResults`: of the flows that an analysis reports, that walk gives the one to its
  end.
-/

namespace PolicyReach

open Std

/-! ## What is settled is final -/

namespace Reached

/-- What is settled in `s` is settled in `s'`, at the same weight and after the same type. -/
structure KeptIn (s s' : Reached) : Prop where
  settled : ∀ {t}, t ∈ s.settled → t ∈ s'.settled
  dist : ∀ {t}, t ∈ s.settled → s'.dist.get? t = s.dist.get? t
  prev : ∀ {t}, t ∈ s.settled → s'.prev.get? t = s.prev.get? t

variable {s s' : Reached} {a b t : TypeName} {c : UInt32}

theorem KeptIn.refl (s : Reached) : s.KeptIn s := ⟨id, fun _ => rfl, fun _ => rfl⟩

theorem KeptIn.trans {s'' : Reached} (h : s.KeptIn s') (h' : s'.KeptIn s'') : s.KeptIn s'' where
  settled ht := h'.settled (h.settled ht)
  dist ht := (h'.dist (h.settled ht)).trans (h.dist ht)
  prev ht := (h'.prev (h.settled ht)).trans (h.prev ht)

theorem KeptIn.of_settled (h : s.KeptIn s') (ht : s.Settled t c) : s'.Settled t c :=
  ⟨h.settled ht.1, (h.dist ht.1).trans ht.2⟩

theorem keptIn_settle (s : Reached) (t : TypeName) (c : UInt32) : s.KeptIn (s.settle t c) :=
  ⟨fun hx => OrdSet.mem_insert.mpr (Or.inr hx), fun _ => rfl, fun _ => rfl⟩

/-- An offer to a type that is not settled changes nothing of those that are. -/
theorem keptIn_offer (hb : b ∉ s.settled) : s.KeptIn (s.offer b a c) := by
  have hne {t : TypeName} (ht : t ∈ s.settled) : t ≠ b := fun heq => hb (heq ▸ ht)
  unfold offer
  split
  · exact ⟨id, fun ht => dist_reachVia_ne (hne ht), fun ht => prev_reachVia_ne (hne ht)⟩
  · exact .refl s

end Reached

namespace Search

variable {q : Search} {s : Reached} {a b t : TypeName} {c : UInt32}

theorem keptIn_visit (q : Search) (a : TypeName) (c : UInt32) (s : Reached)
    (hop : TypeName × Edge) : s.KeptIn (q.visit a c s hop) := by
  unfold visit
  split
  · rename_i hmay
    exact Reached.keptIn_offer (mayHop_iff.mp hmay).1
  · exact .refl s

theorem keptIn_offerAll (q : Search) (s : Reached) (a : TypeName) (c : UInt32) :
    s.KeptIn (q.offerAll s a c) := by
  have hfold : ∀ (hops : List (TypeName × Edge)) (s : Reached),
      s.KeptIn (hops.foldl (q.visit a c) s) := by
    intro hops
    induction hops with
    | nil => exact Reached.KeptIn.refl
    | cons hop hops ih => exact fun s => (q.keptIn_visit a c s hop).trans (ih _)
  exact hfold _ s

/-- A round of the loop keeps what has been settled, the type that it settles included. -/
theorem settle_keptIn_settleOne (q : Search) (s : Reached) (t : TypeName) (c : UInt32) :
    (s.settle t c).KeptIn (q.settleOne s t c) := by
  unfold settleOne
  split
  · exact .refl _
  · split
    · exact q.keptIn_offerAll _ t c
    · exact .refl _

/-- **The loop keeps what has been settled.** -/
theorem keptIn_settleAll (q : Search) : ∀ (fuel : Nat) (s : Reached), s.KeptIn (q.settleAll fuel s)
  | 0, s => .refl s
  | fuel + 1, s => by
    cases ht : s.lightest? with
    | none =>
      rw [settleAll_of_none q _ ht]
      exact .refl s
    | some w =>
      obtain ⟨t, c⟩ := w
      have hone := (s.keptIn_settle t c).trans (q.settle_keptIn_settleOne s t c)
      by_cases htarget : q.target = some t
      · rw [settleAll_of_target ht htarget]
        exact hone
      · rw [settleAll_of_some ht htarget]
        exact hone.trans (keptIn_settleAll q fuel _)

/-! ## Stopping early -/

/-- The search that goes on until nothing waits. -/
def exhaustive (q : Search) : Search := { q with target := none }

theorem settleOne_exhaustive (htarget : q.target ≠ some t) :
    q.exhaustive.settleOne s t c = q.settleOne s t c := by
  unfold settleOne
  rw [if_neg htarget]
  rfl

/-- **Up to the early stop the two loops are one**: either they end alike, or the target is settled, and
what is settled then the longer one keeps. -/
theorem settleAll_early (q : Search) : ∀ (fuel : Nat) (s : Reached),
    q.exhaustive.settleAll fuel s = q.settleAll fuel s ∨
      (∃ b, q.target = some b ∧ b ∈ (q.settleAll fuel s).settled) ∧
        (q.settleAll fuel s).KeptIn (q.exhaustive.settleAll fuel s)
  | 0, _ => Or.inl rfl
  | fuel + 1, s => by
    cases ht : s.lightest? with
    | none => exact Or.inl (by rw [settleAll_of_none _ _ ht, settleAll_of_none _ _ ht])
    | some w =>
      obtain ⟨t, c⟩ := w
      have hgo : q.exhaustive.settleAll (fuel + 1) s =
          q.exhaustive.settleAll fuel (q.exhaustive.settleOne s t c) :=
        settleAll_of_some ht (Option.some_ne_none t).symm
      by_cases htarget : q.target = some t
      · -- the target: one loop stops at it, the other one goes on from it
        have hstop : q.settleAll (fuel + 1) s = s.settle t c := by
          rw [settleAll_of_target ht htarget, settleOne, if_pos htarget]
        rw [hstop, hgo]
        refine Or.inr ⟨⟨t, htarget, OrdSet.mem_insert.mpr (Or.inl rfl)⟩, ?_⟩
        exact (q.exhaustive.settle_keptIn_settleOne s t c).trans (q.exhaustive.keptIn_settleAll fuel _)
      · rw [settleAll_of_some ht htarget, hgo, settleOne_exhaustive htarget]
        exact settleAll_early q fuel _

theorem finished_early (q : Search) :
    q.exhaustive.finished = q.finished ∨
      (∃ b, q.target = some b ∧ b ∈ q.finished.settled) ∧ q.finished.KeptIn q.exhaustive.finished :=
  q.settleAll_early _ _

theorem finished_keptIn (q : Search) : q.finished.KeptIn q.exhaustive.finished := by
  rcases q.finished_early with heq | ⟨-, hkept⟩
  · rw [heq]
    exact .refl _
  · exact hkept

/-- The target is settled by the one search if it is by the other, at the same weight. -/
theorem settled_exhaustive (htarget : q.target = some b) :
    q.exhaustive.finished.Settled b c ↔ q.finished.Settled b c := by
  refine ⟨fun hb => ?_, q.finished_keptIn.of_settled⟩
  rcases q.finished_early with heq | ⟨⟨b', hb', hin⟩, hkept⟩
  · rwa [heq] at hb
  · obtain rfl : b = b' := Option.some.inj (htarget.symm.trans hb')
    exact ⟨hin, (hkept.dist hin).symm.trans hb.2⟩

/-- **A search that stops at its target gives the walk to it that an exhaustive search gives.** -/
theorem walkTo?_exhaustive (hg : q.graph.Closed) (hm : q.graph.Measured)
    (htarget : q.target = some b) : q.exhaustive.run.walkTo? b = q.run.walkTo? b := by
  cases hd : q.run.dist.get? b with
  | some d =>
    have hb := (run_dist hg hm).mp hd
    obtain ⟨l, hchain, hnodup, hsettled, -⟩ := exists_chain hg hm hb
    have hkept := q.finished_keptIn
    rw [walkTo?_of_chain hg hm hb hchain hnodup hsettled]
    exact walkTo?_of_chain (q := q.exhaustive) hg hm (hkept.of_settled hb)
      (hchain.congr fun x hx => hkept.prev (hsettled x hx)) hnodup
      fun x hx => hkept.settled (hsettled x hx)
  | none =>
    have hd' : q.exhaustive.run.dist.get? b = none := by
      by_contra hne
      obtain ⟨d, hd'⟩ := Option.ne_none_iff_exists'.mp hne
      have hb := (settled_exhaustive htarget).mp ((run_dist (q := q.exhaustive) hg hm).mp hd')
      exact nomatch hd.symm.trans ((run_dist hg hm).mpr hb)
    simp [Reached.walkTo?, OrdMap.contains, hd, hd']

end Search

/-! ## The flow that an analysis reports -/

namespace FlowGraph

variable {g : FlowGraph} {direction : ReachDirection} {start t : TypeName} {r : FlowResult}

/-- The flow along the lightest walk that is found. -/
def lightestFlow? (g : FlowGraph) (direction : ReachDirection) (start t : TypeName) :
    Option FlowResult :=
  ((g.searchFrom direction.orientation start).run.walkTo? t).bind
    (g.walkResult? direction.orientation direction.flowDirection start)

theorem finish_of_lightestFlow? (hg : g.Sound) (hm : g.Measured)
    (h : g.lightestFlow? direction start t = some r) : r.finish = t := by
  obtain ⟨l, hl, hr⟩ := Option.bind_eq_some_iff.mp h
  obtain ⟨hroute, -⟩ := (walkTo?_searchFrom hg hm).1 hl
  unfold walkResult? at hr
  rw [hroute.last] at hr
  obtain ⟨finish, hfinish, hr⟩ := Option.bind_eq_some_iff.mp hr
  obtain ⟨edges, -, hr⟩ := Option.bind_eq_some_iff.mp hr
  obtain rfl := Option.some.inj hr
  exact (Option.some.inj hfinish).symm

/-- A flow to a type is reported exactly if it is the one along the lightest walk found. -/
theorem mem_reachResults_iff (hg : g.Sound) (hm : g.Measured) {p : Policy} {f : Option NameFilter}
    (hne : t ≠ start) (hpass : NameFilter.passes f p t = true) :
    r ∈ g.reachResults p f direction start ∧ r.finish = t ↔
      g.lightestFlow? direction start t = some r := by
  have hmem : r ∈ g.reachResults p f direction start ↔
      ∃ x ∈ (g.searchFrom direction.orientation start).run.dist.keyList.filter fun t =>
        t != start && NameFilter.passes f p t, g.lightestFlow? direction start x = some r :=
    List.mem_filterMap
  rw [hmem]
  constructor
  · rintro ⟨⟨x, -, hx⟩, hfinish⟩
    rwa [← hfinish, finish_of_lightestFlow? hg hm hx]
  · intro h
    obtain ⟨l, hl, -⟩ := Option.bind_eq_some_iff.mp h
    refine ⟨⟨t, List.mem_filter.mpr ⟨?_, ?_⟩, h⟩, finish_of_lightestFlow? hg hm h⟩
    · exact OrdMap.mem_keyList.mpr (walkTo?_eq_some_iff_contains.mp ⟨l, hl⟩)
    · simp [hne, hpass]

/-- **An analysis reports the flow along the lightest walk to a type**, if there is one, and no other to
that type. -/
theorem filter_reachResults (hg : g.Sound) (hm : g.Measured) (p : Policy) (hne : t ≠ start) :
    (g.reachResults p none direction start).filter (fun r => r.finish = t) =
      (g.lightestFlow? direction start t).toList := by
  have hnodup : (g.reachResults p none direction start).Nodup := by
    have hascending := (reachResults_exact hg hm p none direction start).ascending
    refine (List.pairwise_map.mp hascending).imp fun hlt heq => ?_
    subst heq
    cases hlt.symm.trans ReflCmp.compare_self
  have hmem (r : FlowResult) :
      r ∈ (g.reachResults p none direction start).filter (fun r => r.finish = t) ↔
        g.lightestFlow? direction start t = some r := by
    rw [List.mem_filter, decide_eq_true_iff]
    exact mem_reachResults_iff hg hm hne rfl
  cases hr : g.lightestFlow? direction start t with
  | none =>
    refine List.eq_nil_iff_forall_not_mem.mpr fun r hmem' => ?_
    exact nomatch hr.symm.trans ((hmem r).mp hmem')
  | some r =>
    refine List.perm_singleton.mp
      ((List.perm_ext_iff_of_nodup (hnodup.filter _) (List.nodup_singleton r)).mpr fun x => ?_)
    rw [hmem, hr, Option.some.injEq, List.mem_singleton, eq_comm]

end FlowGraph

/-! ## The path that is taken first -/

namespace PathEnumeration

variable {e e' : PathEnumeration} {index g : FlowGraph} {a b : TypeName} {o : Orientation} {limit : Nat}
  {best : Candidate}

theorem ends_of_next (h : e.next g = .ok (some (best, e'))) :
    e'.start = e.start ∧ e'.orientation = e.orientation := by
  obtain ⟨queue, -, -, rfl⟩ := next_eq_some_iff.mp h
  exact ⟨rfl, rfl⟩

/-- The way to the end that nothing is avoided on is the walk that an exhaustive search finds. -/
theorem spur?_eq (limit : Nat) (hg : g.Sound) (hm : g.Measured) :
    (blank a b o limit).spur? g a [] [] = (g.searchFrom o a).run.walkTo? b := by
  let q : Search := { g.searchFrom o a with target := some b }
  exact (q.walkTo?_exhaustive hg.closed hm rfl).symm

/-- **The first path taken is the walk that an exhaustive search finds**, and there is none to take if
that finds none. -/
theorem first_eq (hc : (blank a b o limit).Carries index g)
    {taken : Option (Candidate × PathEnumeration)}
    (h : (prepare g a b o limit).next g = .ok taken) :
    taken.map (fun x => x.1.walk) = (g.searchFrom o a).run.walkTo? b := by
  rw [← spur?_eq limit hc.sound hc.measured]
  rcases prepare_spur_cases hc with ⟨hspur, heq⟩ | ⟨c, hspur, heq, -⟩
  · rw [heq] at h
    obtain rfl := Except.ok.inj h
    exact hspur.symm
  · rw [heq] at h
    cases taken with
    | none => exact nomatch next_eq_none_iff.mp h
    | some x =>
      obtain ⟨queue, hqueue, -⟩ := next_eq_some_iff.mp h
      obtain ⟨rfl, -⟩ := List.cons.inj hqueue
      exact hspur.symm

end PathEnumeration

end PolicyReach
