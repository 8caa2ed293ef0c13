import PolicyReach.Proofs.DomainTransition.Exact

/-!
# Searches from either end of a transition

A search forward starts from the rules that let the source pass to other domains, a search in reverse
from the rules that let other domains pass to the target. The two are looked up differently: an
attribute is expanded on the other side only, and `self` is read off the subject. Here they are shown to
agree.

* `OrdMap.flatMap_entries`: what only the entry of one key contributes is what that entry does;
* **`Policy.get?_grants_subject`**: looked up from the subject, an object has the rules that the subject
  has, looked up from the object;
* `Policy.transitionsBetween`: the transitions from one domain to another, without regard to where a
  search starts; `Policy.filter_transitionsAt`: a search without filters gives these for each domain
  found;
* **`GrantMemo.forward_reverse_dual`**: what a search forward gives with one target, the search in
  reverse from that target gives with the source, record for record.

Searches with filters are out of scope: a filter is about the domain found, which is the target for one
of them and the source for the other.
-/

namespace PolicyReach

namespace OrdMap

variable {κ β α : Type} [Ord κ] [Std.TransOrd κ] [Std.LawfulEqOrd κ]

/-- If the entries of other keys contribute nothing, all comes from the entry of the one key. -/
theorem flatMap_entries {m : OrdMap κ β} {k : κ} {f : κ × β → List α}
    (hothers : ∀ e ∈ m.entries, e.1 ≠ k → f e = []) :
    m.entries.flatMap f = ((m.get? k).map fun v => f (k, v)).getD [] := by
  cases hget : m.get? k with
  | none =>
    refine List.flatMap_eq_nil_iff.mpr fun e he => hothers e he ?_
    rintro rfl
    exact nomatch hget.symm.trans (get?_eq_some_iff.mpr he)
  | some v =>
    obtain ⟨front, back, hentries⟩ := List.append_of_mem (get?_eq_some_iff.mp hget)
    have hascending := m.ascending_entries
    rw [hentries] at hothers hascending
    obtain ⟨-, hback, hfront⟩ := List.pairwise_append.mp hascending
    have hback := (List.pairwise_cons.mp hback).1
    -- keys ascend strictly, so that no other entry has this one
    have hne {a b : κ} (hlt : compare a b = .lt) : a ≠ b := by
      rintro rfl
      cases hlt.symm.trans Std.ReflCmp.compare_self
    have hfront_nil : front.flatMap f = [] := List.flatMap_eq_nil_iff.mpr fun e he =>
      hothers e (by simp [he]) (hne (hfront e he (k, v) (by simp)))
    have hback_nil : back.flatMap f = [] := List.flatMap_eq_nil_iff.mpr fun e he =>
      hothers e (by simp [he]) (hne (hback e he)).symm
    simp [hentries, hfront_nil, hback_nil]

end OrdMap

namespace Policy

variable {p : Policy} {q : TransitionQuery} {start found source target : TypeName}

/-- **The two ways of looking up a permission agree.** -/
theorem get?_grants_subject (p : Policy) (s t : TypeName) (cls perm : String) :
    (p.grants ⟨.subject, s, cls, perm⟩).get? t = (p.grants ⟨.object, t, cls, perm⟩).get? s := by
  obtain ⟨hlisted, hrules⟩ := p.grants_exact ⟨.subject, s, cls, perm⟩ t
  obtain ⟨hlisted', hrules'⟩ := p.grants_exact ⟨.object, t, cls, perm⟩ s
  -- on either side a rule counts iff it allows the permission from `s` to `t`
  have hsides (id : RuleId) : p.AllowsKey ⟨.subject, s, cls, perm⟩ t id ↔
      p.AllowsKey ⟨.object, t, cls, perm⟩ s id := Iff.rfl
  cases hget : (p.grants ⟨.subject, s, cls, perm⟩).get? t with
  | none =>
    cases hget' : (p.grants ⟨.object, t, cls, perm⟩).get? s with
    | none => rfl
    | some rules' =>
      obtain ⟨rules, hsome⟩ := hlisted.mpr (hlisted'.mp ⟨rules', hget'⟩)
      cases hget.symm.trans hsome
  | some rules =>
    obtain ⟨rules', hget'⟩ := hlisted'.mpr (hlisted.mp ⟨rules, hget⟩)
    rw [hget', Option.some.injEq]
    refine OrdSet.ext fun id => ?_
    rw [hrules rules hget, hrules' rules' hget', hsides]

/-- The transitions from one domain to another, if rules allow any. -/
def transitionsBetween (p : Policy) (source target : TypeName) : List DomainTransition :=
  if source = target then []
  else
    (((p.held source "process" "transition").get? target).map fun transition =>
      p.pairTransitions source target transition ∅).getD []

/-- From whichever end it starts, a search has the same rules for a transition. -/
theorem get?_grants_start (direction : TransitionDirection) :
    (p.grants ⟨GrantMemo.startSide direction, start, "process", "transition"⟩).get? found =
      (p.held (direction.near start found) "process" "transition").get?
        (direction.far start found) := by
  cases direction with
  | forward => rfl
  | reverse => exact (p.get?_grants_subject found start "process" "transition").symm

theorem far_of_mem_foundTransitions {access : Option AccessFilter} {transition : OrdSet RuleId}
    {d : DomainTransition} (haccess : AccessFilter.ofQuery p q = .ok access)
    (hd : d ∈ p.foundTransitions q access start found transition) :
    q.direction.far d.source d.target = found := by
  obtain ⟨-, hpair⟩ := (mem_foundTransitions haccess).mp hd
  obtain ⟨hsource, htarget, -⟩ := mem_pairTransitions.mp hpair
  rw [hsource, htarget, q.direction.far_near_far]

/-- A query without an access filter has none to read. -/
theorem ofQuery_of_no_filter (haccess : q.hasAccessFilter = false) :
    AccessFilter.ofQuery p q = .ok none := by
  unfold AccessFilter.ofQuery
  rw [haccess, if_neg Bool.false_ne_true]

/-- With no filters, all transitions to or from another domain count. -/
theorem foundTransitions_of_no_filter (hfilter : q.filter = none) (transition : OrdSet RuleId) :
    p.foundTransitions q none start found transition =
      if q.direction.near start found = q.direction.far start found then []
      else p.pairTransitions (q.direction.near start found) (q.direction.far start found)
        transition ∅ := by
  have hsame : q.direction.near start found = q.direction.far start found ↔ start = found :=
    not_iff_not.mp TransitionDirection.near_ne_far
  simp only [foundTransitions, hfilter, hsame]
  by_cases heq : start = found
  · simp [heq]
  · simp [heq, NameFilter.passes, rulesMeeting]

/-- Of what a search without filters gives, one domain found has what is between it and the start. -/
theorem filter_transitionsAt (hfilter : q.filter = none) (haccess : q.hasAccessFilter = false) :
    (p.transitionsAt q none start).filter (fun d => q.direction.far d.source d.target = found) =
      p.transitionsBetween (q.direction.near start found) (q.direction.far start found) := by
  have hfound {e : TypeName × OrdSet RuleId} {d : DomainTransition}
      (hd : d ∈ p.foundTransitions q none start e.1 e.2) : q.direction.far d.source d.target = e.1 :=
    far_of_mem_foundTransitions (ofQuery_of_no_filter haccess) hd
  -- the entry of the domain found is kept whole
  have hkept (transition : OrdSet RuleId) :
      (p.foundTransitions q none start found transition).filter
          (fun d => q.direction.far d.source d.target = found) =
        p.foundTransitions q none start found transition :=
    List.filter_eq_self.mpr fun d hd => decide_eq_true (hfound (e := (found, transition)) hd)
  have hothers (e : TypeName × OrdSet RuleId) (hne : e.1 ≠ found) :
      (p.foundTransitions q none start e.1 e.2).filter
        (fun d => q.direction.far d.source d.target = found) = [] := by
    refine List.filter_eq_nil_iff.mpr fun d hd => ?_
    rw [decide_eq_true_eq, hfound hd]
    exact hne
  unfold transitionsAt transitionsBetween
  rw [List.filter_flatMap, OrdMap.flatMap_entries fun e _ => hothers e, get?_grants_start]
  cases (p.held (q.direction.near start found) "process" "transition").get?
      (q.direction.far start found) with
  | none => simp
  | some transition =>
    exact (hkept transition).trans (foundTransitions_of_no_filter hfilter transition)

/-- What a query without filters gives. -/
theorem transitions_of_no_filter (hstart : p.resolve q.start = some start)
    (haccess : q.hasAccessFilter = false) :
    p.transitions q = .ok (p.transitionsAt q none start) := by
  unfold transitions
  rw [hstart, ofQuery_of_no_filter haccess]
  rfl

end Policy

namespace GrantMemo

/-- **Searches from either end are dual.** With no filters, the search forward from one domain and the
search in reverse from another both succeed, and the transitions that the one gives to the other domain
are the transitions that the other gives from the one: the same, with the same rules, in the same
order. -/
theorem forward_reverse_dual {p : Policy} {a b : String} {s t : TypeName}
    (hs : p.resolve a = some s) (ht : p.resolve b = some t) (m m' : GrantMemo) :
    ∃ forward reverse,
      (m.analyze p { direction := .forward, start := a }).1 = .ok forward ∧
      (m'.analyze p { direction := .reverse, start := b }).1 = .ok reverse ∧
      forward.filter (fun d => d.target = t) = reverse.filter (fun d => d.source = s) := by
  let ahead : TransitionQuery := { direction := .forward, start := a }
  let back : TransitionQuery := { direction := .reverse, start := b }
  refine ⟨p.transitionsAt ahead none s, p.transitionsAt back none t, ?_, ?_, ?_⟩
  · rw [analyze_eq]
    exact Policy.transitions_of_no_filter hs rfl
  · rw [analyze_eq]
    exact Policy.transitions_of_no_filter ht rfl
  · -- either way, what is left is what there is between the two
    have hforward : (p.transitionsAt ahead none s).filter (fun d => d.target = t) =
        p.transitionsBetween s t := Policy.filter_transitionsAt (q := ahead) rfl rfl
    have hreverse : (p.transitionsAt back none t).filter (fun d => d.source = s) =
        p.transitionsBetween s t := Policy.filter_transitionsAt (q := back) rfl rfl
    rw [hforward, hreverse]

/-- Both searches of `Policy.sampleDomains` give the transition from `a` to `b`. -/
theorem sample_seen_from_both_ends :
    let p := Policy.sampleDomains
    let m := GrantMemo.ofConfig {}
    p.resolve "a" = some ⟨"a"⟩ ∧ p.resolve "b" = some ⟨"b"⟩ ∧
      ∃ forward reverse,
        (m.analyze p { direction := .forward, start := "a" }).1 = .ok forward ∧
        (m.analyze p { direction := .reverse, start := "b" }).1 = .ok reverse ∧
        forward.filter (fun d => d.target = ⟨"b"⟩) = reverse.filter (fun d => d.source = ⟨"a"⟩) ∧
        forward.filter (fun d => d.target = ⟨"b"⟩) = [DomainTransition.sample] := by
  intro p m
  have ha : p.resolve "a" = some ⟨"a"⟩ := by decide +kernel
  have hb : p.resolve "b" = some ⟨"b"⟩ := by decide +kernel
  obtain ⟨forward, reverse, hforward, hreverse, hdual⟩ := forward_reverse_dual ha hb m m
  refine ⟨ha, hb, forward, reverse, hforward, hreverse, hdual, ?_⟩
  have hok : (m.analyze p { direction := .forward, start := "a" }).1 = .ok [.sample] := by
    decide +kernel
  rw [Except.ok.inj (hforward.symm.trans hok)]
  decide +kernel

end GrantMemo

end PolicyReach
