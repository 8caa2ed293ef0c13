import Mathlib.Data.List.Nodup
import PolicyReach.Proofs.Relabel.PairGrants

/-!
# All readings of what a rule covers agree

What the fields of a rule cover is read in four places: the pairs of the rule, which analyses of flows and
of relabelling go through; the tests of its source and of its target; and the lookups of grants from the
side of the subject and from the side of the object. Attributes and `self` are read anew in each.

* `count_rulePairs`: a pair is covered once if the tests pass, and not at all else;
* `Policy.rulesBetween`: the rules in effect, of a class and with a permission, whose pairs hold a pair;
* `get?_grants`: a lookup groups these under the type on the other side, from either side;
* `get?_relabelGrants`: what is collected for relabelling between two types is the same from either side;
* **`Policy.coverage_agrees`**: all of it together.
-/

namespace PolicyReach

namespace Policy

variable {p : Policy} {source target : String} {s t u : TypeName} {side : Side} {cls perm : String}

/-! ## Pairs and tests -/

theorem mem_rulePairs_iff_covers :
    (s, t) ∈ p.rulePairs source target ↔
      (p.sourceCovers source s && p.targetCovers target s t) = true := by
  rw [Bool.and_eq_true, sourceCovers_iff, targetCovers_iff, mem_rulePairs_fields]

/-- No pair is repeated: the sources are distinct, and so are the targets of each. -/
theorem nodup_rulePairs (p : Policy) (source target : String) : (p.rulePairs source target).Nodup := by
  have hsources := OrdSet.nodup_toList (p.expand source)
  unfold rulePairs
  simp only
  split
  · exact List.Nodup.map (fun a b h => (Prod.mk.inj h).1) hsources
  · exact List.Nodup.product hsources (OrdSet.nodup_toList (p.expand target))

theorem count_rulePairs (p : Policy) (source target : String) (s t : TypeName) :
    (p.rulePairs source target).count (s, t) =
      if p.sourceCovers source s && p.targetCovers target s t then 1 else 0 := by
  rw [(nodup_rulePairs p source target).count]
  simp only [mem_rulePairs_iff_covers]

/-! ## Lookups from either side -/

/-- The allow rules in effect, of a class and with a permission, whose pairs hold a pair of types. -/
def rulesBetween (p : Policy) (cls perm : String) (s t : TypeName) : OrdSet RuleId :=
  .ofList ((p.activeAllowRules.filter fun r =>
    r.cls == cls && r.grants perm && (p.rulePairs r.source r.target).contains (s, t)).map AccessRule.id)

theorem mem_rulesBetween {id : RuleId} :
    id ∈ p.rulesBetween cls perm s t ↔ p.Allows cls perm s t id := by
  unfold rulesBetween Allows
  simp only [OrdSet.mem_ofList, List.mem_map, List.mem_filter, mem_activeAllowRules, Bool.and_eq_true,
    beq_iff_eq, AccessRule.grants, OrdSet.contains_eq_true_iff, List.contains_iff_mem, mem_rulePairs,
    Covers, and_assoc]

/-- A lookup groups under a type the rules between it and the type that is asked for; a type without
such rules is not listed. -/
theorem get?_grants (p : Policy) (side : Side) (cls perm : String) (t u : TypeName) :
    (p.grants ⟨side, t, cls, perm⟩).get? u =
      let rules := p.rulesBetween cls perm (pairAt side t u).1 (pairAt side t u).2
      if rules.isEmpty then none else some rules := by
  have hkey (id : RuleId) : id ∈ p.rulesBetween cls perm (pairAt side t u).1 (pairAt side t u).2 ↔
      p.AllowsKey ⟨side, t, cls, perm⟩ u id := by
    cases side with
    | subject => exact mem_rulesBetween
    | object => exact mem_rulesBetween
  obtain ⟨hlisted, hrules⟩ := grants_exact p ⟨side, t, cls, perm⟩ u
  simp only
  cases hget : (p.grants ⟨side, t, cls, perm⟩).get? u with
  | none =>
    have hnone : ¬ ∃ id, id ∈ p.rulesBetween cls perm (pairAt side t u).1 (pairAt side t u).2 := by
      simpa [hget, hkey] using hlisted
    rw [← OrdSet.isEmpty_eq_false_iff, Bool.not_eq_false] at hnone
    rw [if_pos hnone]
  | some rules =>
    have heq : rules = p.rulesBetween cls perm (pairAt side t u).1 (pairAt side t u).2 :=
      OrdSet.ext fun id => (hrules rules hget id).trans (hkey id).symm
    have hsome : rules.isEmpty = false := OrdSet.isEmpty_eq_false_iff.mpr (tight_grants p _ u rules hget)
    rw [← heq, hsome]
    rfl

/-! ## What is collected for relabelling -/

section Relabelling

variable {classes : OrdSet String} {r : AccessRule} {m : OrdMap TypeName PairGrants}

theorem get?_collect_of_not_mem {types : List TypeName} (h : u ∉ types) :
    (collect r m types).get? u = m.get? u := by
  unfold collect
  induction types generalizing m with
  | nil => rfl
  | cons v types ih =>
    rw [List.mem_cons, not_or] at h
    rw [List.foldl_cons, ih h.2, OrdMap.get?_insert, if_neg h.1]

theorem get?_collect {types : List TypeName} (hnodup : types.Nodup) :
    (collect r m types).get? u = if u ∈ types then some ((foundFor m u).add r) else m.get? u := by
  induction types generalizing m with
  | nil => simp [collect]
  | cons v types ih =>
    obtain ⟨hv, htypes⟩ := List.nodup_cons.mp hnodup
    by_cases hu : u = v
    · subst hu
      rw [if_pos List.mem_cons_self]
      refine (get?_collect_of_not_mem hv).trans ?_
      rw [OrdMap.get?_insert, if_pos rfl]
    · have hother : (m.insert v ((foundFor m v).add r)).get? u = m.get? u := by
        rw [OrdMap.get?_insert, if_neg hu]
      refine (ih htypes).trans ?_
      rw [foundFor, hother]
      simp only [List.mem_cons, or_iff_right hu, foundFor]

/-- The types on the other side of a rule are distinct, since its pairs are. -/
theorem nodup_opposites (p : Policy) (r : AccessRule) (side : Side) (t : TypeName) :
    ((p.rulePairs r.source r.target).filterMap (opposite? side t)).Nodup := by
  refine List.Nodup.filterMap (fun a b u ha hb => ?_) (nodup_rulePairs p r.source r.target)
  rw [Option.mem_def, opposite?_eq_some_iff] at ha hb
  exact ha.trans hb.symm

/-- By induction on the rules: a rule adds to what is found under `t` from `s` if it covers both, and
then it adds the same to what is found under `s` from `t`. -/
theorem get?_relabelGrants (p : Policy) (classes : OrdSet String) (s t : TypeName) :
    (p.relabelGrants classes .subject s).get? t = (p.relabelGrants classes .object t).get? s := by
  have hfold : ∀ (rules : List AccessRule) (m m' : OrdMap TypeName PairGrants), m.get? t = m'.get? s →
      (rules.foldl (fun m r => collect r m
        ((p.rulePairs r.source r.target).filterMap (opposite? .subject s))) m).get? t =
      (rules.foldl (fun m r => collect r m
        ((p.rulePairs r.source r.target).filterMap (opposite? .object t))) m').get? s := by
    intro rules
    induction rules with
    | nil => exact fun m m' h => h
    | cons r rules ih =>
      intro m m' h
      have hboth : t ∈ (p.rulePairs r.source r.target).filterMap (opposite? .subject s) ↔
          s ∈ (p.rulePairs r.source r.target).filterMap (opposite? .object t) := by
        rw [mem_opposites, mem_opposites]
        rfl
      refine ih _ _ ?_
      rw [get?_collect (nodup_opposites p r .subject s), get?_collect (nodup_opposites p r .object t)]
      simp only [hboth, foundFor, h]
  exact hfold _ ∅ ∅ ((OrdMap.get?_empty t).trans (OrdMap.get?_empty s).symm)

end Relabelling

/-- **All readings of what a rule covers agree.** The pairs of a source and a target hold a pair of types
if the tests of both pass, and hold it once then. The rules that a lookup from the side of the subject
groups under the object are those that a lookup from the side of the object groups under the subject:
the allow rules in effect, of the class and with the permission, whose pairs hold the two. What is
collected for relabelling is the same from either side as well. -/
theorem coverage_agrees (p : Policy) (s t : TypeName) :
    (∀ source target, (p.rulePairs source target).count (s, t) =
      if p.sourceCovers source s && p.targetCovers target s t then 1 else 0) ∧
    (∀ cls perm,
      (p.grants ⟨.subject, s, cls, perm⟩).get? t = (p.grants ⟨.object, t, cls, perm⟩).get? s ∧
      (p.grants ⟨.subject, s, cls, perm⟩).rules t = p.rulesBetween cls perm s t ∧
      (p.grants ⟨.object, t, cls, perm⟩).rules s = p.rulesBetween cls perm s t) ∧
    ∀ classes,
      (p.relabelGrants classes .subject s).get? t = (p.relabelGrants classes .object t).get? s := by
  refine ⟨fun source target => count_rulePairs p source target s t, fun cls perm => ⟨?_, ?_, ?_⟩,
    fun classes => get?_relabelGrants p classes s t⟩
  · exact (get?_grants p .subject cls perm s t).trans (get?_grants p .object cls perm t s).symm
  · exact OrdSet.ext fun id => mem_rules_grants.trans mem_rulesBetween.symm
  · exact OrdSet.ext fun id => mem_rules_grants.trans mem_rulesBetween.symm

end Policy

end PolicyReach
