import PolicyReach.Relabel
import PolicyReach.Proofs.Grants

/-!
# What is found between a subject and an object type

An analysis of relabelling collects rules pair by pair: for each type on the other side of its start
type, the rules that let the subject relabel objects to the object type and those that let it relabel
them from it.

* `RelabelWay`: the two permissions, so that what holds of both lists of rules is said once;
* `Policy.Relabels`: a rule in effect, of a class that counts, grants a way;
* **`Policy.relabelGrants_exact`**: what is collected for a pair is exactly the rules that grant each
  way, whichever side of the rules the analysis starts at.
-/

namespace PolicyReach

/-- The ways of relabelling objects: to a type and from it. -/
inductive RelabelWay where
  | toType
  | fromType
  deriving DecidableEq

namespace RelabelWay

/-- The permission that it takes. -/
def perm : RelabelWay → String
  | .toType => "relabelto"
  | .fromType => "relabelfrom"

/-- The other way. -/
def other : RelabelWay → RelabelWay
  | .toType => .fromType
  | .fromType => .toType

/-- What holds of a way and of the other one holds of all. -/
theorem forall_iff {P : RelabelWay → Prop} (w : RelabelWay) : (∀ v, P v) ↔ P w ∧ P w.other := by
  refine ⟨fun h => ⟨h w, h w.other⟩, fun ⟨h, hother⟩ v => ?_⟩
  cases w <;> cases v <;> assumption

theorem exists_iff {P : RelabelWay → Prop} (w : RelabelWay) : (∃ v, P v) ↔ P w ∨ P w.other := by
  refine ⟨fun ⟨v, h⟩ => ?_, fun h => h.elim (⟨w, ·⟩) (⟨w.other, ·⟩)⟩
  cases w <;> cases v <;> first | exact Or.inl h | exact Or.inr h

end RelabelWay

namespace Policy

/-- A rule in effect, of this reference and of a class that counts, lets `s` relabel objects to or from
type `o`. Every class counts if the set is empty. -/
def Relabels (p : Policy) (classes : OrdSet String) (w : RelabelWay) (s o : TypeName) (id : RuleId) :
    Prop :=
  ∃ r, p.InForce r ∧ (classes.isEmpty = true ∨ r.cls ∈ classes) ∧ w.perm ∈ r.perms ∧ p.Covers r s o ∧
    r.id = id

/-- Some rule lets `s` relabel objects to or from type `o`. -/
def CanRelabel (p : Policy) (classes : OrdSet String) (w : RelabelWay) (s o : TypeName) : Prop :=
  ∃ id, p.Relabels classes w s o id

/-- The pair of a subject and an object type in which `t` is on `side` and `u` on the other side. -/
def pairAt (side : Side) (t u : TypeName) : TypeName × TypeName :=
  match side with
  | .subject => (t, u)
  | .object => (u, t)

end Policy

/-! ## The rules of one pair -/

namespace PairGrants

variable {g : PairGrants} {w : RelabelWay}

/-- The rules that grant a way. -/
def rules (g : PairGrants) : RelabelWay → OrdSet RuleId
  | .toType => g.toRules
  | .fromType => g.fromRules

theorem not_mem_rules_empty (w : RelabelWay) (id : RuleId) : id ∉ ({} : PairGrants).rules w := by
  cases w <;> exact OrdSet.not_mem_empty id

theorem mem_rules_add {r : AccessRule} {id : RuleId} :
    id ∈ (g.add r).rules w ↔ id ∈ g.rules w ∨ w.perm ∈ r.perms ∧ r.id = id := by
  have hinsert (perm : String) (s : OrdSet RuleId) :
      (id ∈ if r.grants perm then s.insert r.id else s) ↔ id ∈ s ∨ perm ∈ r.perms ∧ r.id = id := by
    rw [← OrdSet.contains_eq_true_iff (s := r.perms), AccessRule.grants]
    split
    · rename_i hgrants
      rw [OrdSet.mem_insert, hgrants, or_comm, eq_comm (a := id), and_iff_right rfl]
    · rename_i hgrants
      exact (or_iff_left fun h => hgrants h.1).symm
  cases w with
  | toType => exact hinsert _ _
  | fromType => exact hinsert _ _

theorem isTwoWay_iff : g.isTwoWay = true ↔ ∀ w, ∃ id, id ∈ g.rules w := by
  rw [RelabelWay.forall_iff .toType, isTwoWay, Bool.and_eq_true, Bool.not_eq_true', Bool.not_eq_true',
    OrdSet.isEmpty_eq_false_iff, OrdSet.isEmpty_eq_false_iff]
  rfl

end PairGrants

/-! ## The rules of all pairs -/

namespace Policy

/-- What has been collected for a type so far. -/
def foundFor (m : OrdMap TypeName PairGrants) (u : TypeName) : PairGrants := (m.get? u).getD {}

variable {p : Policy} {classes : OrdSet String} {side : Side} {t u : TypeName} {w : RelabelWay}
  {id : RuleId} {m : OrdMap TypeName PairGrants}

theorem exists_of_mem_foundFor (h : id ∈ (foundFor m u).rules w) :
    ∃ g, m.get? u = some g ∧ id ∈ g.rules w := by
  unfold foundFor at h
  cases hg : m.get? u with
  | none =>
    rw [hg] at h
    exact absurd h (PairGrants.not_mem_rules_empty w id)
  | some g =>
    rw [hg] at h
    exact ⟨g, rfl, h⟩

theorem opposite?_eq_some_iff {pair : TypeName × TypeName} :
    opposite? side t pair = some u ↔ pair = pairAt side t u := by
  obtain ⟨s, o⟩ := pair
  cases side with
  | subject => simp [opposite?, pairAt]
  | object => simp [opposite?, pairAt, and_comm]

/-- A rule is found under the types that it covers together with the start type. -/
theorem mem_opposites {r : AccessRule} :
    u ∈ (p.rulePairs r.source r.target).filterMap (opposite? side t) ↔
      p.Covers r (pairAt side t u).1 (pairAt side t u).2 := by
  simp only [List.mem_filterMap, opposite?_eq_some_iff, exists_eq_right]
  exact mem_rulePairs

/-- The grants with a rule added for each type of a list. -/
def collect (r : AccessRule) (m : OrdMap TypeName PairGrants) (types : List TypeName) :
    OrdMap TypeName PairGrants :=
  types.foldl (fun m other => m.insert other ((foundFor m other).add r)) m

theorem mem_foundFor_collect {r : AccessRule} {types : List TypeName} :
    id ∈ (foundFor (collect r m types) u).rules w ↔
      id ∈ (foundFor m u).rules w ∨ u ∈ types ∧ w.perm ∈ r.perms ∧ r.id = id := by
  unfold collect
  induction types generalizing m with
  | nil => simp
  | cons v types ih =>
    have hstep : id ∈ (foundFor (m.insert v ((foundFor m v).add r)) u).rules w ↔
        id ∈ (foundFor m u).rules w ∨ u = v ∧ w.perm ∈ r.perms ∧ r.id = id := by
      by_cases hu : u = v
      · subst hu
        rw [foundFor, OrdMap.get?_insert, if_pos rfl, Option.getD_some, PairGrants.mem_rules_add,
          and_iff_right rfl]
      · rw [foundFor, OrdMap.get?_insert, if_neg hu]
        exact (or_iff_left fun h => hu h.1).symm
    rw [List.foldl_cons, ih, hstep, List.mem_cons, or_assoc, or_and_right]

/-- By induction on the rules: each adds its reference to what was found under the types it covers. -/
theorem mem_foundFor_fold {l : List AccessRule} :
    id ∈ (foundFor (l.foldl (fun m r => collect r m
        ((p.rulePairs r.source r.target).filterMap (opposite? side t))) m) u).rules w ↔
      id ∈ (foundFor m u).rules w ∨ ∃ r ∈ l,
        p.Covers r (pairAt side t u).1 (pairAt side t u).2 ∧ w.perm ∈ r.perms ∧ r.id = id := by
  induction l generalizing m with
  | nil => simp
  | cons r l ih =>
    rw [List.foldl_cons, ih, mem_foundFor_collect, mem_opposites]
    simp only [List.mem_cons, exists_eq_or_imp, or_assoc]

theorem relabels_iff {r : AccessRule} :
    relabels classes r = true ↔
      (classes.isEmpty = true ∨ r.cls ∈ classes) ∧ ∃ w : RelabelWay, w.perm ∈ r.perms := by
  rw [RelabelWay.exists_iff .toType]
  simp only [relabels, AccessRule.grants, Bool.and_eq_true, Bool.or_eq_true,
    OrdSet.contains_eq_true_iff]
  exact Iff.rfl

theorem mem_foundFor_relabelGrants :
    id ∈ (foundFor (p.relabelGrants classes side t) u).rules w ↔
      p.Relabels classes w (pairAt side t u).1 (pairAt side t u).2 id := by
  have hempty : id ∉ (foundFor ∅ u).rules w := by
    rw [foundFor, show (∅ : OrdMap TypeName PairGrants).get? u = none from OrdMap.get?_empty u]
    exact PairGrants.not_mem_rules_empty w id
  refine (mem_foundFor_fold (m := ∅)).trans ((or_iff_right hempty).trans ?_)
  simp only [List.mem_filter, mem_activeAllowRules, relabels_iff, Relabels]
  constructor
  · rintro ⟨r, ⟨hforce, hclass, -⟩, hcovers, hperm, hid⟩
    exact ⟨r, hforce, hclass, hperm, hcovers, hid⟩
  · rintro ⟨r, hforce, hclass, hperm, hcovers, hid⟩
    exact ⟨r, ⟨hforce, hclass, w, hperm⟩, hcovers, hperm, hid⟩

/-- **What is collected for a pair is exact.** A type found holds, for each way, the rules that grant it
between the start type and that type; and it is found if there is such a rule. -/
theorem relabelGrants_exact (p : Policy) (classes : OrdSet String) (side : Side) (t u : TypeName) :
    (∀ g, (p.relabelGrants classes side t).get? u = some g → ∀ w id,
        id ∈ g.rules w ↔ p.Relabels classes w (pairAt side t u).1 (pairAt side t u).2 id) ∧
      ∀ w, p.CanRelabel classes w (pairAt side t u).1 (pairAt side t u).2 →
        ∃ g, (p.relabelGrants classes side t).get? u = some g := by
  refine ⟨fun g hg w id => ?_, fun w ⟨id, hid⟩ => ?_⟩
  · rw [← mem_foundFor_relabelGrants, foundFor, hg, Option.getD_some]
  · obtain ⟨g, hg, -⟩ := exists_of_mem_foundFor (mem_foundFor_relabelGrants.mpr hid)
    exact ⟨g, hg⟩

end Policy

end PolicyReach
