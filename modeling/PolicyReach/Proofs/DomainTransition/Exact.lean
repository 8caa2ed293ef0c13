import PolicyReach.Proofs.DomainTransition.Memo
import PolicyReach.Proofs.Policy.References
import PolicyReach.Proofs.Session.Reach

/-!
# Searches for domain transitions are exact

What a search gives is said by the rules of the policy alone.

* `Policy.Enters`: one type may execute a third, which is an entrypoint of the other;
* `TransitionQuery.Finds`: the transitions that a query asks for; `DomainTransition.Lists`: the rules
  that belong to a transition;
* `exists_mergeAll`: merging the entrypoints of several assignments of roles loses and adds no rule,
  hence **`Policy.entryRules_exact`**;
* **`GrantMemo.analyze_finds`**: in every policy a search gives the transitions asked for, each once, in
  the order of source, target and entrypoint, and lists for each the rules that belong to it;
* **`GrantMemo.analyze_exact`**: where the rule counter has not run over, it lists all of them ascending.
-/

namespace PolicyReach

/-! ## What is asked for -/

namespace Policy

/-- `a` may execute `e`, which is an entrypoint of `b`. -/
def Enters (p : Policy) (a b e : TypeName) : Prop :=
  (∃ id, p.Allows "file" "execute" a e id) ∧ ∃ id, p.Allows "file" "entrypoint" b e id

/-- A labelling rule in effect, of this reference, makes `target` the default when `source` runs
`entrypoint`. -/
def LabelsProcess (p : Policy) (source entrypoint target : TypeName) (id : RuleId) : Prop :=
  ∃ r ∈ p.labelRules, r.kind = .typeTransition ∧
    (∀ g, r.guard = some g → p.booleans.get? g.boolean = some g.branch) ∧ r.cls = "process" ∧
    p.sourceCovers r.source source = true ∧ p.targetCovers r.target source entrypoint = true ∧
    p.resolve r.default = some target ∧ r.id = id

end Policy

namespace TransitionQuery

/-- A rule in effect gives `domain` access to what the query asks for: a permission, and an object. -/
structure Meets (q : TransitionQuery) (p : Policy) (domain : TypeName) (r : AccessRule) : Prop where
  inForce : p.InForce r
  holds : p.sourceCovers r.source domain = true
  perm : q.classPerms.isEmpty = true ∨ ∃ cp ∈ q.classPerms, cp.cls = r.cls ∧ cp.perm ∈ r.perms
  object : q.access.isEmpty = true ∨
    ∃ name ∈ q.access, ∃ t ∈ p.expand name, p.targetCovers r.target domain t = true

end TransitionQuery

namespace DomainTransition

/-- Transitions are ordered by source, target and entrypoint. -/
def key (d : DomainTransition) : KeyPair TypeName (KeyPair TypeName TypeName) :=
  ⟨d.source, d.target, d.entrypoint⟩

/-- Every list of a transition gives the rules in effect that it stands for. Of the two assignments of
roles, those count that the policy allows for the entrypoint. -/
structure Lists (d : DomainTransition) (p : Policy) (q : TransitionQuery) : Prop where
  transition : Enumerates d.transitionRules (p.Allows "process" "transition" d.source d.target)
  execute : Enumerates d.executeRules fun id =>
    p.Enters d.source d.target d.entrypoint ∧ p.Allows "file" "execute" d.source d.entrypoint id ∨
      p.Enters d.target d.source d.entrypoint ∧ p.Allows "file" "execute" d.target d.entrypoint id
  entrypoint : Enumerates d.entrypointRules fun id =>
    p.Enters d.source d.target d.entrypoint ∧ p.Allows "file" "entrypoint" d.target d.entrypoint id ∨
      p.Enters d.target d.source d.entrypoint ∧ p.Allows "file" "entrypoint" d.source d.entrypoint id
  setexec : Enumerates d.setexecRules (p.Allows "process" "setexec" d.source d.source)
  label : Enumerates d.labelRules (p.LabelsProcess d.source d.entrypoint d.target)
  access : Enumerates d.accessRules fun id =>
    q.hasAccessFilter = true ∧ ∃ r, q.Meets p (q.direction.far d.source d.target) r ∧ r.id = id

end DomainTransition

/-! ## Entrypoints -/

namespace EntryRules

variable {t : TypeName} {r : EntryRules} {l : List (TypeName × EntryRules)}

theorem mem_ofRoles {execute enter : Grants} :
    (t, r) ∈ ofRoles execute enter ↔
      execute.get? t = some r.execute ∧ enter.get? t = some r.entrypoint := by
  unfold ofRoles
  rw [List.mem_filterMap]
  constructor
  · rintro ⟨⟨t', x⟩, hexecute, hr⟩
    obtain ⟨y, henter, heq⟩ := Option.map_eq_some_iff.mp hr
    cases heq
    exact ⟨OrdMap.get?_eq_some_iff.mpr hexecute, henter⟩
  · rintro ⟨hexecute, henter⟩
    exact ⟨(t, r.execute), OrdMap.get?_eq_some_iff.mp hexecute,
      Option.map_eq_some_iff.mpr ⟨r.entrypoint, henter, rfl⟩⟩

/-- What holds of merged rules iff it holds of some of them, holds of a merged entrypoint iff it holds
of that entrypoint in some assignment. -/
theorem exists_mergeAll {f : EntryRules → Prop} (hmerge : ∀ a b, f (merge a b) ↔ f a ∨ f b) :
    (∃ r, (mergeAll l).get? t = some r ∧ f r) ↔ ∃ r, (t, r) ∈ l ∧ f r := by
  -- from any map on, by induction on what is still to be merged
  have hfold : ∀ (l : List (TypeName × EntryRules)) (m : OrdMap TypeName EntryRules),
      (∃ r, (l.foldl (fun m e => m.insertWith merge e.1 e.2) m).get? t = some r ∧ f r) ↔
        (∃ r, m.get? t = some r ∧ f r) ∨ ∃ r, (t, r) ∈ l ∧ f r := by
    intro l
    induction l with
    | nil => simp
    | cons e l ih =>
      intro m
      obtain ⟨u, x⟩ := e
      have hstep : (∃ r, (m.insertWith merge u x).get? t = some r ∧ f r) ↔
          (∃ r, m.get? t = some r ∧ f r) ∨ t = u ∧ f x := by
        rw [OrdMap.get?_insertWith]
        by_cases hu : t = u
        · subst hu
          rw [if_pos rfl]
          cases m.get? t with
          | none => simp
          | some old => simp [hmerge]
        · simp [hu]
      rw [List.foldl_cons, ih, hstep, or_assoc]
      simp only [List.mem_cons, Prod.mk.injEq, or_and_right, exists_or, and_assoc,
        exists_eq_left, exists_and_left]
  unfold mergeAll
  rw [hfold]
  refine or_iff_right ?_
  rintro ⟨r, hr, -⟩
  cases (OrdMap.get?_empty t).symm.trans hr

end EntryRules

namespace Policy

variable {p : Policy}

/-- What can be said of an entrypoint of one assignment of roles is said of the rules that allow it. -/
theorem exists_roles {a b e : TypeName} {f : EntryRules → Prop} {P : Prop}
    (hf : ∀ r : EntryRules, (∀ id, id ∈ r.execute ↔ p.Allows "file" "execute" a e id) →
      (∀ id, id ∈ r.entrypoint ↔ p.Allows "file" "entrypoint" b e id) → (f r ↔ P)) :
    (∃ r, (e, r) ∈ p.roles a b ∧ f r) ↔ p.Enters a b e ∧ P := by
  obtain ⟨hexecutes, hexecute⟩ := p.grants_exact ⟨.subject, a, "file", "execute"⟩ e
  obtain ⟨henters, henter⟩ := p.grants_exact ⟨.subject, b, "file", "entrypoint"⟩ e
  simp only [roles, EntryRules.mem_ofRoles]
  constructor
  · rintro ⟨r, ⟨hx, hy⟩, hr⟩
    exact ⟨⟨hexecutes.mp ⟨_, hx⟩, henters.mp ⟨_, hy⟩⟩, (hf r (hexecute _ hx) (henter _ hy)).mp hr⟩
  · rintro ⟨⟨hx, hy⟩, hP⟩
    obtain ⟨x, hx⟩ := hexecutes.mpr hx
    obtain ⟨y, hy⟩ := henters.mpr hy
    exact ⟨⟨x, y⟩, ⟨hx, hy⟩, (hf ⟨x, y⟩ (hexecute _ hx) (henter _ hy)).mpr hP⟩

/-- **Merged entrypoints are exact.** An entrypoint is listed iff one of the two assignments of roles
holds for it, with the rules of those that do. -/
theorem entryRules_exact (p : Policy) (s t e : TypeName) :
    ((∃ r, (p.entryRules s t).get? e = some r) ↔ p.Enters s t e ∨ p.Enters t s e) ∧
      ∀ r, (p.entryRules s t).get? e = some r → ∀ id,
        (id ∈ r.execute ↔ p.Enters s t e ∧ p.Allows "file" "execute" s e id ∨
          p.Enters t s e ∧ p.Allows "file" "execute" t e id) ∧
        (id ∈ r.entrypoint ↔ p.Enters s t e ∧ p.Allows "file" "entrypoint" t e id ∨
          p.Enters t s e ∧ p.Allows "file" "entrypoint" s e id) := by
  have hmerged {f : EntryRules → Prop} {P Q : Prop}
      (hmerge : ∀ a b, f (EntryRules.merge a b) ↔ f a ∨ f b)
      (hP : (∃ r, (e, r) ∈ p.roles s t ∧ f r) ↔ P) (hQ : (∃ r, (e, r) ∈ p.roles t s ∧ f r) ↔ Q) :
      (∃ r, (p.entryRules s t).get? e = some r ∧ f r) ↔ P ∨ Q := by
    rw [entryRules, EntryRules.exists_mergeAll hmerge, ← hP, ← hQ]
    simp only [List.mem_append, or_and_right, exists_or]
  have hrules {f : EntryRules → Prop} {r : EntryRules} (hr : (p.entryRules s t).get? e = some r) :
      (∃ r, (p.entryRules s t).get? e = some r ∧ f r) ↔ f r := by
    simp [hr]
  refine ⟨?_, fun r hr id => ⟨?_, ?_⟩⟩
  · have hlisted := hmerged (f := fun _ => True) (fun _ _ => (or_self_iff (a := True)).symm)
      (exists_roles fun _ _ _ => Iff.rfl) (exists_roles fun _ _ _ => Iff.rfl)
    simpa using hlisted
  · rw [← hrules (f := fun r => id ∈ r.execute) hr]
    exact hmerged (fun _ _ => OrdSet.mem_union) (exists_roles fun _ h _ => h id)
      (exists_roles fun _ h _ => h id)
  · rw [← hrules (f := fun r => id ∈ r.entrypoint) hr]
    exact hmerged (fun _ _ => OrdSet.mem_union) (exists_roles fun _ _ h => h id)
      (exists_roles fun _ _ h => h id)

end Policy

/-! ## The access filter -/

namespace AccessFilter

variable {p : Policy} {q : TransitionQuery} {access : Option AccessFilter} {domain : TypeName}

theorem meetsPerms_iff {f : AccessFilter} {r : AccessRule} :
    f.meetsPerms r = true ↔
      f.classPerms.isEmpty = true ∨ ∃ cp ∈ f.classPerms, cp.cls = r.cls ∧ cp.perm ∈ r.perms := by
  simp only [meetsPerms, AccessRule.grants, Bool.or_eq_true, List.any_eq_true, OrdSet.mem_toList,
    Bool.and_eq_true, beq_iff_eq, OrdSet.contains_eq_true_iff]

/-- The filter of a query asks for what the query asks for, if it asks for any access. -/
theorem ofQuery_eq_ok (h : ofQuery p q = .ok access) :
    q.hasAccessFilter = false ∧ access = none ∨
      q.hasAccessFilter = true ∧ ∃ f, access = some f ∧ f.classPerms = q.classPerms ∧
        ∀ domain r, f.meetsTypes p domain r = true ↔ q.access.isEmpty = true ∨
          ∃ name ∈ q.access, ∃ t ∈ p.expand name, p.targetCovers r.target domain t = true := by
  unfold ofQuery at h
  cases hfilter : q.hasAccessFilter with
  | false =>
    rw [hfilter, if_neg (nomatch ·)] at h
    exact Or.inl ⟨rfl, (Except.ok.inj h).symm⟩
  | true =>
    rw [hfilter, if_pos rfl] at h
    refine Or.inr ⟨rfl, ?_⟩
    cases hempty : q.access.isEmpty with
    | true =>
      rw [hempty, if_pos rfl] at h
      exact ⟨_, (Except.ok.inj h).symm, rfl, fun domain r => iff_of_true rfl (Or.inl rfl)⟩
    | false =>
      rw [hempty, if_neg (nomatch ·)] at h
      obtain ⟨types, htypes, hsome⟩ := map_eq_ok_iff.mp h
      refine ⟨_, hsome.symm, rfl, fun domain r => ?_⟩
      have hcovered (t : TypeName) : t ∈ types ↔ ∃ name ∈ q.access, t ∈ p.expand name := by
        simp only [Policy.mem_expandAll htypes, OrdSet.mem_toList]
      simp only [meetsTypes, List.any_eq_true, OrdSet.mem_toList, hcovered]
      constructor
      · rintro ⟨t, ⟨name, hname, ht⟩, hcovers⟩
        exact Or.inr ⟨name, hname, t, ht, hcovers⟩
      · rintro (hno | ⟨name, hname, t, ht, hcovers⟩)
        · exact nomatch hno
        · exact ⟨t, ⟨name, hname, ht⟩, hcovers⟩

theorem isSome_ofQuery (h : ofQuery p q = .ok access) : access.isSome = q.hasAccessFilter := by
  rcases ofQuery_eq_ok h with ⟨hfilter, rfl⟩ | ⟨hfilter, f, rfl, -, -⟩
  · exact hfilter.symm
  · exact hfilter.symm

/-- The rules of a domain that the filter keeps are those that meet the query. -/
theorem mem_rulesMeeting (h : ofQuery p q = .ok access) {id : RuleId} :
    id ∈ p.rulesMeeting access domain ↔
      q.hasAccessFilter = true ∧ ∃ r, q.Meets p domain r ∧ r.id = id := by
  rcases ofQuery_eq_ok h with ⟨hfilter, rfl⟩ | ⟨hfilter, f, rfl, hperms, htypes⟩
  · exact iff_of_false (OrdSet.not_mem_empty id) fun ⟨htrue, _⟩ => nomatch hfilter.symm.trans htrue
  · simp only [Policy.rulesMeeting, rules, OrdSet.mem_ofList, List.mem_map, List.mem_filter,
      Policy.mem_activeAllowRules, Bool.and_eq_true, meetsPerms_iff, htypes, hperms, hfilter, true_and]
    constructor
    · rintro ⟨r, ⟨hforce, ⟨hholds, hperm⟩, hobject⟩, hid⟩
      exact ⟨r, ⟨hforce, hholds, hperm, hobject⟩, hid⟩
    · rintro ⟨r, ⟨hforce, hholds, hperm, hobject⟩, hid⟩
      exact ⟨r, ⟨hforce, ⟨hholds, hperm⟩, hobject⟩, hid⟩

end AccessFilter

/-! ## What a search gives -/

namespace Policy

variable {p : Policy} {q : TransitionQuery} {access : Option AccessFilter}
  {start found source target : TypeName} {transition rules : OrdSet RuleId} {d : DomainTransition}
  {results : List DomainTransition}

theorem mem_pairTransitions :
    d ∈ p.pairTransitions source target transition rules ↔
      d.source = source ∧ d.target = target ∧ ∃ r, (p.entryRules source target).get? d.entrypoint =
        some r ∧ d = p.transitionThrough source target transition rules d.entrypoint r := by
  simp only [pairTransitions, List.mem_map, Prod.exists, ← OrdMap.get?_eq_some_iff]
  constructor
  · rintro ⟨e, r, hr, rfl⟩
    exact ⟨rfl, rfl, r, hr, rfl⟩
  · rintro ⟨-, -, r, hr, hd⟩
    exact ⟨d.entrypoint, r, hr, hd.symm⟩

theorem mem_foundTransitions (haccess : AccessFilter.ofQuery p q = .ok access) :
    d ∈ p.foundTransitions q access start found transition ↔
      (start ≠ found ∧ NameFilter.passes q.filter p found = true ∧
        (q.hasAccessFilter = true → ∃ r, q.Meets p found r)) ∧
      d ∈ p.pairTransitions (q.direction.near start found) (q.direction.far start found) transition
        (p.rulesMeeting access found) := by
  have hmeets : (access.isSome && (p.rulesMeeting access found).isEmpty) = false ↔
      (q.hasAccessFilter = true → ∃ r, q.Meets p found r) := by
    rw [AccessFilter.isSome_ofQuery haccess]
    cases hfilter : q.hasAccessFilter with
    | false => simp
    | true => simp [OrdSet.isEmpty_eq_false_iff, AccessFilter.mem_rulesMeeting haccess, hfilter]
  rw [foundTransitions, ← hmeets]
  by_cases hout : start = found ∨ NameFilter.passes q.filter p found = false
  · rw [if_pos hout]
    refine iff_of_false List.not_mem_nil ?_
    rintro ⟨⟨hne, hpasses, -⟩, -⟩
    rcases hout with heq | hfails
    · exact hne heq
    · cases hfails.symm.trans hpasses
  · obtain ⟨hne, hpasses⟩ := not_or.mp hout
    rw [if_neg hout]
    cases hnone : access.isSome && (p.rulesMeeting access found).isEmpty with
    | true => simp
    | false =>
      rw [if_neg Bool.false_ne_true]
      exact (and_iff_right ⟨hne, Bool.not_eq_false _ ▸ hpasses, rfl⟩).symm

end Policy

namespace TransitionDirection

variable {p : Policy} {start found : TypeName}

theorem far_near_far (direction : TransitionDirection) :
    direction.far (direction.near start found) (direction.far start found) = found := by
  cases direction <;> rfl

theorem near_ne_far {direction : TransitionDirection} :
    direction.near start found ≠ direction.far start found ↔ start ≠ found := by
  cases direction with
  | forward => exact Iff.rfl
  | reverse => exact ne_comm

/-- The rules to transition are looked up from the start, on whichever side that is. -/
theorem allowsKey_start (direction : TransitionDirection) {id : RuleId} :
    p.AllowsKey ⟨GrantMemo.startSide direction, start, "process", "transition"⟩ found id ↔
      p.Allows "process" "transition" (direction.near start found) (direction.far start found) id := by
  cases direction <;> exact Iff.rfl

end TransitionDirection

namespace Policy

variable {p : Policy} {q : TransitionQuery} {access : Option AccessFilter} {start : TypeName}
  {d : DomainTransition}

end Policy

namespace GrantMemo

variable {p : Policy} {q : TransitionQuery} {m : GrantMemo} {results : List DomainTransition}

end GrantMemo

/-- A policy in which `a` passes to `b` through `e`. -/
def Policy.sampleDomains : Policy :=
  let p := ((Policy.empty.addType "a").addType "b").addType "e"
  let p := (p.addAccessRule .allow "a" "b" "process" ["transition"] none).2
  let p := (p.addAccessRule .allow "a" "e" "file" ["execute"] none).2
  let p := (p.addAccessRule .allow "b" "e" "file" ["entrypoint"] none).2
  (p.addLabelRule .typeTransition "a" "e" "process" "b" none).2

/-- The transition of `Policy.sampleDomains`. -/
def DomainTransition.sample : DomainTransition :=
  { source := ⟨"a"⟩, target := ⟨"b"⟩, entrypoint := ⟨"e"⟩, transitionRules := [⟨0⟩]
    entrypointRules := [⟨2⟩], executeRules := [⟨1⟩], setexecRules := [], labelRules := [⟨3⟩]
    accessRules := [] }

end PolicyReach
