import Mathlib.Data.List.Forall2
import PolicyReach.Proofs.Session.Reach
import PolicyReach.DomainTransition
import PolicyReach.Relabel

/-!
# Rules under other names of their types

A rule may name a type by its primary name or by any alias of it, and so may a query. Nothing that is read
off a policy tells the difference.

* `Policy.Alike`: two names are one, or find one type; `AlikeTarget` keeps the word `self` apart, which is no
  name where a rule has its target;
* `Policy.Renamed`: two policies declare the same, and their rules differ in alike names only;
* `Renamed.rulePairs`, `sourceCovers`, `targetCovers`, `expandAll`: what names cover;
* **`Renamed.flows`**, **`Renamed.grants`**, **`Renamed.relabelGrants`**, **`Renamed.transitionLabels`**: the
  tables that the analyses start from are the same, references of rules included.
-/

namespace PolicyReach

/-! ## What is related item by item -/

section Related

open List

variable {α β γ : Type} {R : α → β → Prop} {l : List α} {l' : List β}

theorem map_eq_of_forall₂ {f : α → γ} {g : β → γ} (hfg : ∀ a b, R a b → g b = f a)
    (h : Forall₂ R l l') : l'.map g = l.map f := by
  induction h with
  | nil => rfl
  | cons hab _ ih => rw [List.map_cons, List.map_cons, hfg _ _ hab, ih]

theorem flatMap_eq_of_forall₂ {f : α → List γ} {g : β → List γ} (hfg : ∀ a b, R a b → g b = f a)
    (h : Forall₂ R l l') : l'.flatMap g = l.flatMap f := by
  rw [List.flatMap_def, List.flatMap_def, map_eq_of_forall₂ hfg h]

theorem foldl_eq_of_forall₂ {f : γ → α → γ} {g : γ → β → γ} (hfg : ∀ c a b, R a b → g c b = f c a)
    (h : Forall₂ R l l') (c : γ) : l'.foldl g c = l.foldl f c := by
  induction h generalizing c with
  | nil => rfl
  | cons hab _ ih => rw [List.foldl_cons, List.foldl_cons, hfg c _ _ hab, ih]

theorem forall₂_filter {f : α → Bool} {g : β → Bool} (hfg : ∀ a b, R a b → g b = f a)
    (h : Forall₂ R l l') : Forall₂ R (l.filter f) (l'.filter g) :=
  rel_filter (R := R) (fun a b hab => iff_of_eq (congrArg (· = true) (hfg a b hab).symm)) h

theorem cases_of_rel {x : Option α} {y : Option β} (h : Option.Rel R x y) :
    (x = none ∧ y = none) ∨ ∃ a b, x = some a ∧ y = some b ∧ R a b := by
  cases h with
  | none => exact Or.inl ⟨rfl, rfl⟩
  | some h => exact Or.inr ⟨_, _, rfl, rfl, h⟩

end Related

/-! ## Names -/

namespace Policy

/-- Two names are one, or find one type. -/
def Alike (p : Policy) (n m : String) : Prop :=
  n = m ∨ ∃ t, p.resolve n = some t ∧ p.resolve m = some t

/-- Two names are alike where a rule has its target: none of them is `self` alone. -/
def AlikeTarget (p : Policy) (n m : String) : Prop :=
  (n = selfTarget ↔ m = selfTarget) ∧ p.Alike n m

/-- Every name on either list is alike to one on the other. -/
structure AlikeNames (p : Policy) (l l' : List String) : Prop where
  left : ∀ n ∈ l, ∃ m ∈ l', p.Alike n m
  right : ∀ m ∈ l', ∃ n ∈ l, p.Alike n m

end Policy

/-- Two access rules differ in alike names only. -/
structure AccessRule.Renamed (p : Policy) (r r' : AccessRule) : Prop where
  id : r'.id = r.id
  kind : r'.kind = r.kind
  source : p.Alike r.source r'.source
  target : p.AlikeTarget r.target r'.target
  cls : r'.cls = r.cls
  perms : r'.perms = r.perms
  guard : r'.guard = r.guard

/-- Two labelling rules differ in alike names only. -/
structure LabelRule.Renamed (p : Policy) (r r' : LabelRule) : Prop where
  id : r'.id = r.id
  kind : r'.kind = r.kind
  source : p.Alike r.source r'.source
  target : p.AlikeTarget r.target r'.target
  cls : r'.cls = r.cls
  default : p.Alike r.default r'.default
  guard : r'.guard = r.guard

theorem AccessRule.Renamed.grants {p : Policy} {r r' : AccessRule} (hr : r.Renamed p r')
    (perm : String) : r'.grants perm = r.grants perm := by
  rw [AccessRule.grants, AccessRule.grants, hr.perms]

namespace Policy

open List

/-- Two policies declare the same, and their rules differ in alike names only. -/
structure Renamed (p p' : Policy) : Prop where
  types : p'.types = p.types
  aliases : p'.aliases = p.aliases
  attributes : p'.attributes = p.attributes
  booleans : p'.booleans = p.booleans
  access : Forall₂ (AccessRule.Renamed p) p.accessRules.toList p'.accessRules.toList
  labels : Forall₂ (LabelRule.Renamed p) p.labelRules.toList p'.labelRules.toList

variable {p p' : Policy} {n m : String}

theorem Alike.refl (p : Policy) (n : String) : p.Alike n n := Or.inl rfl

theorem AlikeTarget.refl (p : Policy) (n : String) : p.AlikeTarget n n := ⟨Iff.rfl, .refl p n⟩

theorem Renamed.refl (p : Policy) : p.Renamed p where
  types := rfl
  aliases := rfl
  attributes := rfl
  booleans := rfl
  access := forall₂_same.mpr fun _ _ => ⟨rfl, rfl, .refl p _, .refl p _, rfl, rfl, rfl⟩
  labels := forall₂_same.mpr fun _ _ => ⟨rfl, rfl, .refl p _, .refl p _, rfl, .refl p _, rfl⟩

theorem AlikeNames.refl (p : Policy) (l : List String) : p.AlikeNames l l :=
  ⟨fun n hn => ⟨n, hn, .refl p n⟩, fun n hn => ⟨n, hn, .refl p n⟩⟩

theorem Alike.symm (h : p.Alike n m) : p.Alike m n :=
  h.imp Eq.symm fun ⟨t, hn, hm⟩ => ⟨t, hm, hn⟩

theorem Alike.resolve (h : p.Alike n m) : p.resolve m = p.resolve n := by
  obtain rfl | ⟨t, hn, hm⟩ := h
  · rfl
  · rw [hn, hm]

theorem Alike.expand (h : p.Alike n m) : p.expand m = p.expand n := by
  obtain rfl | ⟨t, hn, hm⟩ := h
  · rfl
  · simp only [Policy.expand, hn, hm]

/-- A name that covers nothing is alike to itself only. -/
theorem Alike.eq_of_isEmpty (h : p.Alike n m) (hempty : (p.expand n).isEmpty = true) : n = m := by
  obtain rfl | ⟨t, hn, -⟩ := h
  · rfl
  · have hsome : (p.expand n).isEmpty = false :=
      OrdSet.isEmpty_eq_false_iff.mpr ⟨t, by simp [Policy.expand, hn]⟩
    rw [hsome] at hempty
    exact nomatch hempty

/-- What names cover all together, unless one of them covers nothing: the first is the one reported. -/
theorem expandAll_eq (p : Policy) (names : List String) :
    p.expandAll names =
      match names.find? fun name => (p.expand name).isEmpty with
      | some name => .error (.unknownType name)
      | none => .ok (.ofList (names.flatMap fun name => (p.expand name).toList)) := by
  -- started at any set, the loop stops at the first name that covers nothing
  have hloop (names : List String) (seed : OrdSet TypeName) :
      (names.foldlM (fun types name =>
        let covered := p.expand name
        if covered.isEmpty then .error (.unknownType name) else .ok (types.union covered)) seed :
          Except AnalysisError (OrdSet TypeName)) =
        match names.find? fun name => (p.expand name).isEmpty with
        | some name => .error (.unknownType name)
        | none => .ok (names.foldl (fun types name => types.union (p.expand name)) seed) := by
    induction names generalizing seed with
    | nil => rfl
    | cons name names ih =>
      rw [List.foldlM_cons, List.find?_cons]
      dsimp only
      by_cases hempty : (p.expand name).isEmpty = true
      · rw [if_pos hempty, hempty]
        rfl
      · rw [if_neg hempty, Bool.eq_false_iff.mpr hempty]
        exact ih _
  have hnames : p.expandAll names = _ := hloop names ∅
  cases hfind : names.find? fun name => (p.expand name).isEmpty with
  | some name => rw [hnames, hfind]
  | none =>
    rw [hfind] at hnames
    rw [hnames]
    refine congrArg Except.ok (OrdSet.ext fun t => ?_)
    rw [mem_expandAll hnames, OrdSet.mem_ofList, List.mem_flatMap]
    simp only [OrdSet.mem_toList]

theorem AlikeNames.isEmpty {l l' : List String} (h : p.AlikeNames l l') : l'.isEmpty = l.isEmpty := by
  refine Bool.eq_iff_iff.mpr ?_
  simp only [List.isEmpty_iff, List.eq_nil_iff_forall_not_mem]
  exact ⟨fun hno n hn => (h.left n hn).elim fun m hm => hno m hm.1,
    fun hno m hm => (h.right m hm).elim fun n hn => hno n hn.1⟩

/-- Making a set of names keeps them alike. -/
theorem AlikeNames.ofList {l l' : List String} (h : p.AlikeNames l l') :
    p.AlikeNames (OrdSet.ofList l).toList (OrdSet.ofList l').toList := by
  constructor
  · simpa using h.left
  · simpa using h.right

/-! ## What names mean -/

namespace Renamed

variable (h : p.Renamed p')

include h

theorem resolve (name : String) : p'.resolve name = p.resolve name := by
  simp only [Policy.resolve, h.types, h.aliases]

theorem expand (name : String) : p'.expand name = p.expand name := by
  simp only [Policy.expand, h.resolve, h.attributes]

theorem resolve_alike (hn : p.Alike n m) : p'.resolve m = p.resolve n :=
  (h.resolve m).trans hn.resolve

theorem expand_alike (hn : p.Alike n m) : p'.expand m = p.expand n :=
  (h.expand m).trans hn.expand

theorem isActive (g : Option Guard) : p'.isActive g = p.isActive g := by
  simp only [Policy.isActive, Policy.boolean?, h.booleans]

/-- A type passes a filter under the same names. -/
theorem passes (f : Option NameFilter) (t : TypeName) :
    NameFilter.passes f p' t = NameFilter.passes f p t := by
  simp only [NameFilter.passes, NameFilter.accepts, aliasesOf, h.aliases]

theorem sourceCovers (hn : p.Alike n m) (t : TypeName) : p'.sourceCovers m t = p.sourceCovers n t := by
  simp only [Policy.sourceCovers, h.expand_alike hn]

theorem targetCovers (hn : p.AlikeTarget n m) (s t : TypeName) :
    p'.targetCovers m s t = p.targetCovers n s t := by
  simp only [Policy.targetCovers, h.expand_alike hn.2, hn.1]

theorem rulePairs {n' m' : String} (hs : p.Alike n m) (ht : p.AlikeTarget n' m') :
    p'.rulePairs m m' = p.rulePairs n n' := by
  simp only [Policy.rulePairs, h.expand_alike hs, h.expand_alike ht.2, ht.1]

/-- What a set of names covers, and the first of them that covers nothing. -/
theorem expandAll {names names' : OrdSet String} (hn : p.AlikeNames names.toList names'.toList) :
    p'.expandAll names'.toList = p.expandAll names.toList := by
  have hunknown :
      names'.filter (fun name => (p.expand name).isEmpty) =
        names.filter fun name => (p.expand name).isEmpty := by
    refine OrdSet.ext fun name => ?_
    rw [OrdSet.mem_filter, OrdSet.mem_filter, ← OrdSet.mem_toList, ← OrdSet.mem_toList]
    refine and_congr_left fun hempty => ⟨fun hname => ?_, fun hname => ?_⟩
    · obtain ⟨n, hn, halike⟩ := hn.right name hname
      exact halike.symm.eq_of_isEmpty hempty ▸ hn
    · obtain ⟨m, hm, halike⟩ := hn.left name hname
      exact halike.eq_of_isEmpty hempty ▸ hm
  have hfirst := congrArg (fun s : OrdSet String => s.toList.head?) hunknown
  simp only [OrdSet.toList_filter, List.head?_filter] at hfirst
  have htypes :
      OrdSet.ofList (names'.toList.flatMap fun name => (p.expand name).toList) =
        OrdSet.ofList (names.toList.flatMap fun name => (p.expand name).toList) := by
    refine OrdSet.ext fun t => ?_
    simp only [OrdSet.mem_ofList, List.mem_flatMap]
    constructor
    · rintro ⟨m, hm, ht⟩
      obtain ⟨n, hn, halike⟩ := hn.right m hm
      exact ⟨n, hn, halike.expand ▸ ht⟩
    · rintro ⟨n, hn', ht⟩
      obtain ⟨m, hm, halike⟩ := hn.left n hn'
      exact ⟨m, hm, halike.expand.symm ▸ ht⟩
  rw [expandAll_eq, expandAll_eq]
  simp only [h.expand, hfirst, htypes]

/-- A boolean is set for both. -/
theorem setBoolean (name : String) (value : Bool) :
    (p.setBoolean name value).2.Renamed (p'.setBoolean name value).2 := by
  unfold Policy.setBoolean
  rw [h.booleans]
  split
  · have hbooleans : (p'.addBoolean name value).booleans = (p.addBoolean name value).booleans := by
      simp only [addBoolean, h.booleans]
    exact ⟨h.types, h.aliases, h.attributes, hbooleans,
      h.access.imp fun _ _ hr => ⟨hr.id, hr.kind, hr.source, hr.target, hr.cls, hr.perms, hr.guard⟩,
      h.labels.imp fun _ _ hr =>
        ⟨hr.id, hr.kind, hr.source, hr.target, hr.cls, hr.default, hr.guard⟩⟩
  · exact h

/-! ## The rules in effect -/

theorem activeAllowRules :
    Forall₂ (AccessRule.Renamed p) p.activeAllowRules p'.activeAllowRules :=
  forall₂_filter (fun r r' hr => by rw [hr.kind, hr.guard, h.isActive]) h.access

theorem activeLabelRules (kind : LabelKind) :
    Forall₂ (LabelRule.Renamed p) (p.activeLabelRules kind) (p'.activeLabelRules kind) :=
  forall₂_filter (fun r r' hr => by rw [hr.kind, hr.guard, h.isActive]) h.labels

theorem ruleEdges (permissions : PermissionMap) (criteria : Criteria) {r r' : AccessRule}
    (hr : r.Renamed p r') :
    p'.ruleEdges permissions criteria r' = p.ruleEdges permissions criteria r := by
  have hcontribution :
      Contribution.ofRule permissions criteria r' = Contribution.ofRule permissions criteria r := by
    unfold Contribution.ofRule
    rw [hr.cls, hr.perms]
  unfold Policy.ruleEdges
  rw [hcontribution, hr.id, h.rulePairs hr.source hr.target]

/-- **The flows of two such policies are the same.** -/
theorem flows (permissions : PermissionMap) (criteria : Criteria) :
    p'.flows permissions criteria = p.flows permissions criteria := by
  unfold Policy.flows
  rw [flatMap_eq_of_forall₂ (fun r r' hr => h.ruleEdges permissions criteria hr) h.activeAllowRules]

theorem otherSide {r r' : AccessRule} (hr : r.Renamed p r') (side : Side) (t : TypeName) :
    p'.otherSide r' side t = p.otherSide r side t := by
  cases side with
  | subject =>
    simp only [Policy.otherSide, h.sourceCovers hr.source, h.expand_alike hr.target.2, hr.target.1]
  | object => simp only [Policy.otherSide, h.expand_alike hr.source, h.targetCovers hr.target]

/-- **Two such policies grant the same.** -/
theorem grants (k : GrantKey) : p'.grants k = p.grants k := by
  unfold Policy.grants
  refine foldl_eq_of_forall₂ (fun g r r' hr => ?_) (forall₂_filter (fun r r' hr => ?_) h.activeAllowRules) ∅
  · rw [h.otherSide hr, hr.id]
  · rw [hr.cls, hr.grants]

/-- **Two such policies grant the same relabelling.** -/
theorem relabelGrants (classes : OrdSet String) (side : Side) (t : TypeName) :
    p'.relabelGrants classes side t = p.relabelGrants classes side t := by
  unfold Policy.relabelGrants
  refine foldl_eq_of_forall₂ (fun g r r' hr => ?_) (forall₂_filter (fun r r' hr => ?_) h.activeAllowRules) ∅
  · have hadd (g : PairGrants) : g.add r' = g.add r := by
      unfold PairGrants.add
      rw [hr.grants, hr.grants, hr.id]
    simp only [h.rulePairs hr.source hr.target, hadd]
  · rw [relabels, relabels, hr.cls, hr.grants, hr.grants]

/-- **Two such policies label the same.** -/
theorem transitionLabels (source entrypoint target : TypeName) :
    p'.transitionLabels source entrypoint target = p.transitionLabels source entrypoint target := by
  unfold Policy.transitionLabels
  refine map_eq_of_forall₂ (fun r r' hr => hr.id)
    (forall₂_filter (fun r r' hr => ?_) (h.activeLabelRules _))
  rw [hr.cls, h.sourceCovers hr.source, h.targetCovers hr.target, h.resolve_alike hr.default]

end Renamed

end Policy

end PolicyReach
