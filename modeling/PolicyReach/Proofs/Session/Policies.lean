import PolicyReach.Proofs.Policy.Names
import PolicyReach.Proofs.Session.Epoch

/-!
# The policies of a run

A run has one policy after another: some calls put another one in place, one sets its booleans.

* **`policy_call`**: a call keeps the policy but for that;
* `assembled_after`: over policies that have been put together, every policy of a run has been;
* `types_after`: a run that puts no policy in place keeps the types that are declared;
* `Steady`: two moments of a run that are of one epoch have policies that declare the same types. So it is
  where no policy is put in place (`steady_of_kept`), however often the epoch wraps around, and where the
  epoch does not wrap around (`steady_of_few`).
-/

namespace PolicyReach

/-! ## One call -/

/-- The call puts a policy in place, given by the caller or read from a file. -/
inductive Call.Replaces : Call → Policy → Prop
  | given (p : Policy) : Replaces (.replacePolicy p) p
  | read {file : TextFile} {p : Policy} (reads : Policy.ofFile file = .ok p) : Replaces (.loadPolicy file) p

namespace Session

/-- What a call can do to the policy. -/
inductive PolicyStep (s : Session) (c : Call) : Option Policy → Prop
  | kept : PolicyStep s c s.policy
  | replaced {p : Policy} (replaces : c.Replaces p) : PolicyStep s c (some p)
  | assigned {p : Policy} (policy : s.policy = some p) (name : String) (value : Bool) :
      PolicyStep s c (some (p.setBoolean name value).2)

variable {s s₀ : Session} {c : Call} {cs : List Call}

theorem PolicyStep.of_eq {p : Option Policy} (h : p = s.policy) : s.PolicyStep c p := h ▸ .kept

theorem policy_onFlows {α : Type}
    (op : FlowContext → FlowRegistry → Except AnalysisError (α × FlowRegistry)) :
    (s.onFlows op).2.policy = s.policy := by
  rcases onFlows_cases (s := s) op with ⟨e, h⟩ | ⟨p, a, r, -, -, h⟩
  · rw [h]
  · rw [h]

theorem policy_onToken {α : Type} {token : String} {op : Handle → SessionOutcome α}
    (hop : ∀ h, (op h).2.policy = s.policy) : (s.onToken token op).2.policy = s.policy := by
  unfold onToken
  split
  · exact hop _
  · rfl

theorem policy_loadPermissions (m : PermissionMap) : (s.loadPermissions m).2.policy = s.policy := by
  unfold loadPermissions
  dsimp only
  split <;> rfl

theorem policy_analyzeTransitions (q : TransitionQuery) :
    (s.analyzeTransitions q).2.policy = s.policy := by
  obtain ⟨memo, h⟩ := s.analyzeTransitions_keeps q
  rw [h]

/-- **A call keeps the policy**, unless it puts another one in place or sets a boolean. -/
theorem policy_call (s : Session) (c : Call) : s.PolicyStep c (s.call c).2.policy := by
  cases c with
  | replacePolicy p => exact .replaced (.given p)
  | loadPolicy file =>
    show s.PolicyStep _ (s.loadPolicy file).2.policy
    unfold loadPolicy
    cases hp : Policy.ofFile file with
    | ok p => exact .replaced (.read hp)
    | error e => exact .kept
  | setBoolean name value =>
    show s.PolicyStep _ (s.setBoolean name value).2.policy
    unfold setBoolean
    cases hp : s.policy with
    | none => exact .kept
    | some p =>
      dsimp only
      split
      · exact .kept
      · split
        · exact .kept
        · exact .assigned hp name value
  | loadPermissions m => exact .of_eq (policy_loadPermissions m)
  | loadPermissionsFile file =>
    show s.PolicyStep _ (s.loadPermissionsFile file).2.policy
    unfold loadPermissionsFile
    split
    · exact .of_eq (policy_loadPermissions _)
    · exact .kept
  | invalidateAll | purgeStale | analyzeRelabel q | runRelabel params => exact .kept
  | analyzeHops q => exact .of_eq (policy_onFlows _)
  | analyzeReach q => exact .of_eq (policy_onFlows _)
  | continueFrom h start => exact .of_eq (policy_onFlows _)
  | prepareFurther h first last => exact .of_eq (policy_onFlows _)
  | nextFurther h => exact .of_eq (policy_onFlows _)
  | abortFurther h => exact .of_eq (policy_onFlows _)
  | destroy h => exact .of_eq (policy_onFlows _)
  | continueToken token start => exact .of_eq (policy_onToken fun h => policy_onFlows _)
  | destroyToken token => exact .of_eq (policy_onToken fun h => policy_onFlows _)
  | analyzeTransitions q => exact .of_eq (policy_analyzeTransitions q)
  | runHops params =>
    show s.PolicyStep _ (s.runHops params).2.policy
    unfold runHops
    split
    · exact .kept
    · exact .of_eq (policy_onFlows _)
  | runReach params =>
    show s.PolicyStep _ (s.runReach params).2.policy
    unfold runReach
    split
    · exact .kept
    · exact .of_eq (policy_onFlows _)
  | runTransitions params =>
    show s.PolicyStep _ (s.runTransitions params).2.policy
    unfold runTransitions
    split
    · exact .kept
    · exact .of_eq (policy_analyzeTransitions _)

/-- The policy after a call is the one before it, or put in place, or has one of its booleans set. -/
theorem policy_cases {p : Policy} (h : (s.call c).2.policy = some p) :
    s.policy = some p ∨ c.Replaces p ∨
      ∃ p₀ name value, s.policy = some p₀ ∧ p = (p₀.setBoolean name value).2 := by
  have hstep := policy_call s c
  generalize (s.call c).2.policy = q at hstep h
  cases hstep with
  | kept => exact Or.inl h
  | replaced replaces =>
    obtain rfl := Option.some.inj h
    exact Or.inr (Or.inl replaces)
  | assigned policy name value =>
    obtain rfl := Option.some.inj h
    exact Or.inr (Or.inr ⟨_, name, value, policy, rfl⟩)

/-! ## Runs -/

/-- **Over policies that have been put together, every policy of a run has been.** -/
theorem assembled_after (hs : ∀ p, s.policy = some p → p.Assembled)
    (hcs : ∀ p, .replacePolicy p ∈ cs → p.Assembled) :
    ∀ p, (s.after cs).policy = some p → p.Assembled := by
  induction cs generalizing s with
  | nil => exact hs
  | cons c cs ih =>
    refine ih (fun p hp => ?_) fun p hp => hcs p (List.mem_cons_of_mem c hp)
    rcases policy_cases hp with hsame | hreplaces | ⟨p₀, name, value, hp₀, rfl⟩
    · exact hs p hsame
    · cases hreplaces with
      | given => exact hcs p List.mem_cons_self
      | read reads => exact Policy.assembled_ofFile reads
    · exact (hs p₀ hp₀).setBoolean name value

/-- A run that puts no policy in place keeps the types that are declared. -/
theorem types_after (hcs : ∀ c ∈ cs, ∀ p, ¬ c.Replaces p) {p : Policy}
    (hp : (s.after cs).policy = some p) : ∃ p₀, s.policy = some p₀ ∧ p.types = p₀.types := by
  induction cs generalizing s with
  | nil => exact ⟨p, hp, rfl⟩
  | cons c cs ih =>
    obtain ⟨p₁, hp₁, htypes⟩ := ih (fun d hd => hcs d (List.mem_cons_of_mem c hd)) hp
    rcases policy_cases hp₁ with hsame | hreplaces | ⟨p₀, name, value, hp₀, rfl⟩
    · exact ⟨p₁, hsame, htypes⟩
    · exact absurd hreplaces (hcs c List.mem_cons_self p₁)
    · refine ⟨p₀, hp₀, htypes.trans ?_⟩
      unfold Policy.setBoolean
      split <;> rfl

/-- Two moments of the run that are of one epoch have policies that declare the same types. -/
def Steady (s₀ : Session) (cs : List Call) : Prop :=
  ∀ ds es, ds <+: cs → es <+: cs → (s₀.after ds).epoch = (s₀.after es).epoch →
    ∀ p p', (s₀.after ds).policy = some p → (s₀.after es).policy = some p' → p.types = p'.types

/-- Where no policy is put in place, all policies of the run declare the same types. -/
theorem types_eq_of_kept (hcs : ∀ c ∈ cs, ∀ p, ¬ c.Replaces p) {ds es : List Call} (hds : ds <+: cs)
    (hes : es <+: cs) {p p' : Policy} (hp : (s₀.after ds).policy = some p)
    (hp' : (s₀.after es).policy = some p') : p.types = p'.types := by
  obtain ⟨p₀, hp₀, htypes⟩ := types_after (fun c hc => hcs c (hds.subset hc)) hp
  obtain ⟨p₀', hp₀', htypes'⟩ := types_after (fun c hc => hcs c (hes.subset hc)) hp'
  obtain rfl := Option.some.inj (hp₀.symm.trans hp₀')
  exact htypes.trans htypes'.symm

theorem steady_of_kept (hcs : ∀ c ∈ cs, ∀ p, ¬ c.Replaces p) : s₀.Steady cs :=
  fun _ _ hds hes _ _ _ hp hp' => types_eq_of_kept hcs hds hes hp hp'

/-- Where the epoch does not wrap around, an epoch has one policy. -/
theorem steady_of_few (hs : Registry.Sound s₀.registry) (hfew : s₀.invalidations cs < 2 ^ 64) :
    s₀.Steady cs := by
  have hpolicy {ds es : List Call} (hds : ds <+: es) (hes : es <+: cs)
      (hepoch : (s₀.after ds).epoch = (s₀.after es).epoch) :
      (s₀.after es).policy = (s₀.after ds).policy := by
    obtain ⟨rest, rfl⟩ := hds
    obtain ⟨later, rfl⟩ := hes
    rw [invalidations_append, invalidations_append] at hfew
    rw [after_append] at hepoch ⊢
    have hsound : Registry.Sound (s₀.after ds).registry := sound_after hs
    exact (policy_after hsound (invalidations_eq_zero hsound (by omega) hepoch.symm)).1
  intro ds es hds hes hepoch p p' hp hp'
  rcases List.prefix_or_prefix_of_prefix hds hes with hpre | hpre
  · rw [hpolicy hpre hes hepoch, hp] at hp'
    rw [Option.some.inj hp']
  · rw [hpolicy hpre hds hepoch.symm, hp'] at hp
    rw [Option.some.inj hp]

end Session

end PolicyReach
