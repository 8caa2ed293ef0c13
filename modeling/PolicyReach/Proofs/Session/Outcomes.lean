import PolicyReach.Proofs.Session.Calls

/-!
# What the outcome of a call tells

* **`call_error`**: a call that fails changes at most the memo of the domain-transition analysis;
* `onFlows_eq_ok_iff`, `onFlows_eq_error_iff`: over a policy, a call gives what its analysis gives;
* **`call_registers`**: a call that gives out a handle has registered a flow session for it.
-/

namespace PolicyReach

namespace Session

variable {s : Session} {c : Call}

/-! ## Calls that fail -/

theorem onFlows_error {α : Type} {e : AnalysisError}
    {op : FlowContext → FlowRegistry → Except AnalysisError (α × FlowRegistry)}
    (he : (s.onFlows op).1 = .error e) : (s.onFlows op).2 = s := by
  rcases onFlows_cases (s := s) op with ⟨_, h⟩ | ⟨p, a, r, -, -, h⟩
  · rw [h]
  · rw [h] at he
    exact nomatch he

/-- An operation that succeeds has done so over a policy, and gives the registry after it. -/
theorem onFlows_ok {α : Type} {a : α}
    {op : FlowContext → FlowRegistry → Except AnalysisError (α × FlowRegistry)}
    (ha : (s.onFlows op).1 = .ok a) :
    ∃ p r, s.policy = some p ∧ op (s.flowContext p) s.registry = .ok (a, r) ∧
      (s.onFlows op).2 = { s with registry := r } := by
  rcases onFlows_cases (s := s) op with ⟨e, h⟩ | ⟨p, b, r, hp, hok, h⟩
  · rw [h] at ha
    exact nomatch ha
  · rw [h] at ha ⊢
    obtain rfl := Except.ok.inj ha
    exact ⟨p, r, hp, hok, rfl⟩

theorem onFlows_eq {α : Type} {p : Policy} {a : α} {r : FlowRegistry}
    {op : FlowContext → FlowRegistry → Except AnalysisError (α × FlowRegistry)}
    (hp : s.policy = some p) (hop : op (s.flowContext p) s.registry = .ok (a, r)) :
    s.onFlows op = (.ok a, { s with registry := r }) := by
  unfold flowContext at hop
  unfold onFlows
  simp only [hp, hop]

/-- Over a policy, an operation on the flow sessions has the outcome that it has. -/
theorem onFlows_of_policy {α : Type} {p : Policy} (hp : s.policy = some p)
    (op : FlowContext → FlowRegistry → Except AnalysisError (α × FlowRegistry)) :
    (s.onFlows op).1 = (op (s.flowContext p) s.registry).map Prod.fst := by
  unfold onFlows flowContext
  rw [hp]
  simp only
  split
  · rename_i hop
    rw [hop]
    rfl
  · rename_i hop
    rw [hop]
    rfl

theorem onFlows_eq_ok_iff {α : Type} {p : Policy} (hp : s.policy = some p) {a : α}
    {op : FlowContext → FlowRegistry → Except AnalysisError (α × FlowRegistry)} :
    (s.onFlows op).1 = .ok a ↔ ∃ r, op (s.flowContext p) s.registry = .ok (a, r) := by
  rw [onFlows_of_policy hp, map_eq_ok_iff]
  exact ⟨fun ⟨⟨_, r⟩, hok, heq⟩ => ⟨r, heq ▸ hok⟩, fun ⟨r, hok⟩ => ⟨(a, r), hok, rfl⟩⟩

theorem onFlows_eq_error_iff {α : Type} {p : Policy} (hp : s.policy = some p) {e : AnalysisError}
    {op : FlowContext → FlowRegistry → Except AnalysisError (α × FlowRegistry)} :
    (s.onFlows op).1 = .error e ↔ op (s.flowContext p) s.registry = .error e := by
  rw [onFlows_of_policy hp]
  cases op (s.flowContext p) s.registry with
  | error e' => simp only [Except.map, Except.error.injEq]
  | ok x => exact ⟨(nomatch ·), (nomatch ·)⟩

theorem onToken_error {α : Type} {e : AnalysisError} {token : String}
    {op : Handle → SessionOutcome α} (hop : ∀ h, (op h).1 = .error e → (op h).2 = s)
    (he : (s.onToken token op).1 = .error e) : (s.onToken token op).2 = s := by
  unfold onToken at he ⊢
  cases ht : Handle.ofText token with
  | error e => rfl
  | ok h =>
    rw [ht] at he
    exact hop h he

theorem analyzeTransitions_keeps (q : TransitionQuery) :
    ∃ memo, (s.analyzeTransitions q).2 = { s with memo } := by
  unfold analyzeTransitions
  split
  · exact ⟨s.memo, rfl⟩
  · exact ⟨_, rfl⟩

theorem loadPolicy_error {file : TextFile} {e : AnalysisError}
    (he : (s.loadPolicy file).1 = .error e) : (s.loadPolicy file).2 = s := by
  unfold loadPolicy at he ⊢
  cases hp : Policy.ofFile file with
  | error e' => rfl
  | ok p =>
    rw [hp] at he
    exact nomatch he

theorem loadPermissionsFile_error {file : TextFile} {e : AnalysisError}
    (he : (s.loadPermissionsFile file).1 = .error e) : (s.loadPermissionsFile file).2 = s := by
  unfold loadPermissionsFile at he ⊢
  cases hm : PermissionMap.ofFile file with
  | error e' => rfl
  | ok m =>
    rw [hm] at he
    exact nomatch he

theorem setBoolean_error {name : String} {value : Bool} {e : AnalysisError}
    (he : (s.setBoolean name value).1 = .error e) : (s.setBoolean name value).2 = s := by
  unfold setBoolean at he ⊢
  split at he
  · rfl
  · split at he
    · rfl
    · split at he <;> exact nomatch he

theorem runHops_error {p : HopParams} {e : AnalysisError} (he : (s.runHops p).1 = .error e) :
    (s.runHops p).2 = s := by
  unfold runHops at he ⊢
  cases hq : p.toQuery with
  | error e' => rfl
  | ok q =>
    rw [hq] at he
    exact onFlows_error (map_eq_error he : (s.analyzeHops q).1 = .error e)

theorem runReach_error {p : ReachParams} {e : AnalysisError} (he : (s.runReach p).1 = .error e) :
    (s.runReach p).2 = s := by
  unfold runReach at he ⊢
  cases hq : p.toQuery with
  | error e' => rfl
  | ok q =>
    rw [hq] at he
    exact onFlows_error (map_eq_error he : (s.analyzeReach q).1 = .error e)

theorem runTransitions_keeps (p : TransitionParams) :
    ∃ memo, (s.runTransitions p).2 = { s with memo } := by
  unfold runTransitions
  cases p.toQuery with
  | error e => exact ⟨s.memo, rfl⟩
  | ok q => exact analyzeTransitions_keeps q

/-- **A call that fails changes nothing** but what the domain-transition analysis remembers. -/
theorem call_error {e : AnalysisError} (he : (s.call c).1 = .error e) :
    ∃ memo, (s.call c).2 = { s with memo } := by
  cases c with
  | replacePolicy p => exact nomatch he
  | loadPolicy file => exact ⟨s.memo, loadPolicy_error (map_eq_error he)⟩
  | loadPermissions m => exact nomatch he
  | loadPermissionsFile file => exact ⟨s.memo, loadPermissionsFile_error (map_eq_error he)⟩
  | setBoolean name value => exact ⟨s.memo, setBoolean_error (map_eq_error he)⟩
  | invalidateAll => exact nomatch he
  | purgeStale => exact nomatch he
  | analyzeHops q => exact ⟨s.memo, onFlows_error (map_eq_error he)⟩
  | analyzeReach q => exact ⟨s.memo, onFlows_error (map_eq_error he)⟩
  | continueFrom h start => exact ⟨s.memo, onFlows_error (map_eq_error he)⟩
  | prepareFurther h start finish => exact ⟨s.memo, onFlows_error (map_eq_error he)⟩
  | nextFurther h => exact ⟨s.memo, onFlows_error (map_eq_error he)⟩
  | abortFurther h => exact ⟨s.memo, onFlows_error (map_eq_error he)⟩
  | destroy h => exact ⟨s.memo, onFlows_error (map_eq_error he)⟩
  | continueToken token start =>
    exact ⟨s.memo, onToken_error (fun h => onFlows_error) (map_eq_error he)⟩
  | destroyToken token =>
    exact ⟨s.memo, onToken_error (fun h => onFlows_error) (map_eq_error he)⟩
  | analyzeTransitions q => exact analyzeTransitions_keeps q
  | analyzeRelabel q => exact ⟨s.memo, rfl⟩
  | runHops p =>
    have hf : (s.runHops p).1 = .error e := map_eq_error he
    show ∃ memo, (s.runHops p).2 = _
    exact ⟨s.memo, runHops_error hf⟩
  | runReach p =>
    have hf : (s.runReach p).1 = .error e := map_eq_error he
    show ∃ memo, (s.runReach p).2 = _
    exact ⟨s.memo, runReach_error hf⟩
  | runTransitions p => exact runTransitions_keeps p
  | runRelabel p => exact ⟨s.memo, rfl⟩

/-! ## Calls that give a handle -/

theorem gives_iff {h : Handle} :
    s.Gives c h ↔ (s.call c).1.toOption.bind Answer.handle? = some h := by
  unfold Gives
  cases (s.call c).1 with
  | error e => exact ⟨fun ⟨_, ha, _⟩ => (nomatch ha), (nomatch ·)⟩
  | ok a => exact ⟨fun ⟨_, ha, hh⟩ => Except.ok.inj ha ▸ hh, fun hh => ⟨a, rfl, hh⟩⟩

/-- The call registered a flow session, and gave out handle `h` for it. -/
def Registers (s : Session) (h : Handle) (s' : Session) : Prop :=
  ∃ v registry, Registry.register s.registry v = some (h, registry) ∧ s' = { s with registry }

theorem analyzeHops_registers {q : HopQuery} {results : List FlowResult} {h : Handle}
    (ha : (s.analyzeHops q).1 = .ok (results, h)) : s.Registers h (s.analyzeHops q).2 := by
  obtain ⟨p, r, -, hok, hafter⟩ := onFlows_ok ha
  obtain ⟨m, start, -, -, hb⟩ := FlowContext.analyzeHops_eq_ok hok
  obtain ⟨graph, -, -, hreg⟩ := FlowContext.begin_eq_ok hb
  exact ⟨_, r, hreg, hafter⟩

theorem analyzeReach_registers {q : ReachQuery} {results : List FlowResult} {h : Handle}
    (ha : (s.analyzeReach q).1 = .ok (results, h)) : s.Registers h (s.analyzeReach q).2 := by
  obtain ⟨p, r, -, hok, hafter⟩ := onFlows_ok ha
  obtain ⟨m, start, types, -, -, -, hb⟩ := FlowContext.analyzeReach_eq_ok hok
  obtain ⟨graph, -, -, hreg⟩ := FlowContext.begin_eq_ok hb
  exact ⟨_, r, hreg, hafter⟩

theorem runHops_registers {p : HopParams} {o : HopOutput} (ho : (s.runHops p).1 = .ok o) :
    s.Registers o.handle (s.runHops p).2 := by
  unfold runHops at ho ⊢
  cases hq : p.toQuery with
  | error e =>
    rw [hq] at ho
    exact nomatch ho
  | ok q =>
    rw [hq] at ho
    obtain ⟨⟨results, h⟩, hx, rfl⟩ := map_eq_ok_iff.mp ho
    exact analyzeHops_registers hx

theorem runReach_registers {p : ReachParams} {o : ReachOutput} (ho : (s.runReach p).1 = .ok o) :
    s.Registers o.handle (s.runReach p).2 := by
  unfold runReach at ho ⊢
  cases hq : p.toQuery with
  | error e =>
    rw [hq] at ho
    exact nomatch ho
  | ok q =>
    rw [hq] at ho
    obtain ⟨⟨results, h⟩, hx, rfl⟩ := map_eq_ok_iff.mp ho
    exact analyzeReach_registers hx

/-- **A call that gives out a handle has registered a flow session for it.** -/
theorem call_registers {a : Answer} {h : Handle} (ha : (s.call c).1 = .ok a)
    (hh : a.handle? = some h) : s.Registers h (s.call c).2 := by
  cases c with
  | replacePolicy p | loadPermissions m | invalidateAll | purgeStale =>
    obtain rfl := Except.ok.inj ha
    exact nomatch hh
  | loadPolicy file | loadPermissionsFile file | setBoolean name value | continueFrom h' start
  | prepareFurther h' start finish | nextFurther h' | abortFurther h' | destroy h'
  | continueToken token start | destroyToken token | analyzeTransitions q | analyzeRelabel q
  | runTransitions p | runRelabel p =>
    obtain ⟨x, -, rfl⟩ := map_eq_ok_iff.mp ha
    exact nomatch hh
  | analyzeHops q =>
    obtain ⟨⟨results, h'⟩, hx, rfl⟩ := map_eq_ok_iff.mp ha
    obtain rfl := Option.some.inj hh
    exact analyzeHops_registers hx
  | analyzeReach q =>
    obtain ⟨⟨results, h'⟩, hx, rfl⟩ := map_eq_ok_iff.mp ha
    obtain rfl := Option.some.inj hh
    exact analyzeReach_registers hx
  | runHops p =>
    obtain ⟨o, ho, rfl⟩ := map_eq_ok_iff.mp ha
    obtain rfl := Option.some.inj hh
    exact runHops_registers ho
  | runReach p =>
    obtain ⟨o, ho, rfl⟩ := map_eq_ok_iff.mp ha
    obtain rfl := Option.some.inj hh
    exact runReach_registers ho

end Session

end PolicyReach
