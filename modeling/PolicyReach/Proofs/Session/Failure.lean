import PolicyReach.Proofs.Session.InPlace
import PolicyReach.Proofs.Session.Outcomes

/-!
# Calls that fail leave no trace

A call works on the session where it stands: it looks up, checks, and writes field by field, and where it
fails nothing takes back what it has written. Here every call is such a procedure (`InPlace.call`), with
its checks and its writes in order.

* `InPlace.exec_call`: in place, a call does what it should: it has the answer or the error, and leaves
  the session, that `Session.call` says;
* **`InPlace.failure_without_trace`**: in every state that a run reaches, a call that fails leaves the
  session as it was, except for what the domain-transition analysis remembers.
-/

namespace PolicyReach

open Procedure

namespace InPlace

/-! ## Calls as procedures -/

variable {α : Type}

/-- Begin a new epoch. -/
def invalidateAll : Procedure Session Unit := do
  modify fun s => { s with memo := s.memo.cleared }
  modify fun s => { s with registry := s.registry.invalidateAll }

/-- Put another policy in the place of the one loaded, which is given back. -/
def replacePolicy (p : Policy) : Procedure Session (Option Policy) := do
  let s ← get
  modify fun s => { s with policy := some p }
  invalidateAll
  pure s.policy

/-- Load a policy from a fixture in a file. -/
def loadPolicy (file : TextFile) : Procedure Session Unit := do
  let p ← ofExcept ((Policy.ofFile file).mapError fun e => .configuration (.policy e))
  let _ ← replacePolicy p
  pure ()

/-- Load a permission map; the flag tells whether it differs from the one loaded. -/
def loadPermissions (m : PermissionMap) : Procedure Session Bool := do
  let s ← get
  if some m.fingerprint = s.fingerprint then
    pure false
  else
    modify fun s => { s with permissions := some m }
    modify fun s => { s with fingerprint := some m.fingerprint }
    invalidateAll
    pure true

/-- Load a permission map from a file. -/
def loadPermissionsFile (file : TextFile) : Procedure Session Bool := do
  let m ← ofExcept ((PermissionMap.ofFile file).mapError fun e => .configuration (.permissionMap e))
  loadPermissions m

/-- Set a boolean of the policy. -/
def setBoolean (name : String) (value : Bool) : Procedure Session Unit := do
  let s ← get
  match s.policy with
  | none => throw (.configuration .noPolicy)
  | some p =>
    match p.boolean? name with
    | none => throw (.query (.unknownBoolean name))
    | some current =>
      if current = value then
        pure ()
      else
        modify fun s => { s with policy := some (p.setBoolean name value).2 }
        invalidateAll

/-- Do something to the flow sessions, over the policy. -/
def onFlows (x : FlowContext → Procedure FlowRegistry α) : Procedure Session α := do
  let s ← get
  match s.policy with
  | none => throw (.configuration .noPolicy)
  | some p => inside Session.registry (fun s registry => { s with registry }) (x (s.flowContext p))

/-- Do something to what a token names. -/
def onToken (token : String) (x : Handle → Procedure Session α) : Procedure Session α := do
  let h ← ofExcept (Handle.ofText token)
  x h

/-- Search for domain transitions. The search writes to the memo, also when it fails. -/
def analyzeTransitions (q : TransitionQuery) : Procedure Session (List DomainTransition) := do
  let s ← get
  match s.policy with
  | none => throw (.configuration .noPolicy)
  | some p =>
    inside Session.memo (fun s memo => { s with memo }) (ExceptT.mk fun m => m.analyze p q)

/-- Analyse relabelling. -/
def analyzeRelabel (q : RelabelQuery) : Procedure Session (List RelabelResult) := do
  let s ← get
  ofExcept (s.analyzeRelabel q)

/-- Analyse one-hop flows for a flat record. -/
def runHops (p : HopParams) : Procedure Session HopOutput := do
  let q ← ofExcept p.toQuery
  let r ← onFlows (analyzeHops · q)
  pure { handle := r.2, results := r.1.map HopRecord.ofResult }

/-- Analyse flows over many hops for a flat record. -/
def runReach (p : ReachParams) : Procedure Session ReachOutput := do
  let q ← ofExcept p.toQuery
  let r ← onFlows (analyzeReach · q)
  pure { handle := r.2, results := r.1 }

/-- Search for domain transitions for a flat record. -/
def runTransitions (p : TransitionParams) : Procedure Session TransitionOutput := do
  let q ← ofExcept p.toQuery
  let results ← analyzeTransitions q
  pure { results }

/-- Analyse relabelling for a flat record. -/
def runRelabel (p : RelabelParams) : Procedure Session RelabelOutput := do
  let q ← ofExcept p.toQuery
  let results ← analyzeRelabel q
  pure { results }

/-- A call, made in place. -/
def call : Call → Procedure Session Answer
  | .replacePolicy p => .previous <$> replacePolicy p
  | .loadPolicy file => (fun _ => .done) <$> loadPolicy file
  | .loadPermissions m => .flag <$> loadPermissions m
  | .loadPermissionsFile file => .flag <$> loadPermissionsFile file
  | .setBoolean name value => (fun _ => .done) <$> setBoolean name value
  | .invalidateAll => do
    invalidateAll
    let s ← get
    pure (.epoch s.epoch)
  | .purgeStale => do
    let s ← get
    modify fun s => { s with registry := s.registry.purgeStale.2 }
    pure (.count s.registry.purgeStale.1)
  | .analyzeHops q => (fun r => .begun r.1 r.2) <$> onFlows (analyzeHops · q)
  | .analyzeReach q => (fun r => .begun r.1 r.2) <$> onFlows (analyzeReach · q)
  | .continueFrom h start => .flows <$> onFlows (continueFrom · h start)
  | .prepareFurther h start finish => (fun _ => .done) <$> onFlows (prepareFurther · h start finish)
  | .nextFurther h => .flows <$> onFlows fun _ => nextFurther h
  | .abortFurther h => .flag <$> onFlows fun _ => abortFurther h
  | .destroy h => (fun _ => .done) <$> onFlows fun _ => discard h
  | .continueToken token start =>
    .flows <$> onToken token fun h => onFlows (continueFrom · h start)
  | .destroyToken token => (fun _ => .done) <$> onToken token fun h => onFlows fun _ => discard h
  | .analyzeTransitions q => .transitions <$> analyzeTransitions q
  | .analyzeRelabel q => .relabel <$> analyzeRelabel q
  | .runHops p => .hopOutput <$> runHops p
  | .runReach p => .reachOutput <$> runReach p
  | .runTransitions p => .transitionOutput <$> runTransitions p
  | .runRelabel p => .relabelOutput <$> runRelabel p

/-- The session after a run, all its calls made in place. -/
def after (s : Session) (cs : List Call) : Session := cs.foldl (fun s c => (exec (call c) s).2) s

/-! ## What the procedures do -/

variable {s : Session}

theorem exec_onFlows {x : FlowContext → Procedure FlowRegistry α}
    {op : FlowContext → FlowRegistry → Except AnalysisError (α × FlowRegistry)}
    (hx : ∀ p, exec (x (s.flowContext p)) s.registry =
      settle s.registry (op (s.flowContext p) s.registry)) :
    exec (onFlows x) s = s.onFlows op := by
  obtain ⟨config, policy, permissions, fingerprint, registry, memo⟩ := s
  cases policy with
  | none => rfl
  | some p =>
    refine exec_get_bind.trans ((exec_inside_settle (hx p) rfl).trans ?_)
    unfold Session.onFlows Session.flowContext
    dsimp only
    cases op { policy := p, permissions, config } registry <;> rfl

theorem exec_onToken {token : String} {x : Handle → Procedure Session α}
    {op : Handle → SessionOutcome α} (hx : ∀ h, exec (x h) s = op h) :
    exec (onToken token x) s = s.onToken token op := by
  unfold onToken Session.onToken
  cases Handle.ofText token with
  | error e => rfl
  | ok h => exact hx h

theorem exec_loadPermissions (m : PermissionMap) :
    exec (loadPermissions m) s = (.ok (s.loadPermissions m).1, (s.loadPermissions m).2) := by
  unfold loadPermissions Session.loadPermissions
  rw [exec_get_bind]
  dsimp only
  split
  · rfl
  · rfl

theorem exec_loadPolicy (file : TextFile) : exec (loadPolicy file) s = s.loadPolicy file := by
  unfold loadPolicy Session.loadPolicy
  cases Policy.ofFile file <;> rfl

theorem exec_loadPermissionsFile (file : TextFile) :
    exec (loadPermissionsFile file) s = s.loadPermissionsFile file := by
  unfold loadPermissionsFile Session.loadPermissionsFile
  cases PermissionMap.ofFile file with
  | error e => rfl
  | ok m => exact exec_loadPermissions m

theorem exec_setBoolean (name : String) (value : Bool) :
    exec (setBoolean name value) s = s.setBoolean name value := by
  unfold setBoolean Session.setBoolean
  rw [exec_get_bind]
  cases s.policy with
  | none => rfl
  | some p =>
    dsimp only
    cases p.boolean? name with
    | none => rfl
    | some current =>
      dsimp only
      split <;> rfl

theorem exec_analyzeTransitions (q : TransitionQuery) :
    exec (analyzeTransitions q) s = s.analyzeTransitions q := by
  obtain ⟨config, policy, permissions, fingerprint, registry, memo⟩ := s
  cases policy <;> rfl

theorem exec_analyzeRelabel (q : RelabelQuery) :
    exec (analyzeRelabel q) s = (s.analyzeRelabel q, s) :=
  exec_ofExcept _ s

/-- **In place, a call does what it should.** -/
theorem exec_call (hs : s.Coherent) (c : Call) : exec (call c) s = s.call c := by
  have hcoherent (p : Policy) (h : Handle) (v : FlowSession)
      (hv : Registry.resolve s.registry h = .ok v) : v.Coherent (s.flowContext p).config :=
    hs.of_resolve hv
  have hhops (q : HopQuery) : exec (onFlows (analyzeHops · q)) s = s.analyzeHops q :=
    exec_onFlows fun _ => exec_analyzeHops hs.sound q
  have hreach (q : ReachQuery) : exec (onFlows (analyzeReach · q)) s = s.analyzeReach q :=
    exec_onFlows fun _ => exec_analyzeReach hs.sound q
  have hcontinue (h : Handle) (start : String) :
      exec (onFlows (continueFrom · h start)) s = s.continueFrom h start :=
    exec_onFlows fun p => exec_continueFrom (hcoherent p h) start
  have hdestroy (h : Handle) : exec (onFlows fun _ => discard h) s = s.destroy h :=
    exec_onFlows fun _ => exec_discard _ h
  cases c with
  | replacePolicy p => rfl
  | loadPolicy file => exact exec_map (exec_loadPolicy file) _
  | loadPermissions m => exact exec_map (exec_loadPermissions m) _
  | loadPermissionsFile file => exact exec_map (exec_loadPermissionsFile file) _
  | setBoolean name value => exact exec_map (exec_setBoolean name value) _
  | invalidateAll => rfl
  | purgeStale => rfl
  | analyzeHops q => exact exec_map (hhops q) _
  | analyzeReach q => exact exec_map (hreach q) _
  | continueFrom h start => exact exec_map (hcontinue h start) _
  | prepareFurther h start finish =>
    exact exec_map (exec_onFlows fun p => exec_prepareFurther (hcoherent p h) start finish) _
  | nextFurther h => exact exec_map (exec_onFlows fun _ => exec_nextFurther _ h) _
  | abortFurther h => exact exec_map (exec_onFlows fun _ => exec_abortFurther _ h) _
  | destroy h => exact exec_map (hdestroy h) _
  | continueToken token start => exact exec_map (exec_onToken fun h => hcontinue h start) _
  | destroyToken token => exact exec_map (exec_onToken hdestroy) _
  | analyzeTransitions q => exact exec_map (exec_analyzeTransitions q) _
  | analyzeRelabel q => exact exec_map (exec_analyzeRelabel q) _
  | runHops p =>
    refine exec_map ?_ _
    unfold runHops Session.runHops
    cases p.toQuery with
    | error e => rfl
    | ok q => exact exec_map (hhops q) _
  | runReach p =>
    refine exec_map ?_ _
    unfold runReach Session.runReach
    cases p.toQuery with
    | error e => rfl
    | ok q => exact exec_map (hreach q) _
  | runTransitions p =>
    refine exec_map ?_ _
    unfold runTransitions Session.runTransitions
    cases p.toQuery with
    | error e => rfl
    | ok q => exact exec_map (exec_analyzeTransitions q) _
  | runRelabel p =>
    refine exec_map (o := (s.runRelabel p, s)) ?_ _
    unfold runRelabel Session.runRelabel
    cases p.toQuery with
    | error e => rfl
    | ok q => exact exec_map (exec_analyzeRelabel q) _

theorem after_eq (hs : s.Coherent) (cs : List Call) : after s cs = s.after cs := by
  induction cs generalizing s with
  | nil => rfl
  | cons c cs ih =>
    have hnext := (Session.call_effect s c).coherent hs
    rw [Session.after_cons, ← ih hnext, ← exec_call hs]
    rfl

/-- **A call that fails leaves no trace.** In every state that a run reaches, each call made in place, a
call in place does what it should; and where it fails, it leaves the policy, the permission map, the
epoch, the registry and every flow session in it as they were, and may have changed only what the
domain-transition analysis remembers. -/
theorem failure_without_trace {s₀ : Session} (h₀ : s₀.Initial) (cs : List Call) (c : Call) :
    let s := after s₀ cs
    s = s₀.after cs ∧ exec (call c) s = s.call c ∧
      ∀ e, (exec (call c) s).1 = .error e → ∃ memo, (exec (call c) s).2 = { s with memo } := by
  intro s
  have hafter : s = s₀.after cs := after_eq h₀.coherent cs
  have hcall : exec (call c) s = s.call c :=
    exec_call (hafter ▸ Session.after_coherent h₀.coherent) c
  refine ⟨hafter, hcall, fun e he => ?_⟩
  rw [hcall] at he ⊢
  exact Session.call_error he

/-- A session over `Policy.sample` in which a graph may have one edge only. -/
def sampleTight : Session := .ofPolicy { maxGraphEdges := 1 } .sample

/-- An analysis of the flows from `c` on, where there are none. -/
def sampleFromEnd : List Call :=
  [.loadPermissions .sample, .analyzeReach { direction := .fromStart, start := "c" }]

/-- The analysis from `c` on cannot be continued from `a` on, and is left as it was. -/
theorem sample_failure :
    let s := after sampleTight sampleFromEnd
    let c : Call := .continueFrom ⟨0, 0, 1⟩ "a"
    sampleTight.Initial ∧ (exec (call c) s).1 = .error (.allocation (.graphEdges 3 1)) ∧
      ∃ memo, (exec (call c) s).2 = { s with memo } := by
  have hinit : sampleTight.Initial := ⟨_, Or.inr ⟨.sample, rfl⟩⟩
  have hfails : ((sampleTight.after sampleFromEnd).continueFrom ⟨0, 0, 1⟩ "a").1 =
      .error (.allocation (.graphEdges 3 1)) := by decide +kernel
  obtain ⟨hafter, hcall, htrace⟩ :=
    failure_without_trace hinit sampleFromEnd (.continueFrom ⟨0, 0, 1⟩ "a")
  have herror := (congrArg Prod.fst hcall).trans
    (congrArg (Except.map Answer.flows) (hafter.symm ▸ hfails))
  exact ⟨hinit, herror, htrace _ herror⟩

end InPlace

end PolicyReach
