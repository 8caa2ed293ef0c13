import PolicyReach.Proofs.Fallible
import PolicyReach.Proofs.Registry.Slots
import PolicyReach.Session

/-!
# Calls on an analysis session

A session is used by calls (`Call`), one after another; each gives an `Answer` or an error and
leaves the session in another state (`Session.call`). A run is a list of calls.

* `FlowSession.Step`: everything a call can make of the flow session that it is about;
* `Session.Effect`: everything a call can do to the state, whatever its arguments;
* **`call_effect`**: every call has such an effect;
* `Effect.config`, `Effect.sound`, `Effect.flows`: what every effect keeps, and so every run
  (`sound_after`).
-/

namespace PolicyReach

/-! ## Calls and answers -/

/-- A call on a session with its arguments. -/
inductive Call where
  | replacePolicy (p : Policy)
  | loadPolicy (file : TextFile)
  | loadPermissions (m : PermissionMap)
  | loadPermissionsFile (file : TextFile)
  | setBoolean (name : String) (value : Bool)
  | invalidateAll
  | purgeStale
  | analyzeHops (q : HopQuery)
  | analyzeReach (q : ReachQuery)
  | continueFrom (h : Handle) (start : String)
  | prepareFurther (h : Handle) (start finish : String)
  | nextFurther (h : Handle)
  | abortFurther (h : Handle)
  | destroy (h : Handle)
  | continueToken (token start : String)
  | destroyToken (token : String)
  | analyzeTransitions (q : TransitionQuery)
  | analyzeRelabel (q : RelabelQuery)
  | runHops (p : HopParams)
  | runReach (p : ReachParams)
  | runTransitions (p : TransitionParams)
  | runRelabel (p : RelabelParams)

/-- What a call that succeeds gives. -/
inductive Answer where
  | done
  | flag (b : Bool)
  | count (n : Nat)
  | epoch (e : UInt64)
  | previous (p : Option Policy)
  | begun (results : List FlowResult) (h : Handle)
  | flows (results : List FlowResult)
  | hopOutput (o : HopOutput)
  | reachOutput (o : ReachOutput)
  | transitions (results : List DomainTransition)
  | relabel (results : List RelabelResult)
  | transitionOutput (o : TransitionOutput)
  | relabelOutput (o : RelabelOutput)

namespace Answer

/-- The handle that an answer gives out. -/
def handle? : Answer → Option Handle
  | .begun _ h => some h
  | .hopOutput o => some o.handle
  | .reachOutput o => some o.handle
  | _ => none

/-- The flows that an answer consists of. -/
def results : Answer → List FlowResult
  | .flows results => results
  | _ => []

/-- The answer of an outcome. -/
def ofOutcome {α : Type} (f : α → Answer) (o : SessionOutcome α) : SessionOutcome Answer :=
  (o.1.map f, o.2)

theorem ofOutcome_eq_ok {α : Type} {f : α → Answer} {o : SessionOutcome α} {a : α}
    (h : o.1.toOption = some a) : (ofOutcome f o).1 = .ok (f a) := by
  unfold ofOutcome
  cases ho : o.1 with
  | error e =>
    rw [ho] at h
    exact nomatch h
  | ok x =>
    rw [ho] at h
    exact congrArg (fun x => Except.ok (f x)) (Option.some.inj h)

end Answer

namespace Call

/-- The handle that a call is about. -/
def handle? : Call → Option Handle
  | .continueFrom h _ | .prepareFurther h _ _ | .nextFurther h | .abortFurther h | .destroy h =>
    some h
  | .continueToken token _ | .destroyToken token => Handle.ofToken? token
  | _ => none

/-- The call hands the session this permission map. -/
def Loads (c : Call) (m : PermissionMap) : Prop :=
  c = .loadPermissions m ∨ ∃ file, c = .loadPermissionsFile file ∧ PermissionMap.ofFile file = .ok m

/-- The call gives up what stands in the place that this handle names. -/
def Destroys (c : Call) (h : Handle) : Prop :=
  c = .destroy h ∨ ∃ token, c = .destroyToken token ∧ Handle.ofToken? token = some h

end Call

namespace Session

/-- Make a call. -/
def call (s : Session) : Call → SessionOutcome Answer
  | .replacePolicy p =>
    let (old, s) := s.replacePolicy p
    (.ok (.previous old), s)
  | .loadPolicy file => Answer.ofOutcome (fun _ => .done) (s.loadPolicy file)
  | .loadPermissions m =>
    let (changed, s) := s.loadPermissions m
    (.ok (.flag changed), s)
  | .loadPermissionsFile file => Answer.ofOutcome .flag (s.loadPermissionsFile file)
  | .setBoolean name value => Answer.ofOutcome (fun _ => .done) (s.setBoolean name value)
  | .invalidateAll =>
    let s := s.invalidateAll
    (.ok (.epoch s.epoch), s)
  | .purgeStale =>
    let (purged, s) := s.purgeStale
    (.ok (.count purged), s)
  | .analyzeHops q => Answer.ofOutcome (fun r => .begun r.1 r.2) (s.analyzeHops q)
  | .analyzeReach q => Answer.ofOutcome (fun r => .begun r.1 r.2) (s.analyzeReach q)
  | .continueFrom h start => Answer.ofOutcome .flows (s.continueFrom h start)
  | .prepareFurther h start finish => Answer.ofOutcome (fun _ => .done) (s.prepareFurther h start finish)
  | .nextFurther h => Answer.ofOutcome .flows (s.nextFurther h)
  | .abortFurther h => Answer.ofOutcome .flag (s.abortFurther h)
  | .destroy h => Answer.ofOutcome (fun _ => .done) (s.destroy h)
  | .continueToken token start => Answer.ofOutcome .flows (s.continueToken token start)
  | .destroyToken token => Answer.ofOutcome (fun _ => .done) (s.destroyToken token)
  | .analyzeTransitions q => Answer.ofOutcome .transitions (s.analyzeTransitions q)
  | .analyzeRelabel q => ((s.analyzeRelabel q).map .relabel, s)
  | .runHops p => Answer.ofOutcome .hopOutput (s.runHops p)
  | .runReach p => Answer.ofOutcome .reachOutput (s.runReach p)
  | .runTransitions p => Answer.ofOutcome .transitionOutput (s.runTransitions p)
  | .runRelabel p => ((s.runRelabel p).map .relabelOutput, s)

/-- The session after a run. -/
def after (s : Session) (cs : List Call) : Session := cs.foldl (fun s c => (s.call c).2) s

/-- The calls of a run, each with its outcome. -/
def outcomes (s : Session) : List Call → List (Call × Except AnalysisError Answer)
  | [] => []
  | c :: cs => (c, (s.call c).1) :: outcomes (s.call c).2 cs

/-- The call gives out a handle. -/
def Gives (s : Session) (c : Call) (h : Handle) : Prop :=
  ∃ a, (s.call c).1 = .ok a ∧ a.handle? = some h

/-- The handles that a run gives out. -/
def issued (s : Session) (cs : List Call) : List Handle :=
  (s.outcomes cs).filterMap fun x => x.2.toOption.bind Answer.handle?

/-- A session as it is before any call. -/
def Initial (s : Session) : Prop :=
  ∃ config, s = .new config ∨ ∃ p, s = .ofPolicy config p

@[simp]
theorem after_nil (s : Session) : s.after [] = s := rfl

@[simp]
theorem after_cons (s : Session) (c : Call) (cs : List Call) :
    s.after (c :: cs) = (s.call c).2.after cs := rfl

theorem after_append (s : Session) (cs ds : List Call) :
    s.after (cs ++ ds) = (s.after cs).after ds :=
  List.foldl_append

theorem outcomes_append (s : Session) (cs ds : List Call) :
    s.outcomes (cs ++ ds) = s.outcomes cs ++ (s.after cs).outcomes ds := by
  induction cs generalizing s with
  | nil => rfl
  | cons c cs ih => simp only [List.cons_append, outcomes, after_cons, ih]

end Session

/-! ## What a call does to the state -/

/-- The scope of the graph that a kind of analysis needs. -/
def FlowKind.scope : FlowKind → Scope
  | .hop _ => .direct
  | .reach direction => .transitive direction

/-- What call `c` makes of the flow session that it is about. -/
inductive FlowSession.Step (config : Config) (c : Call) (v : FlowSession) : FlowSession → Prop
  | continued {root : TypeName} {graph : FlowGraph}
      (grown : v.index.grow config.maxGraphEdges v.graph root = .ok graph) :
      Step config c v { v with graph }
  | prepared {h : Handle} {first last : String} {direction : ReachDirection}
      {start finish : TypeName} {graph : FlowGraph} (call : c = .prepareFurther h first last)
      (kind : v.kind = .reach direction) (ends : start ≠ finish)
      (grown : v.index.grow config.maxGraphEdges v.graph start = .ok graph) :
      Step config c v
        { v with
          graph
          enumeration :=
            some (.prepare graph start finish direction.orientation config.maxCandidates) }
  | taken {h : Handle} {e e' : PathEnumeration} {path : Candidate} (call : c = .nextFurther h)
      (under : v.enumeration = some e) (next : e.next v.graph = .ok (some (path, e'))) :
      Step config c v { v with enumeration := some e' }
  | aborted {h : Handle} (call : c = .abortFurther h) : Step config c v { v with enumeration := none }

/-- What call `c` makes of session `s`. -/
inductive Session.Effect (s : Session) (c : Call) : Session → Prop
  | quiet (memo : GrantMemo) : Effect s c { s with memo }
  | policyChanged (p : Policy) : Effect s c { s with policy := some p }.invalidateAll
  | mapChanged (m : PermissionMap) (loads : c.Loads m) :
      Effect s c
        { s with permissions := some m, fingerprint := some m.fingerprint }.invalidateAll
  | invalidated : Effect s c s.invalidateAll
  | purged : Effect s c { s with registry := s.registry.purgeStale.2 }
  | begun {p : Policy} {m : PermissionMap} {criteria : Criteria} {kind : FlowKind}
      {filter : Option NameFilter} {start : TypeName} {graph : FlowGraph} {h : Handle}
      {registry : FlowRegistry} (policy : s.policy = some p) (permissions : s.permissions = some m)
      (scope : criteria.scope = kind.scope)
      (selected : (p.flows m criteria).selectFrom s.config.maxGraphEdges start = .ok graph)
      (registered : Registry.register s.registry
        { index := p.flows m criteria, graph, kind, filter } = some (h, registry))
      (gives : s.Gives c h) : Effect s c { s with registry }
  | stepped {h : Handle} {v v' : FlowSession} (about : c.handle? = some h)
      (resolved : Registry.resolve s.registry h = .ok v) (step : v.Step s.config c v') :
      Effect s c { s with registry := Registry.replace s.registry h v' }
  | discarded {h : Handle} {v : FlowSession} {registry : FlowRegistry}
      (about : c.Destroys h)
      (destroyed : Registry.destroy s.registry h = .ok (v, registry)) :
      Effect s c { s with registry }

/-! ## Operations on flow sessions that succeed -/

namespace FlowRegistry

variable {r r' : FlowRegistry} {h : Handle} {v : FlowSession}

theorem session_eq_ok_iff : r.session h = .ok v ↔ Registry.resolve r h = .ok v := by
  unfold session
  cases Registry.resolve r h with
  | error fault => exact ⟨(nomatch ·), (nomatch ·)⟩
  | ok x => exact ⟨fun hx => congrArg Except.ok (Except.ok.inj hx),
      fun hx => congrArg Except.ok (Except.ok.inj hx)⟩

theorem discard_eq_ok {u : Unit} (hd : r.discard h = .ok (u, r')) :
    ∃ v, Registry.destroy r h = .ok (v, r') := by
  unfold discard at hd
  cases he : Registry.destroy r h with
  | error fault =>
    rw [he] at hd
    exact nomatch hd
  | ok x =>
    rw [he] at hd
    obtain ⟨-, rfl⟩ := hd
    exact ⟨x.1, rfl⟩

theorem abortFurther_eq_ok {b : Bool} (ha : r.abortFurther h = .ok (b, r')) :
    ∃ v, Registry.resolve r h = .ok v ∧ r' = Registry.replace r h { v with enumeration := none } := by
  obtain ⟨v, hv, ha⟩ := bind_eq_ok_iff.mp ha
  obtain ⟨-, rfl⟩ := ha
  exact ⟨v, session_eq_ok_iff.mp hv, rfl⟩

/-- Taking the next path gives nothing when all are taken, and else the flow along it. -/
theorem nextFurther_eq_ok {results : List FlowResult}
    (hn : r.nextFurther h = .ok (results, r')) :
    ∃ v e, Registry.resolve r h = .ok v ∧ v.enumeration = some e ∧
      (e.next v.graph = .ok none ∧ results = [] ∧ r' = r ∨
        ∃ path e', e.next v.graph = .ok (some (path, e')) ∧
          results = (v.graph.walkResult? e'.orientation v.pathDirection e'.start path.walk).toList ∧
          r' = Registry.replace r h { v with enumeration := some e' }) := by
  obtain ⟨v, hv, hn⟩ := bind_eq_ok_iff.mp hn
  cases he : v.enumeration with
  | none =>
    rw [he] at hn
    exact nomatch hn
  | some e =>
    rw [he] at hn
    obtain ⟨taken, ht, hn⟩ := bind_eq_ok_iff.mp hn
    refine ⟨v, e, session_eq_ok_iff.mp hv, he, ?_⟩
    cases taken with
    | none =>
      obtain ⟨rfl, rfl⟩ := hn
      exact Or.inl ⟨ht, rfl, rfl⟩
    | some x =>
      obtain ⟨path, e'⟩ := x
      obtain ⟨rfl, rfl⟩ := hn
      exact Or.inr ⟨path, e', ht, rfl, rfl⟩

/-- Where there is an enumeration, taking the next path fails only as the enumeration does. -/
theorem nextFurther_error {e : PathEnumeration} {error : AnalysisError}
    (hv : Registry.resolve r h = .ok v) (hunder : v.enumeration = some e)
    (hn : r.nextFurther h = .error error) : e.next v.graph = .error error := by
  unfold nextFurther at hn
  rw [session_eq_ok_iff.mpr hv] at hn
  cases hnext : e.next v.graph with
  | error e' =>
    simp only [bind, Except.bind, hunder, hnext] at hn
    exact congrArg Except.error (Except.error.inj hn)
  | ok x =>
    simp only [bind, Except.bind, hunder, hnext] at hn
    split at hn <;> exact nomatch hn

end FlowRegistry

namespace FlowContext

variable {c : FlowContext} {r r' : FlowRegistry} {results : List FlowResult} {h : Handle}

theorem permissionMap_eq_ok_iff {m : PermissionMap} :
    c.permissionMap = .ok m ↔ c.permissions = some m := by
  unfold permissionMap
  cases c.permissions with
  | none => exact ⟨(nomatch ·), (nomatch ·)⟩
  | some x => exact ⟨fun hx => congrArg some (Except.ok.inj hx),
      fun hx => congrArg Except.ok (Option.some.inj hx)⟩

theorem typeOf_eq_ok_iff {name : String} {t : TypeName} :
    c.typeOf name = .ok t ↔ c.policy.resolve name = some t := by
  unfold typeOf
  cases c.policy.resolve name with
  | none => exact ⟨(nomatch ·), (nomatch ·)⟩
  | some x => exact ⟨fun hx => congrArg some (Except.ok.inj hx),
      fun hx => congrArg Except.ok (Option.some.inj hx)⟩

/-- A session begins with the graph around its start type, and is registered with it. -/
theorem begin_eq_ok {m : PermissionMap} {criteria : Criteria} {kind : FlowKind}
    {filter : Option NameFilter} {start : TypeName}
    (hb : c.begin r m criteria kind filter start = .ok ((results, h), r')) :
    ∃ graph, (c.policy.flows m criteria).selectFrom c.config.maxGraphEdges start = .ok graph ∧
      results = graph.results c.policy filter kind start ∧
      Registry.register r { index := c.policy.flows m criteria, graph, kind, filter } =
        some (h, r') := by
  obtain ⟨graph, hg, hb⟩ := bind_eq_ok_iff.mp hb
  refine ⟨graph, hg, ?_⟩
  cases hreg : Registry.register r
      ({ index := c.policy.flows m criteria, graph, kind, filter } : FlowSession) with
  | none =>
    simp only [hreg] at hb
    exact nomatch hb
  | some x =>
    simp only [hreg] at hb
    cases hb
    exact ⟨rfl, rfl⟩

theorem analyzeHops_eq_ok {q : HopQuery} (ha : c.analyzeHops r q = .ok ((results, h), r')) :
    ∃ m start, c.permissions = some m ∧ c.policy.resolve q.start = some start ∧
      c.begin r m { classPerms := q.classPerms, scope := .direct, intermediate := none }
        (.hop q.direction) q.filter start = .ok ((results, h), r') := by
  obtain ⟨m, hm, ha⟩ := bind_eq_ok_iff.mp ha
  obtain ⟨start, hs, ha⟩ := bind_eq_ok_iff.mp ha
  exact ⟨m, start, permissionMap_eq_ok_iff.mp hm, typeOf_eq_ok_iff.mp hs, ha⟩

theorem analyzeReach_eq_ok {q : ReachQuery} (ha : c.analyzeReach r q = .ok ((results, h), r')) :
    ∃ m start types, c.permissions = some m ∧ c.policy.resolve q.start = some start ∧
      c.intermediate q = .ok types ∧
      c.begin r m
        { classPerms := q.classPerms, scope := .transitive q.direction, intermediate := types }
        (.reach q.direction) q.filter start = .ok ((results, h), r') := by
  obtain ⟨m, hm, ha⟩ := bind_eq_ok_iff.mp ha
  obtain ⟨start, hs, ha⟩ := bind_eq_ok_iff.mp ha
  obtain ⟨types, ht, ha⟩ := bind_eq_ok_iff.mp ha
  exact ⟨m, start, types, permissionMap_eq_ok_iff.mp hm, typeOf_eq_ok_iff.mp hs, ht, ha⟩

theorem continueFrom_eq_ok {name : String} (hc : c.continueFrom r h name = .ok (results, r')) :
    ∃ v start graph, Registry.resolve r h = .ok v ∧ c.policy.resolve name = some start ∧
      v.index.grow c.config.maxGraphEdges v.graph start = .ok graph ∧
      results = graph.results c.policy v.filter v.kind start ∧
      r' = Registry.replace r h { v with graph } := by
  obtain ⟨v, hv, hc⟩ := bind_eq_ok_iff.mp hc
  obtain ⟨-, -, hc⟩ := bind_eq_ok_iff.mp hc
  obtain ⟨start, hs, hc⟩ := bind_eq_ok_iff.mp hc
  obtain ⟨graph, hg, hc⟩ := bind_eq_ok_iff.mp hc
  obtain ⟨rfl, rfl⟩ := hc
  exact ⟨v, start, graph, FlowRegistry.session_eq_ok_iff.mp hv, typeOf_eq_ok_iff.mp hs, hg, rfl,
    rfl⟩

theorem prepareFurther_eq_ok {first last : String} {u : Unit}
    (hp : c.prepareFurther r h first last = .ok (u, r')) :
    ∃ v direction start finish graph, Registry.resolve r h = .ok v ∧ v.kind = .reach direction ∧
      c.policy.resolve first = some start ∧ c.policy.resolve last = some finish ∧
      start ≠ finish ∧ v.index.grow c.config.maxGraphEdges v.graph start = .ok graph ∧
      r' = Registry.replace r h
        { v with
          graph
          enumeration :=
            some (.prepare graph start finish direction.orientation c.config.maxCandidates) } := by
  obtain ⟨v, hv, hp⟩ := bind_eq_ok_iff.mp hp
  cases hk : v.kind with
  | hop direction =>
    rw [hk] at hp
    exact nomatch hp
  | reach direction =>
    rw [hk] at hp
    obtain ⟨-, -, hp⟩ := bind_eq_ok_iff.mp hp
    obtain ⟨start, hs, hp⟩ := bind_eq_ok_iff.mp hp
    obtain ⟨finish, hf, hp⟩ := bind_eq_ok_iff.mp hp
    by_cases hne : start = finish
    · simp only [if_pos hne] at hp
      exact nomatch hp
    · simp only [if_neg hne] at hp
      obtain ⟨graph, hg, hp⟩ := bind_eq_ok_iff.mp hp
      obtain ⟨-, rfl⟩ := hp
      exact ⟨v, direction, start, finish, graph, FlowRegistry.session_eq_ok_iff.mp hv, hk,
        typeOf_eq_ok_iff.mp hs, typeOf_eq_ok_iff.mp hf, hne, hg, by rw [hk]⟩

end FlowContext

/-! ## Every call has an effect -/

namespace Session

variable {s : Session} {c : Call}

/-- The flow context of a session over a policy. -/
def flowContext (s : Session) (policy : Policy) : FlowContext :=
  { policy, permissions := s.permissions, config := s.config }

/-- An operation on the flow sessions fails and changes nothing, or succeeds and changes the
registry. -/
theorem onFlows_cases {α : Type}
    (op : FlowContext → FlowRegistry → Except AnalysisError (α × FlowRegistry)) :
    (∃ e, s.onFlows op = (.error e, s)) ∨
      ∃ p a r, s.policy = some p ∧ op (s.flowContext p) s.registry = .ok (a, r) ∧
        s.onFlows op = (.ok a, { s with registry := r }) := by
  unfold onFlows
  cases hp : s.policy with
  | none => exact Or.inl ⟨_, rfl⟩
  | some p =>
    cases hop : op (s.flowContext p) s.registry with
    | error e =>
      unfold flowContext at hop
      simp only [hop]
      exact Or.inl ⟨e, rfl⟩
    | ok x =>
      unfold flowContext at hop
      simp only [hop]
      exact Or.inr ⟨p, x.1, x.2, rfl, hop, rfl⟩

theorem effect_self : Effect s c s := .quiet s.memo

theorem effect_onFlows {α : Type}
    {op : FlowContext → FlowRegistry → Except AnalysisError (α × FlowRegistry)}
    (hop : ∀ p a r, s.policy = some p → op (s.flowContext p) s.registry = .ok (a, r) →
      (s.onFlows op).1 = .ok a → Effect s c { s with registry := r }) :
    Effect s c (s.onFlows op).2 := by
  rcases onFlows_cases (s := s) op with ⟨e, he⟩ | ⟨p, a, r, hp, hok, he⟩
  · rw [he]
    exact effect_self
  · have heffect := hop p a r hp hok (congrArg Prod.fst he)
    rw [he]
    exact heffect

theorem effect_begin {p : Policy} {m : PermissionMap} {criteria : Criteria} {kind : FlowKind}
    {filter : Option NameFilter} {start : TypeName} {results : List FlowResult} {h : Handle}
    {r : FlowRegistry} (hp : s.policy = some p) (hm : s.permissions = some m)
    (hscope : criteria.scope = kind.scope)
    (hb : (s.flowContext p).begin s.registry m criteria kind filter start =
      .ok ((results, h), r)) (hgives : s.Gives c h) :
    Effect s c { s with registry := r } := by
  obtain ⟨graph, hg, -, hreg⟩ := FlowContext.begin_eq_ok hb
  exact .begun hp hm hscope hg hreg hgives

theorem effect_analyzeHops {q : HopQuery}
    (hc : ∀ x, (s.analyzeHops q).1 = .ok x → s.Gives c x.2) :
    Effect s c (s.analyzeHops q).2 := by
  refine effect_onFlows fun p a r hp hok hgiven => ?_
  obtain ⟨m, start, hm, -, hb⟩ := FlowContext.analyzeHops_eq_ok hok
  exact effect_begin hp hm rfl hb (hc a hgiven)

theorem effect_analyzeReach {q : ReachQuery}
    (hc : ∀ x, (s.analyzeReach q).1 = .ok x → s.Gives c x.2) :
    Effect s c (s.analyzeReach q).2 := by
  refine effect_onFlows fun p a r hp hok hgiven => ?_
  obtain ⟨m, start, types, hm, -, -, hb⟩ := FlowContext.analyzeReach_eq_ok hok
  exact effect_begin hp hm rfl hb (hc a hgiven)

theorem effect_continueFrom {h : Handle} (hc : c.handle? = some h) (name : String) :
    Effect s c (s.continueFrom h name).2 := by
  refine effect_onFlows fun p a r _ hok _ => ?_
  obtain ⟨v, start, graph, hv, -, hg, -, rfl⟩ := FlowContext.continueFrom_eq_ok hok
  exact .stepped hc hv (.continued hg)

theorem effect_destroy {h : Handle} (hc : c.Destroys h) : Effect s c (s.destroy h).2 := by
  refine effect_onFlows fun p a r _ hok _ => ?_
  obtain ⟨v, hv⟩ := FlowRegistry.discard_eq_ok hok
  exact .discarded hc hv

theorem effect_onToken {α : Type} {token : String} {op : Handle → SessionOutcome α}
    (hop : ∀ h, Handle.ofToken? token = some h → Effect s c (op h).2) :
    Effect s c (s.onToken token op).2 := by
  unfold onToken Handle.ofText
  cases ht : Handle.ofToken? token with
  | none => exact effect_self
  | some h => exact hop h ht

theorem effect_loadPermissions {m : PermissionMap} (hc : c.Loads m) :
    Effect s c (s.loadPermissions m).2 := by
  unfold loadPermissions
  simp only
  split
  · exact effect_self
  · exact .mapChanged m hc

theorem effect_setBoolean (name : String) (value : Bool) :
    Effect s c (s.setBoolean name value).2 := by
  unfold setBoolean
  cases s.policy with
  | none => exact effect_self
  | some p =>
    cases hb : p.boolean? name with
    | none =>
      simp only [hb]
      exact effect_self
    | some current =>
      simp only [hb]
      split
      · exact effect_self
      · exact .policyChanged _

theorem effect_analyzeTransitions (q : TransitionQuery) :
    Effect s c (s.analyzeTransitions q).2 := by
  unfold analyzeTransitions
  split
  · exact effect_self
  · exact .quiet _

theorem effect_loadPolicy (file : TextFile) : Effect s c (s.loadPolicy file).2 := by
  unfold loadPolicy
  cases Policy.ofFile file with
  | error e => exact effect_self
  | ok p => exact .policyChanged p

theorem effect_loadPermissionsFile {file : TextFile} (hc : c = .loadPermissionsFile file) :
    Effect s c (s.loadPermissionsFile file).2 := by
  unfold loadPermissionsFile
  cases hm : PermissionMap.ofFile file with
  | error e => exact effect_self
  | ok m => exact effect_loadPermissions (Or.inr ⟨file, hc, hm⟩)

theorem effect_prepareFurther {h : Handle} {first last : String}
    (hc : c = .prepareFurther h first last) : Effect s c (s.prepareFurther h first last).2 := by
  refine effect_onFlows fun p a r _ hok _ => ?_
  obtain ⟨v, direction, start, finish, graph, hv, hk, -, -, hne, hg, rfl⟩ :=
    FlowContext.prepareFurther_eq_ok hok
  exact .stepped (hc ▸ rfl) hv (.prepared hc hk hne hg)

theorem effect_nextFurther {h : Handle} (hc : c = .nextFurther h) :
    Effect s c (s.nextFurther h).2 := by
  refine effect_onFlows fun p a r _ hok _ => ?_
  obtain ⟨v, e, hv, he, ⟨-, -, rfl⟩ | ⟨path, e', hn, -, rfl⟩⟩ := FlowRegistry.nextFurther_eq_ok hok
  · exact effect_self
  · exact .stepped (hc ▸ rfl) hv (.taken hc he hn)

theorem effect_abortFurther {h : Handle} (hc : c = .abortFurther h) :
    Effect s c (s.abortFurther h).2 := by
  refine effect_onFlows fun p a r _ hok _ => ?_
  obtain ⟨v, hv, rfl⟩ := FlowRegistry.abortFurther_eq_ok hok
  exact .stepped (hc ▸ rfl) hv (.aborted hc)

theorem effect_runHops {p : HopParams} (hc : c = .runHops p) : Effect s c (s.runHops p).2 := by
  subst hc
  cases hq : p.toQuery with
  | error e =>
    unfold runHops
    rw [hq]
    exact effect_self
  | ok q =>
    have heffect : Effect s (.runHops p) (s.analyzeHops q).2 := effect_analyzeHops fun x hx => by
      refine ⟨.hopOutput ⟨x.2, x.1.map HopRecord.ofResult⟩, ?_, rfl⟩
      show (s.runHops p).1.map Answer.hopOutput = _
      unfold runHops
      rw [hq]
      simp only [hx]
      rfl
    unfold runHops
    rw [hq]
    exact heffect

theorem effect_runReach {p : ReachParams} (hc : c = .runReach p) :
    Effect s c (s.runReach p).2 := by
  subst hc
  cases hq : p.toQuery with
  | error e =>
    unfold runReach
    rw [hq]
    exact effect_self
  | ok q =>
    have heffect : Effect s (.runReach p) (s.analyzeReach q).2 := effect_analyzeReach fun x hx => by
      refine ⟨.reachOutput ⟨x.2, x.1⟩, ?_, rfl⟩
      show (s.runReach p).1.map Answer.reachOutput = _
      unfold runReach
      rw [hq]
      simp only [hx]
      rfl
    unfold runReach
    rw [hq]
    exact heffect

theorem effect_runTransitions (p : TransitionParams) : Effect s c (s.runTransitions p).2 := by
  unfold runTransitions
  cases p.toQuery with
  | error e => exact effect_self
  | ok q => exact effect_analyzeTransitions q

/-- **Every call does one of these things to the state.** -/
theorem call_effect (s : Session) (c : Call) : Effect s c (s.call c).2 := by
  cases c with
  | replacePolicy p => exact .policyChanged p
  | loadPolicy file => exact effect_loadPolicy file
  | loadPermissions m => exact effect_loadPermissions (Or.inl rfl)
  | loadPermissionsFile file => exact effect_loadPermissionsFile rfl
  | setBoolean name value => exact effect_setBoolean name value
  | invalidateAll => exact .invalidated
  | purgeStale => exact .purged
  | analyzeHops q =>
    exact effect_analyzeHops fun x hx => ⟨.begun x.1 x.2, map_eq_ok_iff.mpr ⟨x, hx, rfl⟩, rfl⟩
  | analyzeReach q =>
    exact effect_analyzeReach fun x hx => ⟨.begun x.1 x.2, map_eq_ok_iff.mpr ⟨x, hx, rfl⟩, rfl⟩
  | continueFrom h start => exact effect_continueFrom rfl start
  | prepareFurther h first last => exact effect_prepareFurther rfl
  | nextFurther h => exact effect_nextFurther rfl
  | abortFurther h => exact effect_abortFurther rfl
  | destroy h => exact effect_destroy (Or.inl rfl)
  | continueToken token start =>
    show Effect s _ (s.continueToken token start).2
    refine effect_onToken fun h ht => ?_
    have hc : (Call.continueToken token start).handle? = some h := ht
    exact effect_continueFrom hc start
  | destroyToken token =>
    show Effect s _ (s.destroyToken token).2
    exact effect_onToken fun h ht => effect_destroy (Or.inr ⟨token, rfl, ht⟩)
  | analyzeTransitions q => exact effect_analyzeTransitions q
  | analyzeRelabel q => exact effect_self
  | runHops p => exact effect_runHops rfl
  | runReach p => exact effect_runReach rfl
  | runTransitions p => exact effect_runTransitions p
  | runRelabel p => exact effect_self

/-! ## What every call keeps -/

variable {s' : Session}

theorem Effect.config (he : Effect s c s') : s'.config = s.config := by
  cases he <;> rfl

theorem Effect.sound (hs : Registry.Sound s.registry) (he : Effect s c s') :
    Registry.Sound s'.registry := by
  cases he with
  | quiet memo => exact hs
  | policyChanged p => exact hs.invalidateAll
  | mapChanged m loads => exact hs.invalidateAll
  | invalidated => exact hs.invalidateAll
  | purged => exact hs.purgeStale
  | begun policy permissions scope selected registered => exact hs.register registered
  | @stepped h v v' about resolved step =>
    exact hs.replace (Registry.resolve_eq_ok_iff.mp resolved).1 v'
  | discarded about destroyed => exact hs.destroy destroyed

/-- What holds of flow sessions when they begin, and is kept by every step of theirs, holds of all of them
after the call. -/
theorem Effect.flows {P : FlowSession → Prop} (hs : Registry.Sound s.registry)
    (hflows : Registry.All (fun e => P e.value) s.registry)
    (hbegun : ∀ p m criteria kind filter start graph, s.permissions = some m →
      criteria.scope = FlowKind.scope kind →
      (Policy.flows p m criteria).selectFrom s.config.maxGraphEdges start = .ok graph →
      P { index := p.flows m criteria, graph, kind, filter })
    (hstep : ∀ v v', P v → v.Step s.config c v' → P v') (he : Effect s c s') :
    Registry.All (fun e => P e.value) s'.registry := by
  cases he with
  | quiet memo => exact hflows
  | policyChanged p => exact hflows
  | mapChanged m loads => exact hflows
  | invalidated => exact hflows
  | purged => exact hflows.purgeStale
  | begun policy permissions scope selected registered =>
    exact hflows.register hs registered (hbegun _ _ _ _ _ _ _ permissions scope selected)
  | stepped about resolved step =>
    obtain ⟨hheld, -⟩ := Registry.resolve_eq_ok_iff.mp resolved
    exact hflows.replace hheld (hstep _ _ (hflows.of_held hheld) step)
  | discarded about destroyed => exact hflows.destroy destroyed

/-- **What a handle names after a call** is what it has named before, or what the call has begun, giving
out the handle, or what the call has made of what the handle has named. -/
theorem Effect.own?_cases (hs : Registry.Sound s.registry) (he : Effect s c s') {h : Handle}
    {v' : FlowSession} (hv : Registry.own? s'.registry h = some v') :
    Registry.own? s.registry h = some v' ∨ (s.Gives c h ∧ v'.enumeration = none) ∨
      ∃ v, Registry.resolve s.registry h = .ok v ∧ c.handle? = some h ∧ v.Step s.config c v' := by
  cases he with
  | quiet memo => exact Or.inl hv
  | policyChanged p => exact Or.inl hv
  | mapChanged m loads => exact Or.inl hv
  | invalidated => exact Or.inl hv
  | purged => exact Or.inl (Registry.own?_of_purgeStale hv)
  | begun policy permissions scope selected registered gives =>
    rcases Registry.own?_of_register hs registered hv with hv | ⟨rfl, rfl⟩
    · exact Or.inl hv
    · exact Or.inr (Or.inl ⟨gives, rfl⟩)
  | @stepped h' v w about resolved step =>
    rw [Registry.own?_replace resolved] at hv
    by_cases hsame : h = h'
    · subst hsame
      rw [if_pos rfl] at hv
      obtain rfl := Option.some.inj hv
      exact Or.inr (Or.inr ⟨v, resolved, about, step⟩)
    · rw [if_neg hsame] at hv
      exact Or.inl hv
  | discarded about destroyed =>
    rw [Registry.own?_destroy destroyed] at hv
    split at hv
    · exact nomatch hv
    · exact Or.inl hv

theorem sound_after {cs : List Call} (hs : Registry.Sound s.registry) :
    Registry.Sound (s.after cs).registry := by
  induction cs generalizing s with
  | nil => exact hs
  | cons c cs ih => exact ih ((call_effect s c).sound hs)

end Session

end PolicyReach
