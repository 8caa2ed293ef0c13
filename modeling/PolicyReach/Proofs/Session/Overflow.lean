import PolicyReach.Proofs.Flow.Overflow
import PolicyReach.Proofs.Session.Enumeration

/-!
# No run overflows

Every graph that a session searches has been grown from an index whose weights are in range, within the
limit on edges; and every path that it takes is one of such a graph. So whatever is called, all sums of
weights are words, and the lengths reported are the sums that they stand for.

Model: `Checked.call` and `Checked.outcomes` are the calls of a session with every sum of weights taken by
`Checked.add`. An operation of theirs is stopped by an overflow, or fails as the operation of the session
does (`Checked.Stop`).

Results:
* `FlowSession.Engaged`: the enumeration under way in a flow session, if one is, takes the paths of an
  inquiry; every run keeps that (`after_engaged`);
* **`Checked.call_eq`**: no sum of a call overflows, so that the call does what it does;
* `flowsGiven_exact`: the lengths of the flows over many hops that a call reports are exact;
* **`sums_never_overflow`**: both, over every run.
-/

namespace PolicyReach

open Registry (resolve)

/-! ## Enumerations under way -/

namespace FlowSession

/-- A flow session is founded, and the enumeration under way in it takes the paths of an inquiry. -/
structure Engaged (config : Config) (v : FlowSession) : Prop where
  founded : v.Founded config
  pursues : ∀ e, v.enumeration = some e → ∃ q walks, q.Proper ∧ v.Pursues config q walks e

theorem Step.engaged {config : Config} {c : Call} {v v' : FlowSession}
    (hlimit : config.maxGraphEdges ≤ FlowGraph.edgeBound) (hv : v.Engaged config)
    (h : v.Step config c v') : v'.Engaged config := by
  refine ⟨h.founded hv.founded, fun e he => ?_⟩
  cases h with
  | continued grown =>
    obtain ⟨q, walks, hq, hpursues⟩ := hv.pursues e he
    exact ⟨q, walks, hq, hpursues.continued hq grown⟩
  | @prepared h first last direction start finish graph call kind ends grown =>
    obtain rfl := Option.some.inj he
    have hproper : Inquiry.Proper ⟨v.index, direction, start, finish⟩ :=
      ⟨hv.founded.index, hv.founded.transitive kind, ends⟩
    exact ⟨_, [], hproper, hv.founded.prepared hproper hlimit rfl kind grown rfl⟩
  | taken call under next =>
    obtain rfl := Option.some.inj he
    obtain ⟨q, walks, hq, hpursues⟩ := hv.pursues _ under
    exact ⟨q, _, hq, (hpursues.taken hq hlimit next).1⟩
  | aborted call => exact nomatch he

end FlowSession

namespace Session

/-- The session is founded, and every flow session in it engaged. -/
structure Engaged (s : Session) : Prop where
  founded : s.Founded
  flows : Registry.All (fun e => e.value.Engaged s.config) s.registry

variable {s s' : Session} {c : Call}

theorem Initial.engaged (h : Initial s) : s.Engaged := by
  refine ⟨h.founded, ?_⟩
  obtain ⟨config, rfl | ⟨p, rfl⟩⟩ := h
  · exact Registry.all_empty _
  · exact Registry.all_empty _

theorem Effect.engaged (hlimit : s.config.maxGraphEdges ≤ FlowGraph.edgeBound) (hs : s.Engaged)
    (hmaps : ∀ m, c.Loads m → m.Built) (he : Effect s c s') : s'.Engaged := by
  refine ⟨he.founded hs.founded hmaps, ?_⟩
  rw [he.config]
  refine he.flows hs.founded.sound hs.flows ?_ fun v v' hv hstep => hstep.engaged hlimit hv
  intro p m criteria kind filter start graph hm hscope hselected
  exact ⟨.begun (hs.founded.permissions m hm) hscope hselected, fun _ => (nomatch ·)⟩

theorem Engaged.of_resolve (hs : s.Engaged) {h : Handle} {v : FlowSession}
    (hv : resolve s.registry h = .ok v) : v.Engaged s.config :=
  hs.flows.of_held (Registry.resolve_eq_ok_iff.mp hv).1

end Session

/-! ## Operations on flow sessions -/

namespace Checked

section Flows

variable (c : FlowContext) (r : FlowRegistry)

/-- Begin a session at `start`. -/
def begin (permissions : PermissionMap) (criteria : Criteria) (kind : FlowKind)
    (filter : Option NameFilter) (start : TypeName) :
    Except Stop ((List FlowResult × Handle) × FlowRegistry) := do
  let index := c.policy.flows permissions criteria
  let graph ← plain (index.selectFrom c.config.maxGraphEdges start)
  let results ← summed (results graph c.policy filter kind start)
  match r.register { index, graph, kind, filter } with
  | some (h, r) => .ok ((results, h), r)
  | none => .error (.failed (.allocation .registryFull))

/-- Analyse the one-hop flows at a type. -/
def analyzeHops (q : HopQuery) : Except Stop ((List FlowResult × Handle) × FlowRegistry) := do
  let permissions ← plain c.permissionMap
  let start ← plain (c.typeOf q.start)
  begin c r permissions { classPerms := q.classPerms, scope := .direct, intermediate := none }
    (.hop q.direction) q.filter start

/-- Analyse the lightest flows to or from a type. -/
def analyzeReach (q : ReachQuery) : Except Stop ((List FlowResult × Handle) × FlowRegistry) := do
  let permissions ← plain c.permissionMap
  let start ← plain (c.typeOf q.start)
  let intermediate ← plain (c.intermediate q)
  begin c r permissions
    { classPerms := q.classPerms, scope := .transitive q.direction, intermediate }
    (.reach q.direction) q.filter start

/-- Ask a session for the results at another start type, growing its graph if need be. -/
def continueFrom (h : Handle) (name : String) : Except Stop (List FlowResult × FlowRegistry) := do
  let v ← plain (r.session h)
  let _ ← plain c.permissionMap
  let start ← plain (c.typeOf name)
  let graph ← plain (v.index.grow c.config.maxGraphEdges v.graph start)
  let results ← summed (results graph c.policy v.filter v.kind start)
  .ok (results, r.replace h { v with graph })

/-- Begin to enumerate the paths between two types, in place of any enumeration under way. -/
def prepareFurther (h : Handle) (first last : String) : Except Stop (Unit × FlowRegistry) := do
  let v ← plain (r.session h)
  match v.kind with
  | .hop _ => .error (.failed (.query .oneHopGraph))
  | .reach direction =>
    let _ ← plain c.permissionMap
    let start ← plain (c.typeOf first)
    let finish ← plain (c.typeOf last)
    if start = finish then .error (.failed (.query (.sameEnds start)))
    else
      let graph ← plain (v.index.grow c.config.maxGraphEdges v.graph start)
      let enumeration ←
        summed (prepare graph start finish direction.orientation c.config.maxCandidates)
      .ok ((), r.replace h { v with graph, enumeration := some enumeration })

/-- Take the next path of the enumeration under way; none when all are taken. -/
def nextFurther (h : Handle) : Except Stop (List FlowResult × FlowRegistry) := do
  let v ← plain (r.session h)
  match v.enumeration with
  | none => .error (.failed (.query (.noSearch h)))
  | some e =>
    match ← next e v.graph with
    | none => .ok ([], r)
    | some (path, e) =>
      let result ← summed (walkResult v.graph e.orientation v.pathDirection e.start path.walk)
      .ok (result.toList, r.replace h { v with enumeration := some e })

variable {c r} {h : Handle}

/-- What begins with an operation that takes no sum takes none if what comes after takes none. -/
theorem plain_bind {α β : Type} {x : Except AnalysisError α} {f : α → Except Stop β}
    {f' : α → Except AnalysisError β} (hf : ∀ a, x = .ok a → f a = plain (f' a)) :
    plain x >>= f = plain (x >>= f') := by
  cases x with
  | error e => rfl
  | ok a => exact hf a rfl

theorem begin_eq {m : PermissionMap} (hm : m.Built)
    (hlimit : c.config.maxGraphEdges ≤ FlowGraph.edgeBound) (criteria : Criteria) (kind : FlowKind)
    (filter : Option NameFilter) (start : TypeName) :
    begin c r m criteria kind filter start = plain (c.begin r m criteria kind filter start) := by
  have hindex := FlowGraph.index_of_built hm c.policy criteria
  refine plain_bind fun graph hgraph => ?_
  obtain ⟨hgrown, -, -⟩ := FlowGraph.grow_grown hindex.sound (FlowGraph.grown_empty _ _) hgraph
  rw [results_eq hgrown.sound (hgrown.measured hindex hlimit)]
  dsimp only
  cases Registry.register r
    ({ index := c.policy.flows m criteria, graph, kind, filter } : FlowSession) <;> rfl

theorem analyzeHops_eq (hm : ∀ m, c.permissions = some m → m.Built)
    (hlimit : c.config.maxGraphEdges ≤ FlowGraph.edgeBound) (q : HopQuery) :
    analyzeHops c r q = plain (c.analyzeHops r q) :=
  plain_bind fun m hmap => plain_bind fun _ _ =>
    begin_eq (hm m (FlowContext.permissionMap_eq_ok_iff.mp hmap)) hlimit _ _ _ _

theorem analyzeReach_eq (hm : ∀ m, c.permissions = some m → m.Built)
    (hlimit : c.config.maxGraphEdges ≤ FlowGraph.edgeBound) (q : ReachQuery) :
    analyzeReach c r q = plain (c.analyzeReach r q) :=
  plain_bind fun m hmap => plain_bind fun _ _ => plain_bind fun _ _ =>
    begin_eq (hm m (FlowContext.permissionMap_eq_ok_iff.mp hmap)) hlimit _ _ _ _

theorem continueFrom_eq (hlimit : c.config.maxGraphEdges ≤ FlowGraph.edgeBound)
    (hr : ∀ v, resolve r h = .ok v → v.Founded c.config) (name : String) :
    continueFrom c r h name = plain (c.continueFrom r h name) := by
  refine plain_bind fun v hv => plain_bind fun _ _ => plain_bind fun start _ =>
    plain_bind fun graph hgraph => ?_
  have hfounded := hr v (FlowRegistry.session_eq_ok_iff.mp hv)
  obtain ⟨hgrown, -, -⟩ := FlowGraph.grow_grown hfounded.index.sound hfounded.grown hgraph
  rw [results_eq hgrown.sound (hgrown.measured hfounded.index hlimit)]
  rfl

theorem prepareFurther_eq (hlimit : c.config.maxGraphEdges ≤ FlowGraph.edgeBound)
    (hr : ∀ v, resolve r h = .ok v → v.Founded c.config) (first last : String) :
    prepareFurther c r h first last = plain (c.prepareFurther r h first last) := by
  refine plain_bind fun v hv => ?_
  have hfounded := hr v (FlowRegistry.session_eq_ok_iff.mp hv)
  cases hkind : v.kind with
  | hop direction => rfl
  | reach direction =>
    refine plain_bind fun _ _ => plain_bind fun start _ => plain_bind fun finish _ => ?_
    by_cases hends : start = finish
    · rw [if_pos hends, if_pos hends]
      rfl
    · rw [if_neg hends, if_neg hends]
      refine plain_bind fun graph hgraph => ?_
      obtain ⟨hgrown, hroot, -⟩ := FlowGraph.grow_grown hfounded.index.sound hfounded.grown hgraph
      have hcarries := PathEnumeration.carries_of_grown
        (e := .blank start finish direction.orientation c.config.maxCandidates) hfounded.index hgrown
        hlimit (hfounded.transitive hkind) rfl hroot
      rw [prepare_eq hcarries]
      rfl

theorem nextFurther_eq {config : Config} (hlimit : config.maxGraphEdges ≤ FlowGraph.edgeBound)
    (hr : ∀ v, resolve r h = .ok v → v.Engaged config) :
    nextFurther r h = plain (r.nextFurther h) := by
  refine plain_bind fun v hv => ?_
  have hengaged := hr v (FlowRegistry.session_eq_ok_iff.mp hv)
  cases hunder : v.enumeration with
  | none => rfl
  | some e =>
    obtain ⟨q, walks, hq, hpursues⟩ := hengaged.pursues e hunder
    dsimp only
    rw [next_eq (hpursues.carries hq hlimit) hpursues.tracks]
    refine plain_bind fun taken htaken => ?_
    cases taken with
    | none => rfl
    | some x =>
      obtain ⟨best, e'⟩ := x
      obtain ⟨-, result, hresult, hreports⟩ := hpursues.taken hq hlimit htaken
      dsimp only
      rw [walkResult_eq hresult hreports.along.sum, hresult]
      rfl

end Flows

/-! ## Calls -/

/-- Run an operation on the flow sessions; one that fails leaves the session as it is. -/
def onFlows {α : Type} (s : Session)
    (op : FlowContext → FlowRegistry → Except Stop (α × FlowRegistry)) :
    Except Overflow (SessionOutcome α) :=
  match s.policy with
  | none => .ok (.error (.configuration .noPolicy), s)
  | some policy =>
    match op { policy, permissions := s.permissions, config := s.config } s.registry with
    | .ok (a, registry) => .ok (.ok a, { s with registry })
    | .error (.failed e) => .ok (.error e, s)
    | .error (.overflow sum) => .error sum

/-- Analyse one-hop flows for a flat record. -/
def runHops (s : Session) (p : HopParams) : Except Overflow (SessionOutcome HopOutput) :=
  match p.toQuery with
  | .error e => .ok (.error e, s)
  | .ok q => do
    let (outcome, s) ← onFlows s fun c r => analyzeHops c r q
    .ok (outcome.map fun r => { handle := r.2, results := r.1.map HopRecord.ofResult }, s)

/-- Analyse flows over many hops for a flat record. -/
def runReach (s : Session) (p : ReachParams) : Except Overflow (SessionOutcome ReachOutput) :=
  match p.toQuery with
  | .error e => .ok (.error e, s)
  | .ok q => do
    let (outcome, s) ← onFlows s fun c r => analyzeReach c r q
    .ok (outcome.map fun r => { handle := r.2, results := r.1 }, s)

/-- Ask for the results at another start type, the handle given by its token. -/
def continueToken (s : Session) (token start : String) :
    Except Overflow (SessionOutcome (List FlowResult)) :=
  match Handle.ofText token with
  | .ok h => onFlows s fun c r => continueFrom c r h start
  | .error e => .ok (.error e, s)

/-- Make a call. Calls that are not about flows take no sums, nor does giving up an enumeration or a
graph. -/
def call (s : Session) : Call → Except Overflow (SessionOutcome Answer)
  | .analyzeHops q =>
    (onFlows s fun c r => analyzeHops c r q).map (Answer.ofOutcome fun r => .begun r.1 r.2)
  | .analyzeReach q =>
    (onFlows s fun c r => analyzeReach c r q).map (Answer.ofOutcome fun r => .begun r.1 r.2)
  | .continueFrom h start =>
    (onFlows s fun c r => continueFrom c r h start).map (Answer.ofOutcome .flows)
  | .continueToken token start => (continueToken s token start).map (Answer.ofOutcome .flows)
  | .prepareFurther h start finish =>
    (onFlows s fun c r => prepareFurther c r h start finish).map (Answer.ofOutcome fun _ => .done)
  | .nextFurther h => (onFlows s fun _ r => nextFurther r h).map (Answer.ofOutcome .flows)
  | .runHops p => (runHops s p).map (Answer.ofOutcome .hopOutput)
  | .runReach p => (runReach s p).map (Answer.ofOutcome .reachOutput)
  | c => .ok (s.call c)

/-- The calls of a run, each with its outcome. -/
def outcomes (s : Session) : List Call → Except Overflow (List (Call × Except AnalysisError Answer))
  | [] => .ok []
  | c :: cs => do
    let (outcome, s) ← call s c
    let rest ← outcomes s cs
    .ok ((c, outcome) :: rest)

variable {s : Session} {c : Call}

theorem onFlows_eq {α : Type} {op : FlowContext → FlowRegistry → Except Stop (α × FlowRegistry)}
    {op' : FlowContext → FlowRegistry → Except AnalysisError (α × FlowRegistry)}
    (hop : ∀ p, op (s.flowContext p) s.registry = plain (op' (s.flowContext p) s.registry)) :
    onFlows s op = .ok (s.onFlows op') := by
  unfold onFlows Session.onFlows
  cases s.policy with
  | none => rfl
  | some p =>
    have hp := hop p
    unfold Session.flowContext at hp
    dsimp only
    rw [hp]
    cases op' { policy := p, permissions := s.permissions, config := s.config } s.registry <;> rfl

/-- **No sum of a call overflows.** -/
theorem call_eq (hlimit : s.config.maxGraphEdges ≤ FlowGraph.edgeBound) (hs : s.Engaged) (c : Call) :
    call s c = .ok (s.call c) := by
  have hops (q : HopQuery) : onFlows s (fun c r => analyzeHops c r q) = .ok (s.analyzeHops q) :=
    onFlows_eq fun _ => analyzeHops_eq hs.founded.permissions hlimit q
  have hreach (q : ReachQuery) : onFlows s (fun c r => analyzeReach c r q) = .ok (s.analyzeReach q) :=
    onFlows_eq fun _ => analyzeReach_eq hs.founded.permissions hlimit q
  have hcontinue (h : Handle) (start : String) :
      onFlows s (fun c r => continueFrom c r h start) = .ok (s.continueFrom h start) :=
    onFlows_eq fun _ => continueFrom_eq hlimit (fun _ hv => (hs.of_resolve hv).founded) start
  cases c with
  | analyzeHops q => exact congrArg (Except.map _) (hops q)
  | analyzeReach q => exact congrArg (Except.map _) (hreach q)
  | continueFrom h start => exact congrArg (Except.map _) (hcontinue h start)
  | continueToken token start =>
    refine congrArg (Except.map (Answer.ofOutcome .flows))
      (?_ : continueToken s token start = .ok (s.continueToken token start))
    unfold continueToken Session.continueToken Session.onToken
    cases Handle.ofText token with
    | error e => rfl
    | ok h => exact hcontinue h start
  | prepareFurther h first last =>
    have hprepare : onFlows s (fun c r => prepareFurther c r h first last) =
        .ok (s.prepareFurther h first last) :=
      onFlows_eq fun _ => prepareFurther_eq hlimit (fun _ hv => (hs.of_resolve hv).founded) first last
    exact congrArg (Except.map _) hprepare
  | nextFurther h =>
    have hnext : onFlows s (fun _ r => nextFurther r h) = .ok (s.nextFurther h) :=
      onFlows_eq fun _ => nextFurther_eq hlimit fun _ hv => hs.of_resolve hv
    exact congrArg (Except.map _) hnext
  | runHops p =>
    refine congrArg (Except.map (Answer.ofOutcome .hopOutput)) (?_ : runHops s p = .ok (s.runHops p))
    unfold runHops Session.runHops
    cases p.toQuery with
    | error e => rfl
    | ok q =>
      dsimp only
      rw [hops]
      rfl
  | runReach p =>
    refine congrArg (Except.map (Answer.ofOutcome .reachOutput)) (?_ : runReach s p = .ok (s.runReach p))
    unfold runReach Session.runReach
    cases p.toQuery with
    | error e => rfl
    | ok q =>
      dsimp only
      rw [hreach]
      rfl
  | _ => rfl

end Checked

/-! ## Reported lengths -/

/-- The flows that an answer gives with their lengths. -/
def Answer.flowsGiven : Answer → List FlowResult
  | .begun results _ => results
  | .flows results => results
  | .reachOutput o => o.results
  | _ => []

namespace Session

variable {s : Session} {c : Call} {a : Answer} {f : FlowResult}

/-- The call asks for flows over many hops: it analyses them, or is about a flow session that does. -/
inductive AsksReach (s : Session) : Call → Prop
  | analyze (q : ReachQuery) : AsksReach s (.analyzeReach q)
  | run (p : ReachParams) : AsksReach s (.runReach p)
  | session {c : Call} {h : Handle} {v : FlowSession} {direction : ReachDirection}
      (about : c.handle? = some h) (resolved : resolve s.registry h = .ok v)
      (kind : v.kind = .reach direction) : AsksReach s c

theorem exact_analyzeReach (hlimit : s.config.maxGraphEdges ≤ FlowGraph.edgeBound) (hs : s.Engaged)
    {q : ReachQuery} {x : List FlowResult × Handle} (hx : (s.analyzeReach q).1 = .ok x) :
    ∀ f ∈ x.1, f.Exact := by
  obtain ⟨results, h⟩ := x
  obtain ⟨p, r, -, hok, -⟩ := onFlows_ok hx
  obtain ⟨m, start, types, hm, -, -, hbegin⟩ := FlowContext.analyzeReach_eq_ok hok
  obtain ⟨graph, hgraph, rfl, -⟩ := FlowContext.begin_eq_ok hbegin
  have hindex := FlowGraph.index_of_built (hs.founded.permissions m hm) p
    { classPerms := q.classPerms, scope := .transitive q.direction, intermediate := types }
  obtain ⟨hgrown, -, -⟩ := FlowGraph.grow_grown hindex.sound (FlowGraph.grown_empty _ _) hgraph
  exact fun f hf => hgrown.exact_reachResults hindex hlimit hf

theorem exact_continueFrom (hlimit : s.config.maxGraphEdges ≤ FlowGraph.edgeBound) (hs : s.Engaged)
    {h : Handle} {name : String} {v : FlowSession} {direction : ReachDirection}
    (hv : resolve s.registry h = .ok v) (hkind : v.kind = .reach direction)
    {results : List FlowResult} (hr : (s.continueFrom h name).1 = .ok results) :
    ∀ f ∈ results, f.Exact := by
  obtain ⟨p, r, -, hok, -⟩ := onFlows_ok hr
  obtain ⟨v', start, graph, hv', -, hgraph, rfl, -⟩ := FlowContext.continueFrom_eq_ok hok
  obtain rfl := Except.ok.inj (hv.symm.trans hv')
  have hfounded := (hs.of_resolve hv).founded
  obtain ⟨hgrown, -, -⟩ := FlowGraph.grow_grown hfounded.index.sound hfounded.grown hgraph
  rw [hkind]
  exact fun f hf => hgrown.exact_reachResults hfounded.index hlimit hf

theorem exact_nextFurther (hlimit : s.config.maxGraphEdges ≤ FlowGraph.edgeBound) (hs : s.Engaged)
    {h : Handle} (ha : (s.call (.nextFurther h)).1 = .ok a) : ∀ f ∈ a.flowsGiven, f.Exact := by
  rcases next_cases s h with ⟨e, he⟩ | ⟨v, e, hv, hunder, hcases⟩
  · rw [he] at ha
    exact nomatch ha
  · obtain ⟨q, walks, hq, hpursues⟩ := (hs.of_resolve hv).pursues e hunder
    rcases hcases with ⟨-, he⟩ | ⟨best, e', hnext, he⟩
    · rw [he] at ha
      obtain rfl := Except.ok.inj ha
      exact fun _ => (nomatch ·)
    · obtain ⟨-, r, hr, hreports⟩ := hpursues.taken hq hlimit hnext
      rw [he, hr] at ha
      obtain rfl := Except.ok.inj ha
      intro f hf
      obtain rfl := List.mem_singleton.mp hf
      exact hq.index.exact hreports.along

/-- **The lengths of the flows over many hops that a call reports are exact.** -/
theorem flowsGiven_exact (hlimit : s.config.maxGraphEdges ≤ FlowGraph.edgeBound) (hs : s.Engaged)
    (hc : s.AsksReach c) (ha : (s.call c).1 = .ok a) : ∀ f ∈ a.flowsGiven, f.Exact := by
  cases hc with
  | analyze q =>
    obtain ⟨x, hx, rfl⟩ := map_eq_ok_iff.mp ha
    exact exact_analyzeReach hlimit hs hx
  | run p =>
    obtain ⟨o, ho, rfl⟩ := map_eq_ok_iff.mp ha
    unfold runReach at ho
    cases hq : p.toQuery with
    | error e =>
      rw [hq] at ho
      exact nomatch ho
    | ok q =>
      rw [hq] at ho
      obtain ⟨x, hx, rfl⟩ := map_eq_ok_iff.mp ho
      exact exact_analyzeReach hlimit hs hx
  | @session _ h v direction about resolved kind =>
    cases c with
    | continueFrom h' start =>
      obtain rfl := Option.some.inj about
      obtain ⟨results, hr, rfl⟩ := map_eq_ok_iff.mp ha
      exact exact_continueFrom hlimit hs resolved kind hr
    | continueToken token start =>
      obtain ⟨results, hr, rfl⟩ := map_eq_ok_iff.mp ha
      have htoken : Handle.ofToken? token = some h := about
      unfold continueToken onToken Handle.ofText at hr
      rw [htoken] at hr
      exact exact_continueFrom hlimit hs resolved kind hr
    | nextFurther h' => exact exact_nextFurther hlimit hs ha
    | prepareFurther h' first last | abortFurther h' | destroy h' | destroyToken token =>
      obtain ⟨x, -, rfl⟩ := map_eq_ok_iff.mp ha
      exact fun _ => (nomatch ·)
    | _ => exact nomatch about

/-! ## Runs -/

/-- **Every run keeps the flow sessions engaged**, if the maps that it loads have been built. -/
theorem after_engaged {cs : List Call} (hlimit : s.config.maxGraphEdges ≤ FlowGraph.edgeBound)
    (hs : s.Engaged) (hmaps : ∀ m, .loadPermissions m ∈ cs → m.Built) : (s.after cs).Engaged := by
  induction cs generalizing s with
  | nil => exact hs
  | cons c cs ih =>
    have heffect := call_effect s c
    exact ih (heffect.config ▸ hlimit) (heffect.engaged hlimit hs (loads_built hmaps))
      fun m hm => hmaps m (List.mem_cons_of_mem c hm)

theorem outcomes_checked {cs : List Call} (hlimit : s.config.maxGraphEdges ≤ FlowGraph.edgeBound)
    (hs : s.Engaged) (hmaps : ∀ m, .loadPermissions m ∈ cs → m.Built) :
    Checked.outcomes s cs = .ok (s.outcomes cs) := by
  induction cs generalizing s with
  | nil => rfl
  | cons c cs ih =>
    have heffect := call_effect s c
    have hrest := ih (heffect.config ▸ hlimit) (heffect.engaged hlimit hs (loads_built hmaps))
      fun m hm => hmaps m (List.mem_cons_of_mem c hm)
    unfold Checked.outcomes
    rw [Checked.call_eq hlimit hs]
    show (Checked.outcomes (s.call c).2 cs >>= _) = _
    rw [hrest]
    rfl

/-- **Sums of weights never overflow.** In every run that loads permission maps which have been built, with
no more edges allowed than the bound, every sum of weights is a word: those that searches take for hops
that they only try, those along candidates, and those for the flows reported. So whatever is reported over
many hops has the exact sum of its steps' weights for its length, which is ten times their number at
most. -/
theorem sums_never_overflow {s₀ : Session} (h₀ : s₀.Initial)
    (hlimit : s₀.config.maxGraphEdges ≤ FlowGraph.edgeBound) {cs : List Call}
    (hmaps : ∀ m, .loadPermissions m ∈ cs → m.Built) :
    Checked.outcomes s₀ cs = .ok (s₀.outcomes cs) ∧
      ∀ pre c post a, cs = pre ++ c :: post → (s₀.after pre).AsksReach c →
        ((s₀.after pre).call c).1 = .ok a → ∀ f ∈ a.flowsGiven, f.Exact := by
  refine ⟨outcomes_checked hlimit h₀.engaged hmaps, fun pre c post a hcs hc ha => ?_⟩
  subst hcs
  have hengaged : (s₀.after pre).Engaged :=
    after_engaged hlimit h₀.engaged fun m hm => hmaps m (List.mem_append_left _ hm)
  exact flowsGiven_exact (config_after s₀ pre ▸ hlimit) hengaged hc ha

/-- An analysis at `a`, after which the paths from `a` to `c` are to be enumerated. -/
def sampleAsked : List Call := sampleReach ++ [.prepareFurther ⟨0, 0, 1⟩ "a" "c"]

/-- The first path from `a` to `c` has an exact length. -/
theorem sample_sums :
    Checked.outcomes sample (sampleAsked ++ [.nextFurther ⟨0, 0, 1⟩]) =
        .ok (sample.outcomes (sampleAsked ++ [.nextFurther ⟨0, 0, 1⟩])) ∧
      ∃ f, ((sample.after sampleAsked).call (.nextFurther ⟨0, 0, 1⟩)).1 = .ok (.flows [f]) ∧
        f.Exact := by
  have hinit : sample.Initial := ⟨{}, Or.inr ⟨.sample, rfl⟩⟩
  have hmaps : ∀ m, .loadPermissions m ∈ sampleAsked ++ [.nextFurther ⟨0, 0, 1⟩] → m.Built := by
    intro m hm
    obtain rfl : m = .sample := by simpa [sampleAsked, sampleReach] using hm
    exact PermissionMap.built_sample
  have hkind : (resolve (sample.after sampleAsked).registry ⟨0, 0, 1⟩).toOption.any
      (·.kind = .reach .fromStart) = true := by
    decide +kernel
  have hone : ((sample.after sampleAsked).nextFurther ⟨0, 0, 1⟩).1.toOption.any (·.length = 1) = true := by
    decide +kernel
  obtain ⟨hsums, hexact⟩ := sums_never_overflow hinit (by decide) hmaps
  refine ⟨hsums, ?_⟩
  obtain ⟨v, hv, hreach⟩ := exists_ok_of_any hkind
  obtain ⟨results, hresults, hlength⟩ := exists_ok_of_any hone
  obtain ⟨f, rfl⟩ := List.length_eq_one_iff.mp (of_decide_eq_true hlength)
  have hcall : ((sample.after sampleAsked).call (.nextFurther ⟨0, 0, 1⟩)).1 = .ok (.flows [f]) :=
    Answer.ofOutcome_eq_ok (congrArg Except.toOption hresults)
  have hasks : (sample.after sampleAsked).AsksReach (.nextFurther ⟨0, 0, 1⟩) :=
    .session rfl hv (of_decide_eq_true hreach)
  exact ⟨f, hcall, hexact _ _ [] _ rfl hasks hcall f List.mem_cons_self⟩

/-- The limit on edges that holds unless another is configured. -/
example : ({} : Config).maxGraphEdges ≤ FlowGraph.edgeBound := by
  decide

end Session

end PolicyReach
