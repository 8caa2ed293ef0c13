import PolicyReach.Proofs.Flow.InPlace
import PolicyReach.Proofs.Registry.InPlace
import PolicyReach.Proofs.Session.Calls

/-!
# Operations on flow sessions, in place

An operation on a flow session works on it where it stands in the registry: its graph is grown there, and
paths are taken there from the enumeration under way. Here the operations are such procedures, with their
checks and their writes in order.

* `Session.Coherent`: every flow session has a graph grown from its index; every run keeps that
  (`after_coherent`);
* `InPlace.analyzeReach`, `InPlace.continueFrom`, `InPlace.nextFurther` and so on: the operations as
  procedures;
* **`exec_grown`**: growing a graph where it stands changes all or nothing, if what comes after does not
  fail;
* `exec_analyzeReach`, `exec_continueFrom`, `exec_nextFurther` and so on: over coherent flow sessions,
  every procedure changes all or nothing, and does what the operation does.
-/

namespace PolicyReach

open Procedure

/-! ## Coherence -/

/-- The graph of a flow session has been grown from its index. -/
structure FlowSession.Coherent (config : Config) (v : FlowSession) : Prop where
  index : v.index.Sound
  grown : FlowGraph.Grown config.maxGraphEdges v.index v.graph

theorem FlowSession.Step.coherent {config : Config} {c : Call} {v v' : FlowSession}
    (hv : v.Coherent config) (h : v.Step config c v') : v'.Coherent config := by
  have hgrow {root : TypeName} {graph : FlowGraph}
      (hg : v.index.grow config.maxGraphEdges v.graph root = .ok graph) :
      FlowGraph.Grown config.maxGraphEdges v.index graph :=
    (FlowGraph.grow_grown hv.index hv.grown hg).1
  cases h with
  | continued grown => exact ⟨hv.index, hgrow grown⟩
  | prepared call kind ends grown => exact ⟨hv.index, hgrow grown⟩
  | taken call under next => exact ⟨hv.index, hv.grown⟩
  | aborted call => exact ⟨hv.index, hv.grown⟩

namespace Session

/-- The registry is sound, and every flow session in it coherent. -/
structure Coherent (s : Session) : Prop where
  sound : Registry.Sound s.registry
  flows : Registry.All (fun e => e.value.Coherent s.config) s.registry

variable {s s' : Session} {c : Call}

theorem Initial.coherent (h : Initial s) : s.Coherent := by
  obtain ⟨config, rfl | ⟨p, rfl⟩⟩ := h
  · exact ⟨Registry.sound_empty, Registry.all_empty _⟩
  · exact ⟨Registry.sound_empty, Registry.all_empty _⟩

theorem Effect.coherent (hs : s.Coherent) (he : Effect s c s') : s'.Coherent := by
  refine ⟨he.sound hs.sound, ?_⟩
  rw [he.config]
  refine he.flows hs.sound hs.flows ?_ fun v v' hv hstep => hstep.coherent hv
  intro p m criteria kind filter start graph _ _ hselected
  have hindex := p.flows_sound m criteria
  exact ⟨hindex, (FlowGraph.grow_grown hindex (FlowGraph.grown_empty _ _) hselected).1⟩

/-- **Every run keeps the flow sessions coherent.** -/
theorem after_coherent {cs : List Call} (hs : s.Coherent) : (s.after cs).Coherent := by
  induction cs generalizing s with
  | nil => exact hs
  | cons c cs ih => exact ih ((call_effect s c).coherent hs)

theorem Coherent.of_resolve (hs : s.Coherent) {h : Handle} {v : FlowSession}
    (hv : Registry.resolve s.registry h = .ok v) : v.Coherent s.config :=
  hs.flows.of_held (Registry.resolve_eq_ok_iff.mp hv).1

end Session

/-! ## Operations as procedures -/

namespace InPlace

variable {α : Type}

/-- Do something to the graph of a flow session. -/
def onGraph (x : Procedure FlowGraph α) : Procedure FlowSession α :=
  inside FlowSession.graph (fun v graph => { v with graph }) x

/-- Do something to the enumeration under way in a flow session. -/
def onEnumeration (e : PathEnumeration) (x : Procedure PathEnumeration α) : Procedure FlowSession α :=
  inside (fun _ => e) (fun v e => { v with enumeration := some e }) x

section Flows

variable (c : FlowContext)

/-- Begin a session at `start`. -/
def begin (permissions : PermissionMap) (criteria : Criteria) (kind : FlowKind)
    (filter : Option NameFilter) (start : TypeName) :
    Procedure FlowRegistry (List FlowResult × Handle) := do
  let index := c.policy.flows permissions criteria
  let graph ← ofExcept (index.selectFrom c.config.maxGraphEdges start)
  let results := graph.results c.policy filter kind start
  let h ← register { index, graph, kind, filter }
  pure (results, h)

/-- Analyse the one-hop flows at a type. -/
def analyzeHops (q : HopQuery) : Procedure FlowRegistry (List FlowResult × Handle) := do
  let permissions ← ofExcept c.permissionMap
  let start ← ofExcept (c.typeOf q.start)
  begin c permissions { classPerms := q.classPerms, scope := .direct, intermediate := none }
    (.hop q.direction) q.filter start

/-- Analyse the lightest flows to or from a type. -/
def analyzeReach (q : ReachQuery) : Procedure FlowRegistry (List FlowResult × Handle) := do
  let permissions ← ofExcept c.permissionMap
  let start ← ofExcept (c.typeOf q.start)
  let intermediate ← ofExcept (c.intermediate q)
  begin c permissions
    { classPerms := q.classPerms, scope := .transitive q.direction, intermediate }
    (.reach q.direction) q.filter start

/-- Ask a session for the results at another start type. Its graph is grown where it stands. -/
def continueFrom (h : Handle) (name : String) : Procedure FlowRegistry (List FlowResult) := do
  let r ← get
  let _ ← ofExcept (r.session h)
  let _ ← ofExcept c.permissionMap
  let start ← ofExcept (c.typeOf name)
  atHandle h do
    let v ← get
    onGraph (grow c.config.maxGraphEdges v.index start)
    let v ← get
    pure (v.graph.results c.policy v.filter v.kind start)

/-- Begin to enumerate the paths between two types, once the graph has been grown where it stands. -/
def prepareFurther (h : Handle) (first last : String) : Procedure FlowRegistry Unit := do
  let r ← get
  let v ← ofExcept (r.session h)
  match v.kind with
  | .hop _ => throw (.query .oneHopGraph)
  | .reach direction =>
    let _ ← ofExcept c.permissionMap
    let start ← ofExcept (c.typeOf first)
    let finish ← ofExcept (c.typeOf last)
    if start = finish then
      throw (.query (.sameEnds start))
    else
      atHandle h do
        let v ← get
        onGraph (grow c.config.maxGraphEdges v.index start)
        modify fun v =>
          { v with
            enumeration := some (.prepare v.graph start finish direction.orientation
              c.config.maxCandidates) }

end Flows

/-- Take the next path of the enumeration under way, where it stands; none when all are taken. -/
def nextFurther (h : Handle) : Procedure FlowRegistry (List FlowResult) :=
  atHandle h do
    let v ← get
    match v.enumeration with
    | none => throw (.query (.noSearch h))
    | some e =>
      onEnumeration e do
        match ← next v.graph with
        | none => pure []
        | some path =>
          let e ← get
          pure (v.graph.walkResult? e.orientation v.pathDirection e.start path.walk).toList

/-- Give up the enumeration under way; the flag tells whether there was one. -/
def abortFurther (h : Handle) : Procedure FlowRegistry Bool :=
  atHandle h do
    let v ← get
    modify fun v => { v with enumeration := none }
    pure v.enumeration.isSome

/-- Give up a session. -/
def discard (h : Handle) : Procedure FlowRegistry Unit := do
  let _ ← destroy h
  pure ()

/-! ## What the procedures do -/

variable {c : FlowContext} {r : FlowRegistry} {h : Handle} {v : FlowSession}

theorem exec_begin (hr : Registry.Sound r) (permissions : PermissionMap) (criteria : Criteria)
    (kind : FlowKind) (filter : Option NameFilter) (start : TypeName) :
    exec (begin c permissions criteria kind filter start) r =
      settle r (c.begin r permissions criteria kind filter start) := by
  unfold begin FlowContext.begin
  refine exec_check fun graph _ => ?_
  refine (exec_last_write (g := fun y => ((graph.results c.policy filter kind start, y.1), y.2))
    (exec_register hr _) fun _ _ => rfl).trans ?_
  cases Registry.register r
    ({ index := c.policy.flows permissions criteria, graph, kind, filter } : FlowSession) <;> rfl

theorem exec_analyzeHops (hr : Registry.Sound r) (q : HopQuery) :
    exec (analyzeHops c q) r = settle r (c.analyzeHops r q) :=
  exec_check fun _ _ => exec_check fun _ _ => exec_begin hr _ _ _ _ _

theorem exec_analyzeReach (hr : Registry.Sound r) (q : ReachQuery) :
    exec (analyzeReach c q) r = settle r (c.analyzeReach r q) :=
  exec_check fun _ _ => exec_check fun _ _ => exec_check fun _ _ => exec_begin hr _ _ _ _ _

theorem exec_onGraph {config : Config} (hv : v.Coherent config) (start : TypeName) :
    exec (onGraph (grow config.maxGraphEdges v.index start)) v =
      settle v ((v.index.grow config.maxGraphEdges v.graph start).map fun graph =>
        ((), { v with graph })) := by
  refine (exec_inside_settle (exec_grow hv.index hv.grown start) rfl).trans ?_
  cases v.index.grow config.maxGraphEdges v.graph start <;> rfl

/-- **Growing the graph of a flow session where it stands**, and then doing what cannot fail, changes all
or nothing. -/
theorem exec_grown {config : Config} (hv : Registry.resolve r h = .ok v) (hcoherent : v.Coherent config)
    (start : TypeName) {f : Unit → Procedure FlowSession α} {g : FlowSession → α × FlowSession}
    (hf : ∀ v, exec (f ()) v = (.ok (g v).1, (g v).2)) :
    exec (atHandle h (do
        let v ← get
        onGraph (grow config.maxGraphEdges v.index start) >>= f)) r =
      settle r ((v.index.grow config.maxGraphEdges v.graph start).map fun graph =>
        ((g { v with graph }).1, Registry.replace r h (g { v with graph }).2)) := by
  have hwrite : exec (onGraph (grow config.maxGraphEdges v.index start) >>= f) v =
      settle v ((v.index.grow config.maxGraphEdges v.graph start).map fun graph =>
        g { v with graph }) := by
    refine (exec_last_write (g := fun y => g y.2) (exec_onGraph hcoherent start)
      fun _ w => hf w).trans ?_
    cases v.index.grow config.maxGraphEdges v.graph start <;> rfl
  refine (exec_atHandle hv (exec_get_bind.trans hwrite)).trans ?_
  cases v.index.grow config.maxGraphEdges v.graph start <;> rfl

theorem exec_continueFrom (hr : ∀ v, Registry.resolve r h = .ok v → v.Coherent c.config)
    (name : String) : exec (continueFrom c h name) r = settle r (c.continueFrom r h name) := by
  unfold continueFrom FlowContext.continueFrom
  rw [exec_get_bind]
  refine exec_check fun v hv => exec_check fun _ _ => exec_check fun start _ => ?_
  have hresolve := FlowRegistry.session_eq_ok_iff.mp hv
  -- the results are read off the graph once it has been grown
  refine (exec_grown (g := fun v => (v.graph.results c.policy v.filter v.kind start, v)) hresolve
    (hr v hresolve) start fun _ => rfl).trans ?_
  cases v.index.grow c.config.maxGraphEdges v.graph start <;> rfl

theorem exec_prepareFurther (hr : ∀ v, Registry.resolve r h = .ok v → v.Coherent c.config)
    (first last : String) :
    exec (prepareFurther c h first last) r = settle r (c.prepareFurther r h first last) := by
  unfold prepareFurther FlowContext.prepareFurther
  rw [exec_get_bind]
  refine exec_check fun v hv => ?_
  have hresolve := FlowRegistry.session_eq_ok_iff.mp hv
  have hcoherent := hr v hresolve
  obtain ⟨index, graph, kind, filter, enumeration⟩ := v
  cases kind with
  | hop direction => rfl
  | reach direction =>
    refine exec_check fun _ _ => exec_check fun start _ => exec_check fun finish _ => ?_
    by_cases hends : start = finish
    · rw [if_pos hends, if_pos hends]
      rfl
    · rw [if_neg hends, if_neg hends]
      -- any enumeration under way is replaced only after the graph has been grown
      refine (exec_grown (g := fun v => ((), { v with
        enumeration := some (.prepare v.graph start finish direction.orientation
          c.config.maxCandidates) })) hresolve hcoherent start fun _ => rfl).trans ?_
      dsimp only
      cases index.grow c.config.maxGraphEdges graph start <;> rfl

/-- What is reported of a path that has been taken, if one has. -/
def reported (v : FlowSession) (taken : Option Candidate) (e : PathEnumeration) : List FlowResult :=
  match taken with
  | none => []
  | some path => (v.graph.walkResult? e.orientation v.pathDirection e.start path.walk).toList

theorem exec_nextFurther (r : FlowRegistry) (h : Handle) :
    exec (nextFurther h) r = settle r (r.nextFurther h) := by
  unfold nextFurther FlowRegistry.nextFurther FlowRegistry.session
  cases hv : Registry.resolve r h with
  | error fault => exact exec_atHandle_error hv
  | ok v =>
    obtain ⟨index, graph, kind, filter, enumeration⟩ := v
    cases enumeration with
    | none => exact exec_atHandle (y := .error (.query (.noSearch h))) hv rfl
    | some e =>
      let v : FlowSession := { index, graph, kind, filter, enumeration := some e }
      refine (exec_atHandle hv (exec_get_bind.trans (exec_inside_settle (exec_last_write
        (g := fun y => (reported v y.1 y.2, y.2)) (exec_next graph e) fun taken e' => ?_) rfl))).trans ?_
      · cases taken <;> rfl
      · dsimp only [bind, Except.bind, Except.mapError]
        cases hnext : e.next graph with
        | error e' => rfl
        | ok taken =>
          cases taken with
          | none => exact congrArg (Prod.mk _) (Registry.replace_self hv)
          | some y => rfl

theorem exec_abortFurther (r : FlowRegistry) (h : Handle) :
    exec (abortFurther h) r = settle r (r.abortFurther h) := by
  unfold abortFurther FlowRegistry.abortFurther FlowRegistry.session
  cases hv : Registry.resolve r h with
  | error fault => exact exec_atHandle_error hv
  | ok v =>
    refine exec_atHandle (y := .ok (v.enumeration.isSome, { v with enumeration := none })) hv ?_
    rw [exec_get_bind, exec_bind_ok (exec_modify _ v)]
    rfl

theorem exec_discard (r : FlowRegistry) (h : Handle) :
    exec (discard h) r = settle r (r.discard h) := by
  refine (exec_last_write (g := fun y => ((), y.2)) (exec_destroy r h) fun _ _ => rfl).trans ?_
  unfold FlowRegistry.discard
  cases Registry.destroy r h <;> rfl

end InPlace

end PolicyReach
