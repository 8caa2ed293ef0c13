import PolicyReach.DomainTransition
import PolicyReach.Relabel

/-!
# Analysis sessions

A session holds a policy, a permission map, a configuration, the registry of flow sessions and the
memo of the domain-transition analysis. Whatever changes the policy, the value of a boolean or the
permission map begins a new epoch, so that no handle issued before is ever good again; what changes
nothing leaves the handles alone. A permission map is taken for unchanged when its fingerprint is.

Every operation gives its result, or an error, with the session after it.
-/

namespace PolicyReach

/-- The state of an analysis session. -/
structure Session where
  config : Config
  policy : Option Policy := none
  permissions : Option PermissionMap := none
  /-- The fingerprint of the permission map. -/
  fingerprint : Option String := none
  registry : FlowRegistry := .empty
  memo : GrantMemo

/-- The result of an operation, with the session after it. -/
abbrev SessionOutcome (α : Type) := Except AnalysisError α × Session

/-- What a one-hop analysis gives to a caller with flat records. -/
structure HopOutput where
  handle : Handle
  results : List HopRecord
  deriving DecidableEq

/-- What an analysis over many hops gives to a caller with flat records. -/
structure ReachOutput where
  handle : Handle
  results : List FlowResult
  deriving DecidableEq

/-- What a domain-transition analysis gives to a caller with flat records. -/
structure TransitionOutput where
  results : List DomainTransition
  deriving DecidableEq

/-- What a relabelling analysis gives to a caller with flat records. -/
structure RelabelOutput where
  results : List RelabelResult
  deriving DecidableEq

namespace Session

/-! ## Beginning -/

/-- A session with no policy loaded. -/
def new (config : Config) : Session := { config, memo := .ofConfig config.memo }

/-- A session over a policy. -/
def ofPolicy (config : Config) (p : Policy) : Session := { new config with policy := some p }

/-- The current epoch. -/
def epoch (s : Session) : UInt64 := s.registry.epoch

/-- The number of graphs registered, stale ones included. -/
def live (s : Session) : Nat := s.registry.live

/-! ## Changes -/

/-- Begin a new epoch. -/
def invalidateAll (s : Session) : Session :=
  { s with registry := s.registry.invalidateAll, memo := s.memo.cleared }

/-- Put another policy in the place of the one loaded, which is given back. -/
def replacePolicy (s : Session) (p : Policy) : Option Policy × Session :=
  (s.policy, { s with policy := some p }.invalidateAll)

/-- Load a policy from a fixture in a file. -/
def loadPolicy (s : Session) (file : TextFile) : SessionOutcome Unit :=
  match Policy.ofFile file with
  | .ok p => (.ok (), (s.replacePolicy p).2)
  | .error e => (.error (.configuration (.policy e)), s)

/-- Load a permission map; the flag tells whether it differs from the one loaded. -/
def loadPermissions (s : Session) (m : PermissionMap) : Bool × Session :=
  let fingerprint := some m.fingerprint
  if fingerprint = s.fingerprint then (false, s)
  else (true, { s with permissions := some m, fingerprint }.invalidateAll)

/-- Load a permission map from a file. -/
def loadPermissionsFile (s : Session) (file : TextFile) : SessionOutcome Bool :=
  match PermissionMap.ofFile file with
  | .ok m =>
    let (changed, s) := s.loadPermissions m
    (.ok changed, s)
  | .error e => (.error (.configuration (.permissionMap e)), s)

/-- Set a boolean of the policy. -/
def setBoolean (s : Session) (name : String) (value : Bool) : SessionOutcome Unit :=
  match s.policy with
  | none => (.error (.configuration .noPolicy), s)
  | some p =>
    match p.boolean? name with
    | none => (.error (.query (.unknownBoolean name)), s)
    | some current =>
      if current = value then (.ok (), s)
      else (.ok (), { s with policy := some (p.setBoolean name value).2 }.invalidateAll)

/-- Give up the graphs of earlier epochs; also tells how many there were. -/
def purgeStale (s : Session) : Nat × Session :=
  let (purged, registry) := s.registry.purgeStale
  (purged, { s with registry })

/-! ## Flows -/

/-- Run an operation on the flow sessions; one that fails leaves the session as it is. -/
def onFlows {α : Type} (s : Session)
    (op : FlowContext → FlowRegistry → Except AnalysisError (α × FlowRegistry)) :
    SessionOutcome α :=
  match s.policy with
  | none => (.error (.configuration .noPolicy), s)
  | some policy =>
    match op { policy, permissions := s.permissions, config := s.config } s.registry with
    | .ok (a, registry) => (.ok a, { s with registry })
    | .error e => (.error e, s)

/-- Analyse the one-hop flows at a type. -/
def analyzeHops (s : Session) (q : HopQuery) : SessionOutcome (List FlowResult × Handle) :=
  s.onFlows fun c r => c.analyzeHops r q

/-- Analyse the lightest flows to or from a type. -/
def analyzeReach (s : Session) (q : ReachQuery) : SessionOutcome (List FlowResult × Handle) :=
  s.onFlows fun c r => c.analyzeReach r q

/-- Ask for the results at another start type. -/
def continueFrom (s : Session) (h : Handle) (start : String) : SessionOutcome (List FlowResult) :=
  s.onFlows fun c r => c.continueFrom r h start

/-- Begin to enumerate paths. -/
def prepareFurther (s : Session) (h : Handle) (start finish : String) : SessionOutcome Unit :=
  s.onFlows fun c r => c.prepareFurther r h start finish

/-- Take the next path. -/
def nextFurther (s : Session) (h : Handle) : SessionOutcome (List FlowResult) :=
  s.onFlows fun _ r => FlowRegistry.nextFurther r h

/-- Give up the enumeration of paths. -/
def abortFurther (s : Session) (h : Handle) : SessionOutcome Bool :=
  s.onFlows fun _ r => FlowRegistry.abortFurther r h

/-- Give up a graph. -/
def destroy (s : Session) (h : Handle) : SessionOutcome Unit :=
  s.onFlows fun _ r => FlowRegistry.discard r h

/-- Run an operation on the handle that a token names. -/
def onToken {α : Type} (s : Session) (token : String) (op : Handle → SessionOutcome α) :
    SessionOutcome α :=
  match Handle.ofText token with
  | .ok h => op h
  | .error e => (.error e, s)

/-- Ask for the results at another start type, the handle given by its token. -/
def continueToken (s : Session) (token start : String) : SessionOutcome (List FlowResult) :=
  s.onToken token fun h => s.continueFrom h start

/-- Give up a graph, the handle given by its token. -/
def destroyToken (s : Session) (token : String) : SessionOutcome Unit :=
  s.onToken token s.destroy

/-! ## Rules -/

/-- Search for domain transitions. -/
def analyzeTransitions (s : Session) (q : TransitionQuery) :
    SessionOutcome (List DomainTransition) :=
  match s.policy with
  | none => (.error (.configuration .noPolicy), s)
  | some p =>
    let (results, memo) := s.memo.analyze p q
    (results, { s with memo })

/-- Analyse relabelling. -/
def analyzeRelabel (s : Session) (q : RelabelQuery) : Except AnalysisError (List RelabelResult) :=
  match s.policy with
  | none => .error (.configuration .noPolicy)
  | some p => p.analyzeRelabel q

/-! ## Flat records -/

/-- Analyse one-hop flows for a flat record. -/
def runHops (s : Session) (p : HopParams) : SessionOutcome HopOutput :=
  match p.toQuery with
  | .error e => (.error e, s)
  | .ok q =>
    let (outcome, s) := s.analyzeHops q
    (outcome.map fun r => { handle := r.2, results := r.1.map HopRecord.ofResult }, s)

/-- Analyse flows over many hops for a flat record. -/
def runReach (s : Session) (p : ReachParams) : SessionOutcome ReachOutput :=
  match p.toQuery with
  | .error e => (.error e, s)
  | .ok q =>
    let (outcome, s) := s.analyzeReach q
    (outcome.map fun r => { handle := r.2, results := r.1 }, s)

/-- Search for domain transitions for a flat record. -/
def runTransitions (s : Session) (p : TransitionParams) : SessionOutcome TransitionOutput :=
  match p.toQuery with
  | .error e => (.error e, s)
  | .ok q =>
    let (outcome, s) := s.analyzeTransitions q
    (outcome.map fun results => { results }, s)

/-- Analyse relabelling for a flat record. -/
def runRelabel (s : Session) (p : RelabelParams) : Except AnalysisError RelabelOutput :=
  match p.toQuery with
  | .error e => .error e
  | .ok q => (s.analyzeRelabel q).map fun results => { results }

end Session

/-! ## Outputs as records -/

namespace HopOutput

def toJson (o : HopOutput) : Json :=
  .obj [("graphHandle", o.handle.toJson), ("results", .list HopRecord.toJson o.results)]

def ofJson? (v : Json) : Option HopOutput := do
  let r ← v.record? [("graphHandle", .required), ("results", .required)]
  some
    { handle := ← r.required "graphHandle" Handle.ofJson?
      results := ← r.required "results" (Json.listOf HopRecord.ofJson?) }

end HopOutput

namespace ReachOutput

def toJson (o : ReachOutput) : Json :=
  .obj [("graphHandle", o.handle.toJson), ("results", .list FlowResult.toJson o.results)]

def ofJson? (v : Json) : Option ReachOutput := do
  let r ← v.record? [("graphHandle", .required), ("results", .required)]
  some
    { handle := ← r.required "graphHandle" Handle.ofJson?
      results := ← r.required "results" (Json.listOf FlowResult.ofJson?) }

end ReachOutput

namespace TransitionOutput

def toJson (o : TransitionOutput) : Json :=
  .obj [("results", .list DomainTransition.toJson o.results)]

def ofJson? (v : Json) : Option TransitionOutput := do
  let r ← v.record? [("results", .required)]
  some { results := ← r.required "results" (Json.listOf DomainTransition.ofJson?) }

end TransitionOutput

namespace RelabelOutput

def toJson (o : RelabelOutput) : Json :=
  .obj [("results", .list RelabelResult.toJson o.results)]

def ofJson? (v : Json) : Option RelabelOutput := do
  let r ← v.record? [("results", .required)]
  some { results := ← r.required "results" (Json.listOf RelabelResult.ofJson?) }

end RelabelOutput

end PolicyReach
