import PolicyReach.Config
import PolicyReach.Flow.PathEnumeration
import PolicyReach.Flow.Results
import PolicyReach.Flow.Scan
import PolicyReach.Query
import PolicyReach.Registry

/-!
# Flow sessions

An analysis of flows leaves a session behind a handle: the index of all flows that its criteria
admit, the graph grown from the index so far, what it is asked for, its filter, and the enumeration
of paths that is under way, if one is. The session is continued from other start types and asked
for alternative paths.

Every operation takes the registry of sessions and gives, if it succeeds, its result with the
registry after it. An operation that fails gives no registry: the one before stays in force.
-/

namespace PolicyReach

/-- A graph with all that belongs to it. -/
structure FlowSession where
  index : FlowGraph
  graph : FlowGraph
  kind : FlowKind
  filter : Option NameFilter
  enumeration : Option PathEnumeration := none

/-- The sessions behind handles. -/
abbrev FlowRegistry := Registry FlowSession

/-- What flow analyses read. -/
structure FlowContext where
  policy : Policy
  permissions : Option PermissionMap
  config : Config

/-- The session that a handle names. -/
def FlowRegistry.session (r : FlowRegistry) (h : Handle) : Except AnalysisError FlowSession :=
  (r.resolve h).mapError (.invalidHandle h)

namespace FlowContext

/-- The permission map, which flow analyses cannot do without. -/
def permissionMap (c : FlowContext) : Except AnalysisError PermissionMap :=
  match c.permissions with
  | some m => .ok m
  | none => .error (.configuration .noPermissionMap)

/-- The type of a name. -/
def typeOf (c : FlowContext) (name : String) : Except AnalysisError TypeName :=
  match c.policy.resolve name with
  | some t => .ok t
  | none => .error (.unknownType name)

end FlowContext

namespace Policy

/-- The types that names cover; every name must cover one. -/
def expandAll (p : Policy) (names : List String) : Except AnalysisError (OrdSet TypeName) :=
  names.foldlM
    (fun types name =>
      let covered := p.expand name
      if covered.isEmpty then .error (.unknownType name) else .ok (types.union covered))
    ∅

end Policy

namespace FlowContext

/-- The graph of some criteria: what the scope needs around a start type, or all flows. -/
def graphOf (c : FlowContext) (criteria : Criteria) (start : Option String) :
    Except AnalysisError FlowGraph := do
  let permissions ← c.permissionMap
  match start with
  | none => (c.policy.flows permissions criteria).checkLimit c.config.maxGraphEdges
  | some name =>
    let start ← c.typeOf name
    (c.policy.flows permissions criteria).selectFrom c.config.maxGraphEdges start

/-- Begin a session at `start`. -/
def begin (c : FlowContext) (r : FlowRegistry) (permissions : PermissionMap) (criteria : Criteria)
    (kind : FlowKind) (filter : Option NameFilter) (start : TypeName) :
    Except AnalysisError ((List FlowResult × Handle) × FlowRegistry) := do
  let index := c.policy.flows permissions criteria
  let graph ← index.selectFrom c.config.maxGraphEdges start
  let results := graph.results c.policy filter kind start
  match r.register { index, graph, kind, filter } with
  | some (h, r) => .ok ((results, h), r)
  | none => .error (.allocation .registryFull)

/-- Analyse the one-hop flows at a type. -/
def analyzeHops (c : FlowContext) (r : FlowRegistry) (q : HopQuery) :
    Except AnalysisError ((List FlowResult × Handle) × FlowRegistry) := do
  let permissions ← c.permissionMap
  let start ← c.typeOf q.start
  let criteria : Criteria :=
    { classPerms := q.classPerms, scope := .direct, intermediate := none }
  c.begin r permissions criteria (.hop q.direction) q.filter start

/-- The types that the names in a query allow flows to pass through. -/
def intermediate (c : FlowContext) (q : ReachQuery) :
    Except AnalysisError (Option (OrdSet TypeName)) :=
  match q.intermediate with
  | none => .ok none
  | some names => (c.policy.expandAll names.toList).map some

/-- Analyse the lightest flows to or from a type. -/
def analyzeReach (c : FlowContext) (r : FlowRegistry) (q : ReachQuery) :
    Except AnalysisError ((List FlowResult × Handle) × FlowRegistry) := do
  let permissions ← c.permissionMap
  let start ← c.typeOf q.start
  let intermediate ← c.intermediate q
  let criteria : Criteria :=
    { classPerms := q.classPerms, scope := .transitive q.direction, intermediate }
  c.begin r permissions criteria (.reach q.direction) q.filter start

/-- Ask a session for the results at another start type, growing its graph if need be. -/
def continueFrom (c : FlowContext) (r : FlowRegistry) (h : Handle) (name : String) :
    Except AnalysisError (List FlowResult × FlowRegistry) := do
  let s ← r.session h
  let _ ← c.permissionMap
  let start ← c.typeOf name
  let graph ← s.index.grow c.config.maxGraphEdges s.graph start
  .ok (graph.results c.policy s.filter s.kind start, r.replace h { s with graph })

/-- Begin to enumerate the paths between two types, in place of any enumeration under way. -/
def prepareFurther (c : FlowContext) (r : FlowRegistry) (h : Handle) (start finish : String) :
    Except AnalysisError (Unit × FlowRegistry) := do
  let s ← r.session h
  match s.kind with
  | .hop _ => .error (.query .oneHopGraph)
  | .reach direction =>
    let _ ← c.permissionMap
    let start ← c.typeOf start
    let finish ← c.typeOf finish
    if start = finish then .error (.query (.sameEnds start))
    else
      let graph ← s.index.grow c.config.maxGraphEdges s.graph start
      let enumeration :=
        PathEnumeration.prepare graph start finish direction.orientation c.config.maxCandidates
      .ok ((), r.replace h { s with graph, enumeration := some enumeration })

end FlowContext

namespace FlowSession

/-- The direction in which the paths of a session are reported. -/
def pathDirection (s : FlowSession) : FlowDirection :=
  match s.kind with
  | .hop _ => .outward
  | .reach direction => direction.flowDirection

end FlowSession

namespace FlowRegistry

/-- Take the next path of the enumeration under way; none when all are taken. -/
def nextFurther (r : FlowRegistry) (h : Handle) :
    Except AnalysisError (List FlowResult × FlowRegistry) := do
  let s ← r.session h
  match s.enumeration with
  | none => .error (.query (.noSearch h))
  | some e =>
    match ← e.next s.graph with
    | none => .ok ([], r)
    | some (path, e) =>
      let result := s.graph.walkResult? e.orientation s.pathDirection e.start path.walk
      .ok (result.toList, r.replace h { s with enumeration := some e })

/-- Give up the enumeration under way; the flag tells whether there was one. -/
def abortFurther (r : FlowRegistry) (h : Handle) :
    Except AnalysisError (Bool × FlowRegistry) := do
  let s ← r.session h
  .ok (s.enumeration.isSome, r.replace h { s with enumeration := none })

/-- Give up a session. -/
def discard (r : FlowRegistry) (h : Handle) :
    Except AnalysisError (Unit × FlowRegistry) :=
  match Registry.destroy r h with
  | .ok (_, r) => .ok ((), r)
  | .error fault => .error (.invalidHandle h fault)

end FlowRegistry

end PolicyReach
