import PolicyReach.Flow.Selection
import PolicyReach.Flow.ShortestPath
import PolicyReach.NameFilter

/-!
# Results of flow analyses

One-hop results are read off the edges at the start type, results over many hops off the lightest
walks from it. Both are in the order of the names of the types found, and only types that pass the
filter are reported.
-/

namespace PolicyReach

/-- What a flow graph is asked for. -/
inductive FlowKind where
  | hop (direction : FlowDirection)
  | reach (direction : ReachDirection)
  deriving DecidableEq

namespace FlowGraph

/-- The edges at `start` in some orientation to neighbours that pass the filter. -/
def filteredFan (g : FlowGraph) (p : Policy) (f : Option NameFilter) (o : Orientation)
    (start : TypeName) : Fan :=
  (g.fan o start).filter fun t _ => NameFilter.passes f p t

/-- A flow of one hop. -/
def hopResult (start : TypeName) (direction : FlowDirection) (finish : TypeName) (e : Edge) :
    FlowResult :=
  .ofPath direction start finish [.ofEdge e]

/-- The flows between `start` and `finish`, each direction apart. -/
def apart (start finish : TypeName) (inward outward : Option Edge) : List FlowResult :=
  (inward.map (hopResult start .inward finish)).toList
    ++ (outward.map (hopResult start .outward finish)).toList

/-- The flows between `start` and `finish`, both directions in one result: its length is that of
the lighter one. -/
def together (start finish : TypeName) (inward outward : Option Edge) : List FlowResult :=
  match inward, outward with
  | some i, some o =>
    [{ direction := .both, start, finish, length := min i.weight o.weight
       steps := [.ofEdge i, .ofEdge o] }]
  | _, _ => apart start finish inward outward

/-- The one-hop flows at `start`. -/
def hopResults (g : FlowGraph) (p : Policy) (f : Option NameFilter) (direction : FlowDirection)
    (start : TypeName) : List FlowResult :=
  let inward : Fan :=
    if direction.wantsInward then g.filteredFan p f .backward start else ∅
  let outward : Fan :=
    if direction.wantsOutward then g.filteredFan p f .forward start else ∅
  let report := if direction = .either then together start else apart start
  (inward.keys.union outward.keys).toList.flatMap fun finish =>
    report finish (inward.get? finish) (outward.get? finish)

/-- The flow along a walk from `start`. -/
def walkResult? (g : FlowGraph) (o : Orientation) (direction : FlowDirection) (start : TypeName)
    (walk : List TypeName) : Option FlowResult := do
  let finish ← walk.getLast?
  let edges ← g.walkEdges? o walk
  some (.ofPath direction start finish (edges.map FlowStep.ofEdge))

/-- The lightest flows between `start` and every type that a walk from it reaches. -/
def reachResults (g : FlowGraph) (p : Policy) (f : Option NameFilter) (direction : ReachDirection)
    (start : TypeName) : List FlowResult :=
  let o := direction.orientation
  let q : Search := { graph := g, orientation := o, source := start }
  let found := q.run
  (found.dist.keyList.filter fun t => t != start && NameFilter.passes f p t).filterMap fun t =>
    (found.walkTo? t).bind (g.walkResult? o direction.flowDirection start)

/-- The results that a graph gives for a start type. -/
def results (g : FlowGraph) (p : Policy) (f : Option NameFilter) (kind : FlowKind)
    (start : TypeName) : List FlowResult :=
  match kind with
  | .hop direction => g.hopResults p f direction start
  | .reach direction => g.reachResults p f direction start

end FlowGraph

end PolicyReach
