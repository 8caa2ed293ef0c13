import PolicyReach.Flow.Graph
import PolicyReach.AnalysisError

/-!
# Selecting the part of a graph around a root

An index holds all flows that some criteria admit. A graph is grown from it, root by root, by what
the scope of the criteria needs around each root: the edges at the root itself, or all edges that
walks to or from the root follow. A walk goes on from the root and from every passable type that it
reaches; a type that is not passable ends it.

A graph that would get too many edges is left as it is (`FlowGraph.grow`).
-/

namespace PolicyReach

namespace FlowGraph

/-- Does a walk from `root` go on at `t`? -/
def goesOn (g : FlowGraph) (root t : TypeName) : Bool := t == root || g.criteria.isPassable t

/-- The types that walks reach, round by round: `frontier` was reached in the last round. Each round
but the last reaches another node, so the number of nodes bounds the rounds. -/
def reachedFrom (g : FlowGraph) (o : Orientation) (root : TypeName) :
    (rounds : Nat) → (reached : OrdSet TypeName) → (frontier : List TypeName) → OrdSet TypeName
  | 0, reached, _ => reached
  | rounds + 1, reached, frontier =>
    let next := (frontier.filter (g.goesOn root)).flatMap fun t =>
      (g.neighbors o t).map Prod.fst
    let fresh := (OrdSet.ofList next).diff reached
    if fresh.isEmpty then reached
    else reachedFrom g o root rounds (reached.union fresh) fresh.toList

/-- The types that walks from `root` reach, itself included. -/
def reached (g : FlowGraph) (o : Orientation) (root : TypeName) : OrdSet TypeName :=
  g.reachedFrom o root (g.nodeCount + 1) (.singleton root) [root]

/-- The edges that the scope of an index needs around a root. -/
def select (index : FlowGraph) (root : TypeName) : List Edge :=
  match index.criteria.scope with
  | .direct =>
    ((index.neighbors .forward root) ++ (index.neighbors .backward root)).map Prod.snd
  | .transitive direction =>
    let o := direction.orientation
    ((index.reached o root).toList.filter (index.goesOn root)).flatMap fun t =>
      (index.neighbors o t).map Prod.snd

/-- The graph itself, if it has no more than `limit` edges. -/
def checkLimit (g : FlowGraph) (limit : Nat) : Except AnalysisError FlowGraph :=
  if limit < g.edgeCount then .error (.allocation (.graphEdges g.edgeCount limit)) else .ok g

/-- The graph grown by what the index holds around `root`. -/
def grow (limit : Nat) (index g : FlowGraph) (root : TypeName) :
    Except AnalysisError FlowGraph :=
  if g.roots.contains root then .ok g
  else ((g.insertEdges (index.select root)).checkLimit limit).map fun g => g.addRoot root

/-- The graph of what the index holds around `root`. -/
def selectFrom (limit : Nat) (index : FlowGraph) (root : TypeName) :
    Except AnalysisError FlowGraph :=
  grow limit index (empty index.criteria) root

end FlowGraph

end PolicyReach
