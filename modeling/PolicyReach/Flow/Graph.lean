import PolicyReach.Flow.Edge
import PolicyReach.Json.Printer
import PolicyReach.Ordered.Map

/-!
# Flow graphs

A flow graph has types for nodes and at most one edge from one type to another; contributions
between the same types merge. Its edges are kept twice, by source and by target, so that the
neighbours of a node are at hand in both orientations, in the order of their names.
-/

namespace PolicyReach

/-- How much of a policy's flows a graph holds around its roots. -/
inductive Scope where
  /-- The edges at the roots. -/
  | direct
  /-- The edges on walks to or from the roots. -/
  | transitive (direction : ReachDirection)
  deriving DecidableEq

/-- What a graph is made from. -/
structure Criteria where
  /-- The permissions that count; all do if the set is empty. -/
  classPerms : OrdSet ClassPerm
  scope : Scope
  /-- The types that a walk may pass through; any if there is no set. -/
  intermediate : Option (OrdSet TypeName)
  deriving DecidableEq

namespace Scope

def toJson : Scope → Json
  | .direct => .str "Direct"
  | .transitive direction => .obj [("Transitive", .str direction.keyword)]

end Scope

namespace Criteria

/-- May a walk pass through `t`? -/
def isPassable (c : Criteria) (t : TypeName) : Bool :=
  match c.intermediate with
  | none => true
  | some types => types.contains t

/-- Does a permission count? -/
def admits (c : Criteria) (cls perm : String) : Bool :=
  c.classPerms.isEmpty || c.classPerms.contains ⟨cls, perm⟩

def toJson (c : Criteria) : Json :=
  .obj [("class_perms", .list ClassPerm.toJson c.classPerms.toList), ("scope", c.scope.toJson),
    ("intermediate", .option (fun types => .list TypeName.toJson (OrdSet.toList types))
      c.intermediate)]

/-- The fingerprint of the criteria. -/
def fingerprint (c : Criteria) : String := c.toJson.fingerprint

end Criteria

/-- Edges by the types at their other ends. -/
abbrev Fan := OrdMap TypeName Edge

/-- A graph of flows. -/
structure FlowGraph where
  criteria : Criteria
  nodes : OrdSet TypeName := ∅
  /-- The edges of each type as a source, by target. -/
  successors : OrdMap TypeName Fan := ∅
  /-- The edges of each type as a target, by source. -/
  predecessors : OrdMap TypeName Fan := ∅
  /-- The types that the graph has been grown from. -/
  roots : OrdSet TypeName := ∅
  deriving DecidableEq

namespace FlowGraph

/-- The graph with no nodes. -/
def empty (criteria : Criteria) : FlowGraph := { criteria }

/-- The edges at a node that a walk in some orientation follows, by the neighbours they lead to. -/
def fan (g : FlowGraph) (o : Orientation) (node : TypeName) : Fan :=
  let side := match o with
    | .forward => g.successors
    | .backward => g.predecessors
  (side.get? node).getD ∅

/-- The neighbours of a node in some orientation with the edges to them, ascending. -/
def neighbors (g : FlowGraph) (o : Orientation) (node : TypeName) : List (TypeName × Edge) :=
  (g.fan o node).entries

/-- The edge from one type to another. -/
def edge? (g : FlowGraph) (source target : TypeName) : Option Edge :=
  (g.fan .forward source).get? target

/-- The edge that a walk follows from `a` to `b`. -/
def orientedEdge? (g : FlowGraph) (o : Orientation) (a b : TypeName) : Option Edge :=
  match o with
  | .forward => g.edge? a b
  | .backward => g.edge? b a

/-- All edges, by source and then by target. -/
def edges (g : FlowGraph) : List Edge := g.successors.values.flatMap OrdMap.values

/-- The number of nodes. -/
def nodeCount (g : FlowGraph) : Nat := g.nodes.size

/-- The number of edges. -/
def edgeCount (g : FlowGraph) : Nat := g.edges.length

/-- Is `t` a node? -/
def contains (g : FlowGraph) (t : TypeName) : Bool := g.nodes.contains t

/-- Add an edge at a node, joined to the one that leads to the same neighbour. -/
def addToSide (side : OrdMap TypeName Fan) (node neighbor : TypeName) (e : Edge) :
    OrdMap TypeName Fan :=
  side.insert node (((side.get? node).getD ∅).insertWith Edge.join neighbor e)

/-- Add an edge and its ends. -/
def insertEdge (g : FlowGraph) (e : Edge) : FlowGraph :=
  { g with
    nodes := (g.nodes.insert e.source).insert e.target
    successors := addToSide g.successors e.source e.target e
    predecessors := addToSide g.predecessors e.target e.source e }

/-- Add the edges of a list. -/
def insertEdges (g : FlowGraph) (l : List Edge) : FlowGraph := l.foldl insertEdge g

/-- Add a root. -/
def addRoot (g : FlowGraph) (t : TypeName) : FlowGraph :=
  { g with nodes := g.nodes.insert t, roots := g.roots.insert t }

end FlowGraph

end PolicyReach
