import PolicyReach.Flow.Graph
import PolicyReach.PermissionMap
import PolicyReach.Policy

/-!
# The flows of a policy

Every allow rule in effect contributes to the flows between the types it covers. Of its
permissions those count that the criteria admit and the permission map gives a direction: the
lightest of them that flow from the subject give the weight from source to target, the lightest
that flow to the subject the weight from target to source. A type's flow to itself is no edge.
-/

namespace PolicyReach

/-- What a rule contributes to each pair of types it covers. -/
structure Contribution where
  /-- The weight from the source to the target. -/
  outward : Option UInt32 := none
  /-- The weight from the target to the source. -/
  inward : Option UInt32 := none
  deriving DecidableEq

namespace Contribution

/-- The lesser of the weights there are. -/
def lighter (old : Option UInt32) (weight : UInt32) : Option UInt32 :=
  some (old.elim weight (min · weight))

/-- A contribution with a mapped permission counted. -/
def count (c : Contribution) (m : Mapping) : Contribution where
  outward := if m.current.flowsOut then lighter c.outward m.weight else c.outward
  inward := if m.current.flowsIn then lighter c.inward m.weight else c.inward

/-- What a rule contributes under some criteria. -/
def ofRule (permissions : PermissionMap) (criteria : Criteria) (r : AccessRule) : Contribution :=
  ((r.perms.toList.filter fun p => criteria.admits r.cls p).filterMap fun p =>
    permissions.flow? r.cls p).foldl count {}

/-- The edges that a contribution of a rule gives between a source and a target. -/
def edges (c : Contribution) (rule : RuleId) (source target : TypeName) : List Edge :=
  if source = target then []
  else
    (c.outward.map fun w => Edge.single source target w rule).toList
      ++ (c.inward.map fun w => Edge.single target source w rule).toList

end Contribution

namespace Policy

/-- The edges that a rule gives, pair by pair. -/
def ruleEdges (p : Policy) (permissions : PermissionMap) (criteria : Criteria) (r : AccessRule) :
    List Edge :=
  let c := Contribution.ofRule permissions criteria r
  if c = {} then []
  else (p.rulePairs r.source r.target).flatMap fun pair => c.edges r.id pair.1 pair.2

/-- The graph of all flows of a policy that criteria admit, whatever their scope. -/
def flows (p : Policy) (permissions : PermissionMap) (criteria : Criteria) : FlowGraph :=
  (FlowGraph.empty criteria).insertEdges
    (p.activeAllowRules.flatMap (p.ruleEdges permissions criteria))

end Policy

end PolicyReach
