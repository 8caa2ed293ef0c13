import PolicyReach.Handle
import PolicyReach.Name
import PolicyReach.PermissionMap.Reader
import PolicyReach.Policy.Fixture

/-!
# Errors of analyses

Four kinds of errors, each with its causes: something is not loaded or cannot be loaded, a query is
malformed, a handle names nothing, a limit is hit. Only an error about a handle is recovered from
by asking the same again.
-/

namespace PolicyReach

/-- What is missing or cannot be loaded. -/
inductive ConfigurationFault where
  | noPolicy
  | noPermissionMap
  | permissionMap (e : PermissionMapError)
  | policy (e : PolicyError)
  deriving DecidableEq

/-- What is wrong with a query. -/
inductive QueryFault where
  | unknownType (name : String)
  | unknownFlowDirection (word : String)
  | unknownReachDirection (word : String)
  | unknownTransitionDirection (word : String)
  | unknownRelabelMode (word : String)
  /-- A class/permission entry of this many parts. -/
  | entrySize (size : Nat)
  | invalidPattern (pattern : String)
  | malformedToken (token : String)
  /-- A path search on a graph of one-hop flows. -/
  | oneHopGraph
  | sameEnds (name : TypeName)
  | noSearch (handle : Handle)
  | unknownBoolean (name : String)
  deriving DecidableEq

/-- Which limit is hit. -/
inductive LimitFault where
  | graphEdges (count limit : Nat)
  | candidates (start finish : TypeName) (queued limit : Nat)
  | registryFull
  deriving DecidableEq

/-- Why an analysis fails. -/
inductive AnalysisError where
  | configuration (fault : ConfigurationFault)
  | query (fault : QueryFault)
  | invalidHandle (handle : Handle) (fault : HandleFault)
  | allocation (fault : LimitFault)
  deriving DecidableEq

/-- The words for a fault. -/
def ConfigurationFault.message : ConfigurationFault → String
  | .noPolicy => "no policy loaded"
  | .noPermissionMap => "information flow analysis requires a permission map"
  | .permissionMap e => e.message
  | .policy e => e.message

/-- The words for a fault. -/
def QueryFault.message : QueryFault → String
  | .unknownType name => "'" ++ name ++ "' is not a known type"
  | .unknownFlowDirection word => "unknown direct flow direction '" ++ word ++ "'"
  | .unknownReachDirection word => "unknown transitive flow direction '" ++ word ++ "'"
  | .unknownTransitionDirection word => "unknown domain transition direction '" ++ word ++ "'"
  | .unknownRelabelMode word => "unknown relabel mode '" ++ word ++ "'"
  | .entrySize size =>
    "class/permission entry must have exactly 2 elements, got " ++ toString size
  | .invalidPattern pattern => "invalid regular expression '" ++ pattern ++ "'"
  | .malformedToken token => "malformed graph handle '" ++ token ++ "'"
  | .oneHopGraph => "alternative paths need a graph built by a transitive analysis"
  | .sameEnds name => "start and end of a path search must differ, both are '" ++ name.text ++ "'"
  | .noSearch handle => "no path search prepared on " ++ handle.token
  | .unknownBoolean name => "unknown boolean '" ++ name ++ "'"

/-- The words for a fault. -/
def LimitFault.message : LimitFault → String
  | .graphEdges count limit =>
    "information flow graph would hold " ++ toString count ++ " edges, limit is "
      ++ toString limit
  | .candidates start finish queued limit =>
    "path enumeration from " ++ start.text ++ " to " ++ finish.text ++ " would queue "
      ++ toString queued ++ " candidates, limit is " ++ toString limit
  | .registryFull => "graph registry is full"

namespace AnalysisError

/-- The words for an error. -/
def message : AnalysisError → String
  | .configuration fault => "Configuration error: " ++ fault.message
  | .query fault => "Query error: " ++ fault.message
  | .invalidHandle handle fault =>
    "Invalid graph handle " ++ handle.token ++ ": " ++ fault.message
  | .allocation fault => "Allocation error: " ++ fault.message

/-- Can the same analysis be asked again? -/
def isRecoverable : AnalysisError → Bool
  | .invalidHandle _ _ => true
  | _ => false

/-- The error for a name that is no type. -/
def unknownType (name : String) : AnalysisError := .query (.unknownType name)

end AnalysisError

/-- The handle that a token given by a caller names. -/
def Handle.ofText (token : String) : Except AnalysisError Handle :=
  match ofToken? token with
  | some h => .ok h
  | none => .error (.query (.malformedToken token))

end PolicyReach
