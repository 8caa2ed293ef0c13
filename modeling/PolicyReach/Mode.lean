import PolicyReach.Json.Record
import PolicyReach.Text.Keyword

/-!
# Modes of the analyses

The directions and modes that queries are asked in, each with its keyword, and the orientation in
which a graph is walked for them.
-/

namespace PolicyReach

/-- How edges are followed on a walk. -/
inductive Orientation where
  /-- From source to target: where information goes. -/
  | forward
  /-- From target to source: where information comes from. -/
  | backward
  deriving DecidableEq

/-- Directions of one-hop flows. Results are `inward`, `outward` or `both`. -/
inductive FlowDirection where
  /-- Into the start type. -/
  | inward
  /-- Out of the start type. -/
  | outward
  /-- Either way, one result for each other end. -/
  | either
  /-- Either way, one result for each other end and direction. -/
  | both
  deriving DecidableEq

/-- Directions of flows over many hops. -/
inductive ReachDirection where
  /-- Flows that end at the start type. -/
  | toStart
  /-- Flows that begin at the start type. -/
  | fromStart
  deriving DecidableEq

/-- Directions of a domain-transition search. -/
inductive TransitionDirection where
  /-- Domains that the start domain can turn into. -/
  | forward
  /-- Domains that can turn into the start domain. -/
  | reverse
  deriving DecidableEq

/-- Modes of a relabelling search. -/
inductive RelabelMode where
  /-- Subjects that can relabel objects to the start type. -/
  | toStart
  /-- Subjects that can relabel objects away from the start type. -/
  | fromStart
  /-- Subjects that can do either. -/
  | both
  /-- What the start type, as a subject, can relabel. -/
  | subject
  deriving DecidableEq

/-- The name of an orientation. -/
def Orientation.name : Orientation → String
  | .forward => "Forward"
  | .backward => "Backward"

namespace FlowDirection

def keyword : FlowDirection → String
  | .inward => "in"
  | .outward => "out"
  | .either => "either"
  | .both => "both"

def choices : List (String × FlowDirection) :=
  [inward, outward, either, both].map fun d => (d.keyword, d)

/-- The direction of a keyword. -/
def ofKeyword? (s : String) : Option FlowDirection := Text.choose? choices s

/-- Are flows into the start type asked for? -/
def wantsInward (d : FlowDirection) : Bool := d != .outward

/-- Are flows out of the start type asked for? -/
def wantsOutward (d : FlowDirection) : Bool := d != .inward

def toJson (d : FlowDirection) : Json := .str d.keyword

def ofJson? : Json → Option FlowDirection := Json.choiceOf choices

end FlowDirection

namespace ReachDirection

def keyword : ReachDirection → String
  | .toStart => "to"
  | .fromStart => "from"

/-- The direction of a keyword. -/
def ofKeyword? (s : String) : Option ReachDirection :=
  Text.choose? ([toStart, fromStart].map fun d => (d.keyword, d)) s

/-- The orientation of walks from the start type. -/
def orientation : ReachDirection → Orientation
  | .toStart => .backward
  | .fromStart => .forward

/-- The direction of the flows that are found. -/
def flowDirection : ReachDirection → FlowDirection
  | .toStart => .inward
  | .fromStart => .outward

end ReachDirection

namespace TransitionDirection

def keyword : TransitionDirection → String
  | .forward => "forward"
  | .reverse => "reverse"

/-- The direction of a keyword. -/
def ofKeyword? (s : String) : Option TransitionDirection :=
  Text.choose? ([forward, reverse].map fun d => (d.keyword, d)) s

end TransitionDirection

namespace RelabelMode

def keyword : RelabelMode → String
  | .toStart => "to"
  | .fromStart => "from"
  | .both => "both"
  | .subject => "subject"

/-- The mode of a keyword. -/
def ofKeyword? (s : String) : Option RelabelMode :=
  Text.choose? ([toStart, fromStart, both, subject].map fun m => (m.keyword, m)) s

end RelabelMode

end PolicyReach
