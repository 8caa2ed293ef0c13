import PolicyReach.Rule.Record
import PolicyReach.Mode

/-!
# Flow edges and flow steps

An edge says that information can move from its source type to its target type, how heavy the
lightest contribution is, and which rules contribute. A step is an edge as it is reported; a flow
is a list of steps between the type asked about and the type found.
-/

namespace PolicyReach

open Std

/-- Information can move from `source` to `target`. -/
structure Edge where
  source : TypeName
  target : TypeName
  /-- The least weight among the contributions. -/
  weight : UInt32
  rules : OrdSet RuleId
  deriving DecidableEq

namespace Edge

/-- The edge of a single rule. -/
def single (source target : TypeName) (weight : UInt32) (rule : RuleId) : Edge :=
  { source, target, weight, rules := .singleton rule }

/-- The edge with another contribution merged in. -/
def merge (e : Edge) (weight : UInt32) (rules : List RuleId) : Edge :=
  { e with weight := min e.weight weight, rules := e.rules.insertAll rules }

/-- The two contributions of edges between the same ends. -/
def join (e f : Edge) : Edge := e.merge f.weight f.rules.toList

/-- Edges are ordered by source and then by target. -/
def key (e : Edge) : KeyPair TypeName TypeName := ⟨e.source, e.target⟩

/-- The edges of a list in order; edges between the same ends keep the order they have. -/
def sort (l : List Edge) : List Edge :=
  l.mergeSort fun e f => (compare e.key f.key).isLE

def toJson (e : Edge) : Json :=
  .obj [("source", e.source.toJson), ("target", e.target.toJson), ("weight", .nat e.weight.toNat),
    ("rules", .list RuleId.toJson e.rules.toList)]

def ofJson? (v : Json) : Option Edge := do
  let r ← v.record? [("source", .required), ("target", .required), ("weight", .required),
    ("rules", .required)]
  some
    { source := ← r.required "source" TypeName.ofJson?
      target := ← r.required "target" TypeName.ofJson?
      weight := ← r.required "weight" Json.uint32
      rules := OrdSet.ofList (← r.required "rules" (Json.listOf RuleId.ofJson?)) }

end Edge

/-- One edge of a flow, in the direction in which information moves. -/
structure FlowStep where
  source : TypeName
  target : TypeName
  weight : UInt32
  rules : List RuleId
  deriving DecidableEq

namespace FlowStep

/-- An edge as a step. -/
def ofEdge (e : Edge) : FlowStep :=
  { source := e.source, target := e.target, weight := e.weight, rules := e.rules.toList }

def toJson (s : FlowStep) : Json :=
  .obj [("startType", s.source.toJson), ("endType", s.target.toJson),
    ("weight", .nat s.weight.toNat), ("ruleRefs", .list RuleId.toJson s.rules)]

def ofJson? (v : Json) : Option FlowStep := do
  let r ← v.record? [("startType", .required), ("endType", .required), ("weight", .required),
    ("ruleRefs", .required)]
  some
    { source := ← r.required "startType" TypeName.ofJson?
      target := ← r.required "endType" TypeName.ofJson?
      weight := ← r.required "weight" Json.uint32
      rules := ← r.required "ruleRefs" (Json.listOf RuleId.ofJson?) }

end FlowStep

/-- A flow between the type asked about and a type found. The steps are in the order in which
information moves, so those of an inward flow lead from `finish` to `start`. -/
structure FlowResult where
  direction : FlowDirection
  start : TypeName
  finish : TypeName
  length : UInt32
  steps : List FlowStep
  deriving DecidableEq

namespace FlowResult

/-- A flow along a path; its length is the sum of the weights of its steps. -/
def ofPath (direction : FlowDirection) (start finish : TypeName) (steps : List FlowStep) :
    FlowResult :=
  { direction, start, finish, length := (steps.map FlowStep.weight).foldl (· + ·) 0, steps }

/-- The rules of all steps, ascending. -/
def rules (r : FlowResult) : List RuleId :=
  (OrdSet.ofList (r.steps.flatMap FlowStep.rules)).toList

/-- The types that the steps visit, in order. -/
def types (r : FlowResult) : List TypeName :=
  (r.steps.head?.map FlowStep.source).toList ++ r.steps.map FlowStep.target

def toJson (r : FlowResult) : Json :=
  .obj [("direction", r.direction.toJson), ("startType", r.start.toJson),
    ("endType", r.finish.toJson), ("length", .nat r.length.toNat),
    ("steps", .list FlowStep.toJson r.steps)]

def ofJson? (v : Json) : Option FlowResult := do
  let r ← v.record? [("direction", .required), ("startType", .required), ("endType", .required),
    ("length", .required), ("steps", .required)]
  some
    { direction := ← r.required "direction" FlowDirection.ofJson?
      start := ← r.required "startType" TypeName.ofJson?
      finish := ← r.required "endType" TypeName.ofJson?
      length := ← r.required "length" Json.uint32
      steps := ← r.required "steps" (Json.listOf FlowStep.ofJson?) }

end FlowResult

/-- A one-hop flow without its steps. -/
structure HopRecord where
  direction : FlowDirection
  start : TypeName
  finish : TypeName
  rules : List RuleId
  deriving DecidableEq

namespace HopRecord

/-- The record of a flow. -/
def ofResult (r : FlowResult) : HopRecord :=
  { direction := r.direction, start := r.start, finish := r.finish, rules := r.rules }

def toJson (r : HopRecord) : Json :=
  .obj [("direction", r.direction.toJson), ("startType", r.start.toJson),
    ("endType", r.finish.toJson), ("ruleRefs", .list RuleId.toJson r.rules)]

def ofJson? (v : Json) : Option HopRecord := do
  let r ← v.record? [("direction", .required), ("startType", .required), ("endType", .required),
    ("ruleRefs", .required)]
  some
    { direction := ← r.required "direction" FlowDirection.ofJson?
      start := ← r.required "startType" TypeName.ofJson?
      finish := ← r.required "endType" TypeName.ofJson?
      rules := ← r.required "ruleRefs" (Json.listOf RuleId.ofJson?) }

end HopRecord

end PolicyReach
