import PolicyReach.Flow.Session
import PolicyReach.Grants

/-!
# Relabelling

To relabel an object from type `A` to type `B` a subject needs one permission on `A` and another on
`B`. Between a subject and an object type the rules that grant either are two-way if both
permissions are granted, by one rule or by several.

Asked about an object type, an analysis gives a result for each subject that can do what the mode
asks for; asked about a subject, one result with all its rules, where a rule that is two-way on one
object counts as two-way altogether.
-/

namespace PolicyReach

/-- Rules that allow a subject to relabel, in three disjoint groups. -/
structure RelabelResult where
  /-- Rules that only relabel to a type. -/
  toRules : List RuleId
  /-- Rules that only relabel from a type. -/
  fromRules : List RuleId
  /-- Rules that take part in relabelling both ways. -/
  bothRules : List RuleId
  subject : TypeName
  deriving DecidableEq

namespace RelabelResult

/-- Is there no rule at all? -/
def isEmpty (r : RelabelResult) : Bool :=
  r.toRules.isEmpty && r.fromRules.isEmpty && r.bothRules.isEmpty

def toJson (r : RelabelResult) : Json :=
  let rules := Json.list RuleId.toJson
  .obj [("toRules", rules r.toRules), ("fromRules", rules r.fromRules),
    ("bothRules", rules r.bothRules), ("subjectType", r.subject.toJson)]

def ofJson? (v : Json) : Option RelabelResult := do
  let rules := Json.listOf RuleId.ofJson?
  let r ← v.record? [("toRules", .required), ("fromRules", .required), ("bothRules", .required),
    ("subjectType", .required)]
  some
    { toRules := ← r.required "toRules" rules
      fromRules := ← r.required "fromRules" rules
      bothRules := ← r.required "bothRules" rules
      subject := ← r.required "subjectType" TypeName.ofJson? }

end RelabelResult

/-- The rules between a subject and an object type. -/
structure PairGrants where
  toRules : OrdSet RuleId := ∅
  fromRules : OrdSet RuleId := ∅

namespace PairGrants

/-- Are both permissions granted? -/
def isTwoWay (g : PairGrants) : Bool := !g.toRules.isEmpty && !g.fromRules.isEmpty

/-- Is granted what a mode asks for? -/
def admits (g : PairGrants) : RelabelMode → Bool
  | .toStart => !g.toRules.isEmpty
  | .fromStart => !g.fromRules.isEmpty
  | .both | .subject => !g.toRules.isEmpty || !g.fromRules.isEmpty

/-- The grants with a rule added. -/
def add (g : PairGrants) (r : AccessRule) : PairGrants where
  toRules := if r.grants "relabelto" then g.toRules.insert r.id else g.toRules
  fromRules := if r.grants "relabelfrom" then g.fromRules.insert r.id else g.fromRules

/-- The result of a subject for one object type. -/
def result (g : PairGrants) (subject : TypeName) : RelabelResult :=
  if g.isTwoWay then
    { toRules := [], fromRules := [], bothRules := (g.toRules.union g.fromRules).toList, subject }
  else
    { toRules := g.toRules.toList, fromRules := g.fromRules.toList, bothRules := [], subject }

/-- The result of a subject over the grants of several object types. -/
def total (l : List PairGrants) (subject : TypeName) : RelabelResult :=
  let twoWay := l.filter isTwoWay
  let oneWay := l.filter fun g => !g.isTwoWay
  let both : OrdSet RuleId :=
    .ofList (twoWay.flatMap fun g => g.toRules.toList ++ g.fromRules.toList)
  let toRules : OrdSet RuleId := .ofList (oneWay.flatMap fun g => g.toRules.toList)
  let fromRules : OrdSet RuleId := .ofList (oneWay.flatMap fun g => g.fromRules.toList)
  { toRules := (toRules.diff both).toList, fromRules := (fromRules.diff both).toList
    bothRules := both.toList, subject }

end PairGrants

namespace Policy

/-- Does a rule relabel objects of a class that counts? -/
def relabels (classes : OrdSet String) (r : AccessRule) : Bool :=
  (classes.isEmpty || classes.contains r.cls) && (r.grants "relabelto" || r.grants "relabelfrom")

/-- The type on the other side of a pair from `t`, if `t` is on `side`. -/
def opposite? (side : Side) (t : TypeName) (pair : TypeName × TypeName) : Option TypeName :=
  match side with
  | .subject => if pair.1 = t then some pair.2 else none
  | .object => if pair.2 = t then some pair.1 else none

/-- The relabelling rules that have `t` on `side`, by the type on the other side. -/
def relabelGrants (p : Policy) (classes : OrdSet String) (side : Side) (t : TypeName) :
    OrdMap TypeName PairGrants :=
  (p.activeAllowRules.filter (relabels classes)).foldl
    (fun m r =>
      ((p.rulePairs r.source r.target).filterMap (opposite? side t)).foldl
        (fun m other => m.insert other (((m.get? other).getD {}).add r))
        m)
    ∅

/-- The subjects that a query counts; all if there is no set. -/
def relabelSubjects (p : Policy) (q : RelabelQuery) :
    Except AnalysisError (Option (OrdSet TypeName)) :=
  if q.subjects.isEmpty then .ok none else (p.expandAll q.subjects.toList).map some

/-- What `subject` can relabel. -/
def relabelOfSubject (p : Policy) (q : RelabelQuery) (subject : TypeName) : RelabelResult :=
  let found := (p.relabelGrants q.classes .subject subject).entries.filter fun e =>
    NameFilter.passes q.filter p e.1
  PairGrants.total (found.map Prod.snd) subject

/-- The subjects that can relabel objects of type `object` as the mode asks. -/
def relabelOfObject (p : Policy) (q : RelabelQuery) (object : TypeName) :
    Except AnalysisError (List RelabelResult) :=
  (p.relabelSubjects q).map fun subjects =>
    let found := (p.relabelGrants q.classes .object object).entries.filter fun e =>
      subjects.all (fun s => s.contains e.1) && e.2.admits q.mode
        && NameFilter.passes q.filter p e.1
    found.map fun e => e.2.result e.1

/-- Analyse relabelling; the results are in the order of their subjects. -/
def analyzeRelabel (p : Policy) (q : RelabelQuery) : Except AnalysisError (List RelabelResult) :=
  match p.resolve q.start with
  | none => .error (.unknownType q.start)
  | some start =>
    if q.mode = .subject then .ok [p.relabelOfSubject q start] else p.relabelOfObject q start

end Policy

end PolicyReach
