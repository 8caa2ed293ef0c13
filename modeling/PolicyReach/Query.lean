import PolicyReach.Mode
import PolicyReach.NameFilter

/-!
# Queries

Each analysis takes a query: a mode, a start type by name, and filters. A query may also be given
as a flat record of strings and lists (`HopParams` and its kin), which is checked when it is made
into a query: its mode first, then its class/permission entries, then its regular expression.
-/

namespace PolicyReach

/-- A query for one-hop flows. -/
structure HopQuery where
  direction : FlowDirection
  start : String
  /-- The permissions that count; all do if the set is empty. -/
  classPerms : OrdSet ClassPerm := ∅
  filter : Option NameFilter := none

/-- A query for flows over many hops. -/
structure ReachQuery where
  direction : ReachDirection
  start : String
  /-- The names of what a flow may pass through; anything if there is no set. -/
  intermediate : Option (OrdSet String) := none
  classPerms : OrdSet ClassPerm := ∅
  filter : Option NameFilter := none

/-- A query for domain transitions. -/
structure TransitionQuery where
  direction : TransitionDirection
  start : String
  /-- The names of what the domain found must access; anything if the set is empty. -/
  access : OrdSet String := ∅
  /-- The permissions of which the domain found must hold one; any if the set is empty. -/
  classPerms : OrdSet ClassPerm := ∅
  filter : Option NameFilter := none

/-- A query for relabelling. -/
structure RelabelQuery where
  mode : RelabelMode
  start : String
  /-- The object classes that count; all do if the set is empty. -/
  classes : OrdSet String := ∅
  /-- The names of the subjects that count; all do if the set is empty. -/
  subjects : OrdSet String := ∅
  filter : Option NameFilter := none

/-- Is anything asked of what the domain found can access? -/
def TransitionQuery.hasAccessFilter (q : TransitionQuery) : Bool :=
  !q.access.isEmpty || !q.classPerms.isEmpty

/-! ## Flat records -/

/-- A class/permission entry as it is given: a list that should have two items. -/
abbrev RawEntry := List String

/-- The flat record of a one-hop query. -/
structure HopParams where
  direction : String
  start : String
  entries : List RawEntry := []
  regex : String := ""

/-- The flat record of a query over many hops. -/
structure ReachParams where
  direction : String
  start : String
  intermediate : List String := []
  entries : List RawEntry := []
  regex : String := ""

/-- The flat record of a domain-transition query. -/
structure TransitionParams where
  direction : String
  start : String
  access : List String := []
  entries : List RawEntry := []
  regex : String := ""

/-- The flat record of a relabelling query. -/
structure RelabelParams where
  mode : String
  start : String
  classes : List String := []
  subjects : List String := []
  regex : String := ""

/-- The pair of an entry. -/
def ClassPerm.ofEntry : RawEntry → Except AnalysisError ClassPerm
  | [cls, perm] => .ok { cls, perm }
  | entry => .error (.query (.entrySize entry.length))

/-- The pairs of entries. -/
def ClassPerm.ofEntries (entries : List RawEntry) : Except AnalysisError (OrdSet ClassPerm) :=
  (entries.mapM ofEntry).map OrdSet.ofList

/-- The mode of a word, or the fault of having none. -/
def modeOrFault {α : Type} (mode : Option α) (fault : QueryFault) : Except AnalysisError α :=
  match mode with
  | some m => .ok m
  | none => .error (.query fault)

namespace HopParams

/-- The query of a record. -/
def toQuery (p : HopParams) : Except AnalysisError HopQuery := do
  let direction ← modeOrFault (FlowDirection.ofKeyword? p.direction)
    (.unknownFlowDirection p.direction)
  let classPerms ← ClassPerm.ofEntries p.entries
  let filter ← NameFilter.ofText p.regex
  .ok { direction, start := p.start, classPerms, filter }

def toJson (p : HopParams) : Json :=
  .obj [("direction", .str p.direction), ("startType", .str p.start),
    ("classPermPairs", .list Json.strings p.entries), ("resultRegex", .str p.regex)]

def ofJson? (v : Json) : Option HopParams := do
  let r ← v.record? [("direction", .required), ("startType", .required),
    ("classPermPairs", .defaulted), ("resultRegex", .defaulted)]
  some
    { direction := ← r.required "direction" Json.string
      start := ← r.required "startType" Json.string
      entries := ← r.defaulted "classPermPairs" [] (Json.listOf (Json.listOf Json.string))
      regex := ← r.defaulted "resultRegex" "" Json.string }

end HopParams

namespace ReachParams

/-- The query of a record; an empty list of intermediate types stands for no restriction. -/
def toQuery (p : ReachParams) : Except AnalysisError ReachQuery := do
  let direction ← modeOrFault (ReachDirection.ofKeyword? p.direction)
    (.unknownReachDirection p.direction)
  let intermediate := if p.intermediate.isEmpty then none else some (OrdSet.ofList p.intermediate)
  let classPerms ← ClassPerm.ofEntries p.entries
  let filter ← NameFilter.ofText p.regex
  .ok { direction, start := p.start, intermediate, classPerms, filter }

def toJson (p : ReachParams) : Json :=
  .obj [("direction", .str p.direction), ("startType", .str p.start),
    ("intermediateTypes", .strings p.intermediate),
    ("classPermPairs", .list Json.strings p.entries), ("resultRegex", .str p.regex)]

def ofJson? (v : Json) : Option ReachParams := do
  let r ← v.record? [("direction", .required), ("startType", .required),
    ("intermediateTypes", .defaulted), ("classPermPairs", .defaulted), ("resultRegex", .defaulted)]
  some
    { direction := ← r.required "direction" Json.string
      start := ← r.required "startType" Json.string
      intermediate := ← r.defaulted "intermediateTypes" [] (Json.listOf Json.string)
      entries := ← r.defaulted "classPermPairs" [] (Json.listOf (Json.listOf Json.string))
      regex := ← r.defaulted "resultRegex" "" Json.string }

end ReachParams

namespace TransitionParams

/-- The query of a record. -/
def toQuery (p : TransitionParams) : Except AnalysisError TransitionQuery := do
  let direction ← modeOrFault (TransitionDirection.ofKeyword? p.direction)
    (.unknownTransitionDirection p.direction)
  let classPerms ← ClassPerm.ofEntries p.entries
  let filter ← NameFilter.ofText p.regex
  .ok { direction, start := p.start, access := OrdSet.ofList p.access, classPerms, filter }

def toJson (p : TransitionParams) : Json :=
  .obj [("direction", .str p.direction), ("startType", .str p.start),
    ("accessTypes", .strings p.access), ("classPermPairs", .list Json.strings p.entries),
    ("resultRegex", .str p.regex)]

def ofJson? (v : Json) : Option TransitionParams := do
  let r ← v.record? [("direction", .required), ("startType", .required),
    ("accessTypes", .defaulted), ("classPermPairs", .defaulted), ("resultRegex", .defaulted)]
  some
    { direction := ← r.required "direction" Json.string
      start := ← r.required "startType" Json.string
      access := ← r.defaulted "accessTypes" [] (Json.listOf Json.string)
      entries := ← r.defaulted "classPermPairs" [] (Json.listOf (Json.listOf Json.string))
      regex := ← r.defaulted "resultRegex" "" Json.string }

end TransitionParams

namespace RelabelParams

/-- The query of a record. -/
def toQuery (p : RelabelParams) : Except AnalysisError RelabelQuery := do
  let mode ← modeOrFault (RelabelMode.ofKeyword? p.mode) (.unknownRelabelMode p.mode)
  let filter ← NameFilter.ofText p.regex
  .ok
    { mode, start := p.start, classes := OrdSet.ofList p.classes
      subjects := OrdSet.ofList p.subjects, filter }

def toJson (p : RelabelParams) : Json :=
  .obj [("mode", .str p.mode), ("startType", .str p.start), ("classes", .strings p.classes),
    ("subjectTypes", .strings p.subjects), ("resultRegex", .str p.regex)]

def ofJson? (v : Json) : Option RelabelParams := do
  let r ← v.record? [("mode", .required), ("startType", .required), ("classes", .defaulted),
    ("subjectTypes", .defaulted), ("resultRegex", .defaulted)]
  some
    { mode := ← r.required "mode" Json.string
      start := ← r.required "startType" Json.string
      classes := ← r.defaulted "classes" [] (Json.listOf Json.string)
      subjects := ← r.defaulted "subjectTypes" [] (Json.listOf Json.string)
      regex := ← r.defaulted "resultRegex" "" Json.string }

end RelabelParams

end PolicyReach
