import PolicyReach.Flow.Session
import PolicyReach.Grants

/-!
# Domain transitions

A process in domain `S` can pass to domain `T` through an entrypoint type `E` if a rule allows the
transition from `S` to `T`, and one of the two may execute `E` while the other has it as an
entrypoint. Usually `S` executes and `T` is entered; the roles swapped are reported as well, and
where both assignments hold their rules are merged. Rules that let `S` set its exec context and
labelling rules that make `T` the default are reported with the transition.

A search goes from `S` to all `T` or from `T` to all `S`. The domain found must pass the filter on
names, and hold a rule that meets the access filter if there is one.
-/

namespace PolicyReach

/-- A domain transition with the rules that make it possible. -/
structure DomainTransition where
  source : TypeName
  target : TypeName
  entrypoint : TypeName
  /-- Rules that allow the transition. -/
  transitionRules : List RuleId
  /-- Rules that make the entrypoint one. -/
  entrypointRules : List RuleId
  /-- Rules that allow the entrypoint to be executed. -/
  executeRules : List RuleId
  /-- Rules that let the source set its exec context. -/
  setexecRules : List RuleId
  /-- Labelling rules whose default is the target. -/
  labelRules : List RuleId
  /-- Rules that meet the access filter. -/
  accessRules : List RuleId
  deriving DecidableEq

namespace DomainTransition

def toJson (t : DomainTransition) : Json :=
  let rules := Json.list RuleId.toJson
  .obj [("sourceType", t.source.toJson), ("targetType", t.target.toJson),
    ("entrypointType", t.entrypoint.toJson), ("procTransRules", rules t.transitionRules),
    ("entrypointRules", rules t.entrypointRules), ("execRules", rules t.executeRules),
    ("setexecRules", rules t.setexecRules), ("typeTransRules", rules t.labelRules),
    ("accessRules", rules t.accessRules)]

def ofJson? (v : Json) : Option DomainTransition := do
  let rules := Json.listOf RuleId.ofJson?
  let r ← v.record? [("sourceType", .required), ("targetType", .required),
    ("entrypointType", .required), ("procTransRules", .required), ("entrypointRules", .required),
    ("execRules", .required), ("setexecRules", .required), ("typeTransRules", .required),
    ("accessRules", .required)]
  some
    { source := ← r.required "sourceType" TypeName.ofJson?
      target := ← r.required "targetType" TypeName.ofJson?
      entrypoint := ← r.required "entrypointType" TypeName.ofJson?
      transitionRules := ← r.required "procTransRules" rules
      entrypointRules := ← r.required "entrypointRules" rules
      executeRules := ← r.required "execRules" rules
      setexecRules := ← r.required "setexecRules" rules
      labelRules := ← r.required "typeTransRules" rules
      accessRules := ← r.required "accessRules" rules }

end DomainTransition

/-- What the domain found must have access to. -/
structure AccessFilter where
  /-- Object types; any if there is no set. -/
  types : Option (OrdSet TypeName)
  /-- Permissions; any if the set is empty. -/
  classPerms : OrdSet ClassPerm

namespace AccessFilter

/-- The access filter of a query, its names expanded. -/
def ofQuery (p : Policy) (q : TransitionQuery) : Except AnalysisError (Option AccessFilter) :=
  if q.hasAccessFilter then
    if q.access.isEmpty then .ok (some { types := none, classPerms := q.classPerms })
    else (p.expandAll q.access.toList).map fun types =>
      some { types := some types, classPerms := q.classPerms }
  else .ok none

/-- Does a rule grant a permission that the filter asks for? -/
def meetsPerms (f : AccessFilter) (r : AccessRule) : Bool :=
  f.classPerms.isEmpty || f.classPerms.toList.any fun cp => cp.cls == r.cls && r.grants cp.perm

/-- Does a rule of `domain` cover an object that the filter asks for? -/
def meetsTypes (f : AccessFilter) (p : Policy) (domain : TypeName) (r : AccessRule) : Bool :=
  match f.types with
  | none => true
  | some types => types.toList.any fun t => p.targetCovers r.target domain t

/-- The rules of `domain` that meet the filter. -/
def rules (f : AccessFilter) (p : Policy) (domain : TypeName) : OrdSet RuleId :=
  .ofList ((p.activeAllowRules.filter fun r =>
    p.sourceCovers r.source domain && f.meetsPerms r && f.meetsTypes p domain r).map AccessRule.id)

end AccessFilter

namespace Policy

/-- The labelling rules that make `target` the default when `source` runs `entrypoint`. -/
def transitionLabels (p : Policy) (source entrypoint target : TypeName) : List RuleId :=
  ((p.activeLabelRules .typeTransition).filter fun r =>
    r.cls == "process" && p.sourceCovers r.source source
      && p.targetCovers r.target source entrypoint && p.resolve r.default == some target).map
    LabelRule.id

end Policy

/-- The rules on an entrypoint: those that execute it and those that make it one. -/
structure EntryRules where
  execute : OrdSet RuleId
  entrypoint : OrdSet RuleId

namespace EntryRules

/-- The rules of two assignments of roles. -/
def merge (a b : EntryRules) : EntryRules :=
  { execute := a.execute.union b.execute, entrypoint := a.entrypoint.union b.entrypoint }

/-- The entrypoints of one assignment of roles: the types that are both executed and entered. -/
def ofRoles (execute enter : Grants) : List (TypeName × EntryRules) :=
  execute.entries.filterMap fun e =>
    (enter.get? e.1).map fun entrypoint => (e.1, { execute := e.2, entrypoint })

/-- The entrypoints of several assignments, merged. -/
def mergeAll (l : List (TypeName × EntryRules)) : OrdMap TypeName EntryRules :=
  l.foldl (fun m e => m.insertWith merge e.1 e.2) ∅

end EntryRules

namespace GrantMemo

/-- The objects on which `subject` holds a permission. -/
def held (p : Policy) (subject : TypeName) (cls perm : String) : StateM GrantMemo Grants :=
  fun m => m.lookup p ⟨.subject, subject, cls, perm⟩

/-- The transitions from one domain to another, entrypoint by entrypoint. -/
def pairTransitions (p : Policy) (source target : TypeName) (transition access : OrdSet RuleId) :
    StateM GrantMemo (List DomainTransition) := do
  let sourceExecutes ← held p source "file" "execute"
  let targetExecutes ← held p target "file" "execute"
  let sourceEnters ← held p source "file" "entrypoint"
  let targetEnters ← held p target "file" "entrypoint"
  let setexec := ((← held p source "process" "setexec").get? source).getD ∅
  let entries := EntryRules.mergeAll
    (EntryRules.ofRoles sourceExecutes targetEnters
      ++ EntryRules.ofRoles targetExecutes sourceEnters)
  return entries.entries.map fun e =>
    { source, target, entrypoint := e.1
      transitionRules := transition.toList
      entrypointRules := e.2.entrypoint.toList
      executeRules := e.2.execute.toList
      setexecRules := setexec.toList
      labelRules := p.transitionLabels source e.1 target
      accessRules := access.toList }

/-- The transitions between `start` and a domain found, none if that does not pass the filters. -/
def foundTransitions (p : Policy) (q : TransitionQuery) (access : Option AccessFilter)
    (start found : TypeName) (transition : OrdSet RuleId) :
    StateM GrantMemo (List DomainTransition) :=
  if start = found ∨ NameFilter.passes q.filter p found = false then pure []
  else
    let rules := match access with
      | none => ∅
      | some f => f.rules p found
    if access.isSome && rules.isEmpty then pure []
    else
      match q.direction with
      | .forward => pairTransitions p start found transition rules
      | .reverse => pairTransitions p found start transition rules

/-- The transitions between `start` and every domain found. -/
def allTransitions (p : Policy) (q : TransitionQuery) (access : Option AccessFilter)
    (start : TypeName) : List (TypeName × OrdSet RuleId) → StateM GrantMemo (List DomainTransition)
  | [] => pure []
  | (found, transition) :: rest => do
    let here ← foundTransitions p q access start found transition
    let there ← allTransitions p q access start rest
    return here ++ there

/-- The side of the transition rules that the start domain is on. -/
def startSide : TransitionDirection → Side
  | .forward => .subject
  | .reverse => .object

/-- Search for domain transitions, in the order of source, target and entrypoint. The memo is
cleared first: it serves one search. -/
def analyze (m : GrantMemo) (p : Policy) (q : TransitionQuery) :
    Except AnalysisError (List DomainTransition) × GrantMemo :=
  let m := m.cleared
  match p.resolve q.start with
  | none => (.error (.unknownType q.start), m)
  | some start =>
    match AccessFilter.ofQuery p q with
    | .error e => (.error e, m)
    | .ok access =>
      let (pairs, m) := m.lookup p ⟨startSide q.direction, start, "process", "transition"⟩
      let (results, m) := (allTransitions p q access start pairs.entries).run m
      (.ok results, m)

end GrantMemo

end PolicyReach
