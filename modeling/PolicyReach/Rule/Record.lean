import PolicyReach.Rule
import PolicyReach.Json.Record

/-!
# Rules as records

Access rules, labelling rules and their guards written as JSON records and read back. The
permissions of a rule are read as a set: repetitions vanish and the order is lost.
-/

namespace PolicyReach

namespace TypeName

def toJson (t : TypeName) : Json := .str t.text

def ofJson? (v : Json) : Option TypeName := v.string.map TypeName.mk

end TypeName

namespace RuleId

def toJson (r : RuleId) : Json := .nat r.raw.toNat

def ofJson? (v : Json) : Option RuleId := v.uint32.map RuleId.mk

end RuleId

namespace ClassPerm

def toJson (p : ClassPerm) : Json := .obj [("class", .str p.cls), ("perm", .str p.perm)]

def ofJson? (v : Json) : Option ClassPerm := do
  let r ← v.record? [("class", .required), ("perm", .required)]
  some { cls := ← r.required "class" Json.string, perm := ← r.required "perm" Json.string }

end ClassPerm

namespace Guard

def toJson (g : Guard) : Json := .obj [("boolean", .str g.boolean), ("branch", .bool g.branch)]

def ofJson? (v : Json) : Option Guard := do
  let r ← v.record? [("boolean", .required), ("branch", .required)]
  some { boolean := ← r.required "boolean" Json.string, branch := ← r.required "branch" Json.truth }

end Guard

namespace AccessRule

def toJson (r : AccessRule) : Json :=
  .obj [("id", r.id.toJson), ("kind", .str r.kind.keyword), ("source", .str r.source),
    ("target", .str r.target), ("class", .str r.cls), ("perms", .strings r.perms.toList),
    ("conditional", .option Guard.toJson r.guard)]

def ofJson? (v : Json) : Option AccessRule := do
  let r ← v.record? [("id", .required), ("kind", .required), ("source", .required),
    ("target", .required), ("class", .required), ("perms", .required), ("conditional", .nullable)]
  some
    { id := ← r.required "id" RuleId.ofJson?
      kind := ← r.required "kind" (Json.choiceOf AccessKind.choices)
      source := ← r.required "source" Json.string
      target := ← r.required "target" Json.string
      cls := ← r.required "class" Json.string
      perms := OrdSet.ofList (← r.required "perms" (Json.listOf Json.string))
      guard := ← r.nullable "conditional" Guard.ofJson? }

end AccessRule

namespace LabelRule

def toJson (r : LabelRule) : Json :=
  .obj [("id", r.id.toJson), ("kind", .str r.kind.keyword), ("source", .str r.source),
    ("target", .str r.target), ("class", .str r.cls), ("default_type", .str r.default),
    ("conditional", .option Guard.toJson r.guard)]

def ofJson? (v : Json) : Option LabelRule := do
  let r ← v.record? [("id", .required), ("kind", .required), ("source", .required),
    ("target", .required), ("class", .required), ("default_type", .required),
    ("conditional", .nullable)]
  some
    { id := ← r.required "id" RuleId.ofJson?
      kind := ← r.required "kind" (Json.choiceOf LabelKind.choices)
      source := ← r.required "source" Json.string
      target := ← r.required "target" Json.string
      cls := ← r.required "class" Json.string
      default := ← r.required "default_type" Json.string
      guard := ← r.nullable "conditional" Guard.ofJson? }

end LabelRule

end PolicyReach
