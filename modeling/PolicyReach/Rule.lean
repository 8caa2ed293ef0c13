import PolicyReach.Name
import PolicyReach.Ordered.Set

/-!
# Rules

An access rule grants, audits or forbids permissions of an object class on target types to source
types; a labelling rule names the default type of a new object or process. The source, target and
default are written as names that the policy expands: a type, an alias, an attribute or, for
a target, the word `self`. A guard places a rule in one branch of a boolean.
-/

namespace PolicyReach

/-- The target word that stands for each source type itself. -/
def selfTarget : String := "self"

/-- Kinds of access rules. -/
inductive AccessKind where
  | allow
  | auditAllow
  | dontAudit
  | neverAllow
  deriving DecidableEq

/-- Kinds of labelling rules. -/
inductive LabelKind where
  | typeTransition
  | typeChange
  | typeMember
  deriving DecidableEq

/-- The branch of a boolean that a rule sits in: it is in effect when the boolean has this value. -/
structure Guard where
  boolean : String
  branch : Bool
  deriving DecidableEq

/-- An access rule. -/
structure AccessRule where
  id : RuleId
  kind : AccessKind
  source : String
  target : String
  cls : String
  perms : OrdSet String
  guard : Option Guard
  deriving DecidableEq

/-- A labelling rule. -/
structure LabelRule where
  id : RuleId
  kind : LabelKind
  source : String
  target : String
  cls : String
  default : String
  guard : Option Guard
  deriving DecidableEq

/-- The keyword of a kind of access rule. -/
def AccessKind.keyword : AccessKind → String
  | .allow => "allow"
  | .auditAllow => "auditallow"
  | .dontAudit => "dontaudit"
  | .neverAllow => "neverallow"

/-- All kinds of access rules by keyword. -/
def AccessKind.choices : List (String × AccessKind) :=
  [AccessKind.allow, .auditAllow, .dontAudit, .neverAllow].map fun k => (k.keyword, k)

/-- The keyword of a kind of labelling rule. -/
def LabelKind.keyword : LabelKind → String
  | .typeTransition => "type_transition"
  | .typeChange => "type_change"
  | .typeMember => "type_member"

/-- All kinds of labelling rules by keyword. -/
def LabelKind.choices : List (String × LabelKind) :=
  [LabelKind.typeTransition, .typeChange, .typeMember].map fun k => (k.keyword, k)

namespace AccessRule

/-- Does the rule list a permission? -/
def grants (r : AccessRule) (perm : String) : Bool := r.perms.contains perm

/-- The rule in the policy language. One permission stands alone, any other number in braces. -/
def render (r : AccessRule) : String :=
  let perms := match r.perms.toList with
    | [p] => p
    | ps => "\x7b " ++ " ".intercalate ps ++ " \x7d"
  r.kind.keyword ++ " " ++ r.source ++ " " ++ r.target ++ ":" ++ r.cls ++ " " ++ perms ++ ";"

end AccessRule

/-- The rule in the policy language. -/
def LabelRule.render (r : LabelRule) : String :=
  r.kind.keyword ++ " " ++ r.source ++ " " ++ r.target ++ ":" ++ r.cls ++ " " ++ r.default ++ ";"

end PolicyReach
