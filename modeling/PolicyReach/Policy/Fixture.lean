import PolicyReach.Policy
import PolicyReach.TextFile
import PolicyReach.Rule.Record
import PolicyReach.Json.Double
import PolicyReach.Json.Reader

/-!
# Policies from fixtures

A fixture declares types, booleans and rules in one JSON record. Its rules may name only what it
declares: the policy is filled with types and booleans first, and then each rule is checked, its
source, its target, its default and its boolean in this order, and added.

A rule says its kind in a field of its own, so a rule is read whole before its fields are: even in
fields that are skipped it may hold no broken string, no number out of the range of doubles and no nesting
deeper than `ruleDepth`.
-/

namespace PolicyReach

/-- A type with its aliases and attributes. -/
structure TypeDecl where
  name : String
  aliases : List String
  attributes : List String

/-- A rule of a fixture. -/
inductive RuleDecl where
  | access (kind : AccessKind) (source target cls : String) (perms : List String)
      (guard : Option Guard)
  | label (kind : LabelKind) (source target cls default : String) (guard : Option Guard)

/-- What a fixture declares. -/
structure Fixture where
  types : List TypeDecl
  booleans : List (String × Bool)
  rules : List RuleDecl

/-- Why a fixture gives no policy. -/
inductive PolicyError where
  | unreadable (fault : TextFile.Fault)
  | malformed
  /-- A rule, by its position, names what no declaration does. -/
  | undeclaredSymbol (index : Nat) (symbol : String)
  | undeclaredBoolean (index : Nat) (boolean : String)
  deriving DecidableEq

/-- The words for an error. -/
def PolicyError.message : PolicyError → String
  | .unreadable fault => "Cannot read policy fixture: " ++ fault.message
  | .malformed => "Malformed policy fixture"
  | .undeclaredSymbol index symbol =>
    "Rule " ++ toString index ++ " references undeclared symbol '" ++ symbol ++ "'"
  | .undeclaredBoolean index boolean =>
    "Rule " ++ toString index ++ " references undeclared boolean '" ++ boolean ++ "'"

/-! ## Reading the record -/

namespace Json

mutual

/-- Can the value be held whole, with at most `depth` levels of arrays and objects? -/
def holdable (depth : Nat) : Json → Bool
  | .malformed => false
  | .real _ digits exponent => Double.inRange digits exponent
  | .arr items => 0 < depth && allHoldable (depth - 1) items
  | .obj fields => 0 < depth && fieldsHoldable (depth - 1) fields
  | _ => true

def allHoldable (depth : Nat) : List Json → Bool
  | [] => true
  | v :: vs => holdable depth v && allHoldable depth vs

def fieldsHoldable (depth : Nat) : List (String × Json) → Bool
  | [] => true
  | (_, v) :: fs => holdable depth v && fieldsHoldable depth fs

end

end Json

/-- The levels of arrays and objects that a rule may nest. -/
def ruleDepth : Nat := 125

namespace TypeDecl

def ofJson? (v : Json) : Option TypeDecl := do
  let r ← v.record? [("name", .required), ("aliases", .defaulted), ("attributes", .defaulted)]
  some
    { name := ← r.required "name" Json.string
      aliases := ← r.defaulted "aliases" [] (Json.listOf Json.string)
      attributes := ← r.defaulted "attributes" [] (Json.listOf Json.string) }

end TypeDecl

namespace RuleDecl

/-- The keyword of a rule's kind, the first item of a rule written as an array. -/
def kind? : Json → Option String
  | .arr (k :: _) => k.string
  | .obj fields => (fields.lookup "kind").bind Json.string
  | _ => none

/-- A rule of a known kind whose last field before the guard is named `last`. -/
def fields? (last : String) (v : Json) : Option Record :=
  v.record? [("kind", .required), ("source", .required), ("target", .required),
    ("class", .required), (last, .required), ("conditional", .defaulted)]

def access? (kind : AccessKind) (v : Json) : Option RuleDecl := do
  let r ← fields? "perms" v
  some (.access kind (← r.required "source" Json.string) (← r.required "target" Json.string)
    (← r.required "class" Json.string) (← r.required "perms" (Json.listOf Json.string))
    (← r.nullable "conditional" Guard.ofJson?))

def label? (kind : LabelKind) (v : Json) : Option RuleDecl := do
  let r ← fields? "default" v
  some (.label kind (← r.required "source" Json.string) (← r.required "target" Json.string)
    (← r.required "class" Json.string) (← r.required "default" Json.string)
    (← r.nullable "conditional" Guard.ofJson?))

def ofJson? (v : Json) : Option RuleDecl :=
  if v.holdable ruleDepth then do
    let keyword ← kind? v
    match AccessKind.choices.lookup keyword with
    | some kind => access? kind v
    | none => (LabelKind.choices.lookup keyword).bind fun kind => label? kind v
  else none

end RuleDecl

def Fixture.ofJson? (v : Json) : Option Fixture := do
  let r ← v.record? [("types", .defaulted), ("booleans", .defaulted), ("rules", .defaulted)]
  some
    { types := ← r.defaulted "types" [] (Json.listOf TypeDecl.ofJson?)
      booleans := ← r.defaulted "booleans" [] (Json.entriesOf Json.truth)
      rules := ← r.defaulted "rules" [] (Json.listOf RuleDecl.ofJson?) }

/-! ## Filling the policy -/

namespace RuleDecl

/-- The names a rule uses, in the order they are checked; a target `self` needs no declaration. -/
def symbols : RuleDecl → List String
  | .access _ source target _ _ _ => source :: if target = selfTarget then [] else [target]
  | .label _ source target _ default _ =>
    source :: (if target = selfTarget then [] else [target]) ++ [default]

/-- The rule's guard. -/
def guard : RuleDecl → Option Guard
  | .access _ _ _ _ _ guard => guard
  | .label _ _ _ _ _ guard => guard

/-- The first name that the policy does not declare, as the error of the rule at `index`. -/
def check (p : Policy) (index : Nat) (d : RuleDecl) : Except PolicyError Unit :=
  match d.symbols.find? fun s => !((p.resolve s).isSome || p.isAttribute s) with
  | some s => .error (.undeclaredSymbol index s)
  | none =>
    match d.guard with
    | some g =>
      if p.booleans.contains g.boolean then .ok ()
      else .error (.undeclaredBoolean index g.boolean)
    | none => .ok ()

/-- The policy with the rule added. -/
def addTo (p : Policy) : RuleDecl → Policy
  | .access kind source target cls perms guard =>
    (p.addAccessRule kind source target cls perms guard).2
  | .label kind source target cls default guard =>
    (p.addLabelRule kind source target cls default guard).2

end RuleDecl

namespace Policy

/-- The policy with a type declared, then its aliases, then its attributes. -/
def addTypeDecl (p : Policy) (d : TypeDecl) : Policy :=
  let p := d.aliases.foldl (fun p a => p.addAlias d.name a) (p.addType d.name)
  d.attributes.foldl (fun p a => p.addAttribute a [d.name]) p

/-- The policy of a fixture. -/
def ofFixture (f : Fixture) : Except PolicyError Policy :=
  let p := f.types.foldl addTypeDecl empty
  let p := f.booleans.foldl (fun p b => p.addBoolean b.1 b.2) p
  f.rules.zipIdx.foldlM (fun p e => (e.1.check p e.2).map fun _ => e.1.addTo p) p

/-- The policy of a fixture's record. -/
def ofRecord (v : Json) : Except PolicyError Policy :=
  match Fixture.ofJson? v with
  | some f => ofFixture f
  | none => .error .malformed

/-- The policy of a fixture's text. -/
def ofText (text : String) : Except PolicyError Policy :=
  match Json.parse? text with
  | some v => ofRecord v
  | none => .error .malformed

/-- The policy of a fixture in a file. -/
def ofFile (file : TextFile) : Except PolicyError Policy :=
  match file.read with
  | .ok text => ofText text
  | .error fault => .error (.unreadable fault)

end Policy

end PolicyReach
