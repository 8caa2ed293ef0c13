import PolicyReach.Json.Value

/-!
# Records in JSON

A record is written as an object of its fields in any order, or as an array of its fields in the
order of their declaration. In an object unknown fields are skipped and a known field may stand
only once; an array holds no more items than the record has fields. A field left out is an error
unless it is `nullable`, when an object may leave it out, or `defaulted`, when either may.

`Json.record?` checks the shape; the functions of `Record` read one field each. Whether any text is
refused or accepted does not depend on the order in which the fields are read.
-/

namespace PolicyReach

/-- When a field may be left out. -/
inductive Presence where
  | required
  /-- An object may leave the field out; an array may not. -/
  | nullable
  /-- Object and array may leave the field out. -/
  | defaulted
  deriving DecidableEq

/-- The fields of a record that its text gives. -/
abbrev Record := List (String × Json)

namespace Json

/-- Does every known name stand at most once in `fields`? -/
def namesOnce (known : List String) (fields : List (String × Json)) : Bool :=
  known.all fun k => (fields.filter fun f => f.1 == k).length ≤ 1

/-- The fields of a record; the declared ones alone are kept. -/
def record? (declared : List (String × Presence)) : Json → Option Record
  | .obj fields =>
    let known := declared.map Prod.fst
    if namesOnce known fields then some (fields.filter fun f => known.contains f.1) else none
  | .arr items =>
    if items.length ≤ declared.length
        && (declared.drop items.length).all (fun d => d.2 == .defaulted) then
      some ((declared.map Prod.fst).zip items)
    else none
  | _ => none

/-- A string. -/
def string : Json → Option String
  | .str s => some s
  | _ => none

/-- A truth value. -/
def truth : Json → Option Bool
  | .bool b => some b
  | _ => none

/-- A natural number below `bound`. -/
def natBelow (bound : Nat) : Json → Option Nat
  | .int (.ofNat n) => if n < bound then some n else none
  | _ => none

/-- A 32-bit number. -/
def uint32 (v : Json) : Option UInt32 := (v.natBelow UInt32.size).map UInt32.ofNat

/-- A count of things in memory. -/
def count (v : Json) : Option Nat := v.natBelow UInt64.size

/-- A list of values. -/
def listOf {α : Type} (f : Json → Option α) : Json → Option (List α)
  | .arr items => items.mapM f
  | _ => none

/-- The entries of an object whose fields are keys. -/
def entriesOf {α : Type} (f : Json → Option α) : Json → Option (List (String × α))
  | .obj fields => fields.mapM fun e => (f e.2).map fun v => (e.1, v)
  | _ => none

/-- A value or `null`. -/
def nullOr {α : Type} (f : Json → Option α) : Json → Option (Option α)
  | .null => some none
  | v => (f v).map some

/-- The one of `choices` that is named, by a string or as the only field of an object whose value
is `null`. -/
def choiceOf {α : Type} (choices : List (String × α)) : Json → Option α
  | .str s => choices.lookup s
  | .obj [(s, .null)] => choices.lookup s
  | _ => none

end Json

namespace Record

variable {α : Type}

/-- A field that must be there. -/
def required (r : Record) (name : String) (f : Json → Option α) : Option α :=
  (r.lookup name).bind f

/-- A field that stands for `default` when it is left out. -/
def defaulted (r : Record) (name : String) (default : α) (f : Json → Option α) : Option α :=
  match r.lookup name with
  | none => some default
  | some v => f v

/-- A field that may be left out or `null`. -/
def nullable (r : Record) (name : String) (f : Json → Option α) : Option (Option α) :=
  r.defaulted name none (Json.nullOr f)

end Record

end PolicyReach
