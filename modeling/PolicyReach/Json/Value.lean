/-!
# JSON values

The fields of an object keep the order they are written in, and a repeated name stays repeated: a
reader of records decides what that means. Integers of 64 bits, with or without a sign, are exact;
of every other number the leading digits are kept as far as they fit in 64 bits. `malformed` is a value that obeys
the grammar of the format but holds a string, or a field name, whose escapes name no Unicode text;
no reader accepts it, but one that skips the value may go on.
-/

namespace PolicyReach

/-- A JSON value. -/
inductive Json where
  | null
  | bool (b : Bool)
  | int (n : Int)
  /-- A number written with a fraction or an exponent, as minus zero, or beyond 64 bits:
  `± digits · 10 ^ exponent`. -/
  | real (negative : Bool) (digits : Nat) (exponent : Int)
  | str (s : String)
  | arr (items : List Json)
  | obj (fields : List (String × Json))
  | malformed
  deriving Inhabited

namespace Json

/-- A natural number as a value. -/
def nat (n : Nat) : Json := .int n

/-- An optional value, missing as `null`. -/
def option {α : Type} (f : α → Json) : Option α → Json
  | none => .null
  | some a => f a

/-- A list of values. -/
def list {α : Type} (f : α → Json) (l : List α) : Json := .arr (l.map f)

/-- A list of strings. -/
def strings (l : List String) : Json := list str l

end Json

end PolicyReach
