import PolicyReach.Json.Value
import PolicyReach.Text.Decimal
import PolicyReach.Digest.XxHash64

/-!
# Compact JSON text

A value is written without any blank. In strings only the quote, the backslash and the characters
below U+0020 are escaped: five of them by a letter, the others by four lower-case hexadecimal
digits. The text is what fingerprints are taken of (`Json.fingerprint`), as sixteen lower-case
hexadecimal digits of its hash.
-/

namespace PolicyReach.Json

/-- The written form of one character of a string. -/
def escape (c : Char) : List Char :=
  if c = '"' then ['\\', '"']
  else if c = '\\' then ['\\', '\\']
  else if c = '\x08' then ['\\', 'b']
  else if c = '\t' then ['\\', 't']
  else if c = '\n' then ['\\', 'n']
  else if c = '\x0c' then ['\\', 'f']
  else if c = '\r' then ['\\', 'r']
  else if c.toNat < 0x20 then ['\\', 'u'] ++ Text.hexadecimal 4 c.toNat
  else [c]

/-- A string in quotes. -/
def quoted (s : String) : List Char := '"' :: s.toList.flatMap escape ++ ['"']

/-- The digits of an integer, after a minus sign if it is negative. -/
def intChars (n : Int) : List Char :=
  match n with
  | .ofNat m => Text.decimal m
  | .negSucc m => '-' :: Text.decimal (m + 1)

mutual

/-- The characters of the compact text of a value. -/
def chars : Json → List Char
  | .null => "null".toList
  | .bool true => "true".toList
  | .bool false => "false".toList
  | .int n => intChars n
  | .real negative digits exponent =>
    (if negative then ['-'] else []) ++
      (if digits = 0 then "0.0".toList
      else Text.decimal digits ++ 'e' :: intChars exponent)
  | .str s => quoted s
  | .arr items => '[' :: itemChars items
  | .obj fields => '{' :: fieldChars fields
  | .malformed => "null".toList

/-- The items of an array and its closing bracket. -/
def itemChars : List Json → List Char
  | [] => [']']
  | [v] => chars v ++ [']']
  | v :: vs => chars v ++ ',' :: itemChars vs

/-- The fields of an object and its closing brace. -/
def fieldChars : List (String × Json) → List Char
  | [] => ['}']
  | [(k, v)] => quoted k ++ ':' :: chars v ++ ['}']
  | (k, v) :: fs => quoted k ++ ':' :: chars v ++ ',' :: fieldChars fs

end

/-- The compact text of a value. -/
def text (v : Json) : String := String.ofList v.chars

/-- The hash of the compact text. -/
def hash (v : Json) : UInt64 := XxHash64.hash v.text.toUTF8.data.toList

/-- The hash of the compact text as sixteen hexadecimal digits. -/
def fingerprint (v : Json) : String := String.ofList (Text.hexadecimal 16 v.hash.toNat)

end PolicyReach.Json
