import PolicyReach.Json.Value
import PolicyReach.Text.Decimal

/-!
# Reading JSON text

`Json.parse?` reads one value and refuses anything but blanks after it. The grammar is the strict
one: no comments, no trailing commas, no leading zeros, no control characters in strings. A string
with a lone surrogate escape is grammatical, so the value that holds it is read as `malformed`.

Every step eats at least one character of the text before it calls itself on a value or on a list
of values again, so twice the length of the text is fuel enough.
-/

namespace PolicyReach.Json

/-- Is `c` one of the four blanks of the format? -/
def isSpace (c : Char) : Bool := c == ' ' || c == '\n' || c == '\t' || c == '\r'

/-- `cs` from its first character that is not blank. -/
def skipSpaces (cs : List Char) : List Char := cs.dropWhile isSpace

/-- Is `n` the first half of a surrogate pair? -/
def isHighSurrogate (n : Nat) : Bool := 0xd800 ≤ n && n < 0xdc00

/-- Is `n` the second half of a surrogate pair? -/
def isLowSurrogate (n : Nat) : Bool := 0xdc00 ≤ n && n < 0xe000

/-- The character an escape letter stands for. -/
def escaped? (c : Char) : Option Char :=
  [('"', '"'), ('\\', '\\'), ('/', '/'), ('b', '\x08'), ('f', '\x0c'), ('n', '\n'), ('r', '\r'),
    ('t', '\t')].lookup c

/-- What a string is written with: a character, or the number of a 16-bit unit. -/
inductive Piece where
  | char (c : Char)
  | unit (n : Nat)

/-- The pieces of a string after its opening quote, and the text after its closing quote. -/
def pieces? : List Char → Option (List Piece × List Char)
  | [] => none
  | '"' :: cs => some ([], cs)
  | '\\' :: 'u' :: a :: b :: c :: d :: cs => do
    let n ← Text.hexFrom? 0 [a, b, c, d]
    let (ps, rest) ← pieces? cs
    some (.unit n :: ps, rest)
  | '\\' :: c :: cs => do
    let e ← escaped? c
    let (ps, rest) ← pieces? cs
    some (.char e :: ps, rest)
  | c :: cs =>
    if c.toNat < 0x20 || c == '\\' then none
    else do
      let (ps, rest) ← pieces? cs
      some (.char c :: ps, rest)

/-- The text of the pieces after the pending first half of a surrogate pair, if one is pending;
a half without its other half makes no text. -/
def joined? : (pending : Option Nat) → List Piece → Option (List Char)
  | none, [] => some []
  | none, .char c :: ps => (joined? none ps).map (c :: ·)
  | none, .unit n :: ps =>
    if isHighSurrogate n then joined? (some n) ps
    else if isLowSurrogate n then none
    else (joined? none ps).map (Char.ofNat n :: ·)
  | some high, .unit low :: ps =>
    if isLowSurrogate low then
      let code := 0x10000 + (high - 0xd800) * 0x400 + (low - 0xdc00)
      (joined? none ps).map (Char.ofNat code :: ·)
    else none
  | some _, _ => none

/-- A string as read: `none` when its escapes name no Unicode text. -/
abbrev ReadText := Option String

/-- The string after its opening quote, and the text after its closing quote. -/
def string? (cs : List Char) : Option (ReadText × List Char) :=
  (pieces? cs).map fun r => ((joined? none r.1).map String.ofList, r.2)

/-- The longest run of digits at the start of `cs`, and the rest. -/
def digitRun (cs : List Char) : List Char × List Char :=
  cs.span Char.isDigit

/-- The value of a run of digits. -/
def runValue (ds : List Char) : Nat := (Text.digitsFrom? 0 ds).getD 0

/-- The digits after a decimal point, if there is one. -/
def fraction? : List Char → Option (List Char × List Char)
  | '.' :: cs =>
    match digitRun cs with
    | ([], _) => none
    | r => some r
  | cs => some ([], cs)

/-- The exponent, if there is one; `none` inside means that there is not. -/
def exponent? : List Char → Option (Option Int × List Char)
  | c :: cs =>
    if c == 'e' || c == 'E' then
      let (negative, ds) := match cs with
        | '-' :: ds => (true, ds)
        | '+' :: ds => (false, ds)
        | ds => (false, ds)
      match digitRun ds with
      | ([], _) => none
      | (run, rest) =>
        let n : Int := runValue run
        some (some (if negative then -n else n), rest)
    else some (none, c :: cs)
  | [] => some (none, [])

/-- The value of the digits `ds` after `acc` as far as they fit in 64 bits, and those left over. -/
def leadingDigits : (acc : Nat) → (ds : List Char) → Nat × List Char
  | acc, [] => (acc, [])
  | acc, d :: ds =>
    let n := 10 * acc + (Text.digit? d).getD 0
    if n < UInt64.size then leadingDigits n ds else (acc, d :: ds)

/-- The integer of the given sign and magnitude. Minus zero and what is beyond 64 bits are none. -/
def signedInt? (negative : Bool) (n : Nat) : Option Int :=
  if negative then if n = 0 ∨ Int64.maxValue.toInt + 1 < n then none else some (-(n : Int))
  else some n

/-- A number after its sign. Digits after the point are counted into the leading digits, even where
digits before it are left over. -/
def magnitude? (negative : Bool) (cs : List Char) : Option (Json × List Char) := do
  let (whole, cs) ← match cs with
    | '0' :: cs => some (['0'], cs)
    | cs =>
      match digitRun cs with
      | ([], _) => none
      | r => some r
  if whole == ['0'] && (cs.head?.any Char.isDigit) then none
  let (places, cs') ← fraction? cs
  let (exponent, cs'') ← exponent? cs'
  let (digits, left) := leadingDigits 0 whole
  let (digits, unread) := leadingDigits digits places
  let real : Json :=
    .real negative digits (exponent.getD 0 + left.length - (places.length - unread.length : Nat))
  if places.isEmpty && exponent.isNone && left.isEmpty then
    some (((signedInt? negative digits).map Json.int).getD real, cs'')
  else some (real, cs'')

/-- A number. -/
def number? : List Char → Option (Json × List Char)
  | '-' :: cs => magnitude? true cs
  | cs => magnitude? false cs

/-- The rest of `cs` after the letters of `word`. -/
def literal? : (word cs : List Char) → Option (List Char)
  | [], cs => some cs
  | _ :: _, [] => none
  | w :: ws, c :: cs => if w = c then literal? ws cs else none

/-- An object of the fields read, malformed if one of their names is. -/
def ofFields (fields : List (ReadText × Json)) : Json :=
  match fields.mapM fun f => f.1.map fun k => (k, f.2) with
  | some fs => .obj fs
  | none => .malformed

mutual

/-- A value and the text after it. -/
def value? : (fuel : Nat) → List Char → Option (Json × List Char)
  | 0, _ => none
  | fuel + 1, cs =>
    match skipSpaces cs with
    | [] => none
    | '"' :: cs => (string? cs).map fun r => (r.1.elim .malformed .str, r.2)
    | '[' :: cs =>
      match skipSpaces cs with
      | ']' :: rest => some (.arr [], rest)
      | cs => do
        let (items, rest) ← items? fuel cs
        some (.arr items, rest)
    | '{' :: cs =>
      match skipSpaces cs with
      | '}' :: rest => some (.obj [], rest)
      | cs => do
        let (fields, rest) ← fields? fuel cs
        some (ofFields fields, rest)
    | 't' :: cs => (literal? "rue".toList cs).map fun rest => (.bool true, rest)
    | 'f' :: cs => (literal? "alse".toList cs).map fun rest => (.bool false, rest)
    | 'n' :: cs => (literal? "ull".toList cs).map fun rest => (.null, rest)
    | cs => number? cs

/-- One or more items of an array, its closing bracket, and the text after it. -/
def items? : (fuel : Nat) → List Char → Option (List Json × List Char)
  | 0, _ => none
  | fuel + 1, cs => do
    let (v, rest) ← value? fuel cs
    match skipSpaces rest with
    | ',' :: rest =>
      let (vs, rest) ← items? fuel rest
      some (v :: vs, rest)
    | ']' :: rest => some ([v], rest)
    | _ => none

/-- One or more fields of an object, its closing brace, and the text after it. -/
def fields? : (fuel : Nat) → List Char → Option (List (ReadText × Json) × List Char)
  | 0, _ => none
  | fuel + 1, cs => do
    let '"' :: cs := skipSpaces cs | none
    let (k, rest) ← string? cs
    let ':' :: rest := skipSpaces rest | none
    let (v, rest) ← value? fuel rest
    match skipSpaces rest with
    | ',' :: rest =>
      let (fs, rest) ← fields? fuel rest
      some ((k, v) :: fs, rest)
    | '}' :: rest => some ([(k, v)], rest)
    | _ => none

end

/-- The value a text writes, with nothing but blanks around it. -/
def parse? (s : String) : Option Json := do
  let cs := s.toList
  let (v, rest) ← value? (2 * cs.length + 2) cs
  if (skipSpaces rest).isEmpty then some v else none

end PolicyReach.Json
