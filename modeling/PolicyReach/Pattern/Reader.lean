import PolicyReach.Pattern.Basic
import PolicyReach.Text.Blank
import PolicyReach.Text.Decimal
import PolicyReach.Text.Letter

/-!
# Reading patterns

The syntax of regular expressions: literals and escapes, `.`, classes in brackets, anchors, groups
with flags, choices and repetitions. `Pattern.parse?` refuses what has no meaning or is not
supported: look-around, back-references, properties of characters, nested classes and operations on
them.

Flags hold from where they are set to the end of the group they are set in. Under the flag `x`
blanks and comments are skipped wherever the reader moves on with `advance`.
-/

namespace PolicyReach.Pattern

/-- The flags in force. -/
structure Flags where
  /-- `i`: ASCII letters match in either case. -/
  ignoreCase : Bool := false
  /-- `m`: anchors match at line ends. -/
  multiLine : Bool := false
  /-- `s`: a dot matches a line feed. -/
  dotAll : Bool := false
  /-- `R`: a carriage return ends a line, too. -/
  crlf : Bool := false
  /-- `x`: blanks and comments are skipped. -/
  verbose : Bool := false

/-- Where the reader stands. -/
structure Cursor where
  rest : List Char
  flags : Flags := {}
  /-- How many groups of the match have begun. -/
  groups : Nat := 0
  /-- The names of the groups so far. -/
  names : List (List Char) := []

/-- `cs` after its blanks and comments; a comment ends with its line. -/
def skipIgnored : (comment : Bool) → List Char → List Char
  | _, [] => []
  | true, c :: cs => skipIgnored (c != '\n') cs
  | false, c :: cs =>
    if Text.isBlank c then skipIgnored false cs
    else if c == '#' then skipIgnored true cs
    else c :: cs

namespace Cursor

/-- The cursor at another place. -/
def moved (k : Cursor) (rest : List Char) : Cursor := { k with rest }

/-- The cursor after what the flags skip. -/
def skip (k : Cursor) : Cursor :=
  if k.flags.verbose then k.moved (skipIgnored false k.rest) else k

/-- The cursor after one character. -/
def bump (k : Cursor) : Cursor := k.moved k.rest.tail

/-- The cursor after one character and what the flags skip. -/
def advance (k : Cursor) : Cursor := k.bump.skip

/-- The character at the cursor. -/
def char? (k : Cursor) : Option Char := k.rest.head?

/-- The character after the one at the cursor. -/
def peek? (k : Cursor) : Option Char := k.rest.tail.head?

/-- `cs` from where a look ahead stops: blanks and one comment sign are passed. -/
def lookAhead : (sign : Bool) → List Char → Option Char
  | _, [] => none
  | sign, c :: cs =>
    if Text.isBlank c then lookAhead sign cs
    else if !sign && c == '#' then lookAhead true cs
    else some c

/-- The next character that matters after the one at the cursor; the very next one if nothing but
ignored text follows. -/
def peekPast? (k : Cursor) : Option Char :=
  if k.flags.verbose then (lookAhead false k.rest.tail).or k.peek? else k.peek?

/-- The cursor after `word`, if that stands at it. -/
def after? (k : Cursor) (word : String) : Option Cursor :=
  if word.toList.isPrefixOf k.rest then some (k.moved (k.rest.drop word.length)) else none

end Cursor

/-! ## Literals and escapes -/

/-- A literal character. -/
def literal (flags : Flags) (c : Char) : Pattern :=
  match if flags.ignoreCase then CharClass.foldRange (c.toNat, c.toNat) else none with
  | some r => .cls (CharClass.normalize [(c.toNat, c.toNat), r])
  | none => .char c

/-- The pattern of a dot. -/
def dot (flags : Flags) : Pattern :=
  .cls (CharClass.negate
    (if flags.dotAll then []
    else if flags.crlf then CharClass.single '\r' ++ CharClass.single '\n'
    else CharClass.single '\n'))

/-- The pattern of `^`. -/
def startAnchor (flags : Flags) : Pattern :=
  .look (if flags.multiLine then if flags.crlf then .crlfStart else .lineStart else .start)

/-- The pattern of `$`. -/
def endAnchor (flags : Flags) : Pattern :=
  .look (if flags.multiLine then if flags.crlf then .crlfEnd else .lineEnd else .finish)

/-- The character of a code point. -/
def scalar? (n : Nat) : Option Char :=
  if n < 0xd800 ∨ (0xe000 ≤ n ∧ n ≤ CharClass.top) then some (Char.ofNat n) else none

/-- Exactly `n` hexadecimal digits, the first of them at the cursor, and the cursor after them. -/
def fixedHex? : (n : Nat) → (acc : Nat) → Cursor → Option (Nat × Cursor)
  | 0, acc, k => some (acc, k)
  | n + 1, acc, k => do
    let d ← Text.hexDigit? (← k.char?)
    fixedHex? n (16 * acc + d) k.advance

/-- Hexadecimal digits up to a closing brace, and the cursor at it. -/
def braceHex? : (fuel : Nat) → (digits : List Char) → Cursor → Option (List Char × Cursor)
  | 0, _, _ => none
  | fuel + 1, digits, k => do
    let c ← k.char?
    if c = '\x7d' then some (digits.reverse, k)
    else
      let _ ← Text.hexDigit? c
      braceHex? fuel (c :: digits) k.advance

/-- The character that hexadecimal digits in braces name, of which there must be one at least. -/
def hexScalar? (digits : List Char) : Option Char :=
  if digits.isEmpty then none else (Text.hexFrom? 0 digits).bind scalar?

/-- An escape with hexadecimal digits, the cursor at its letter. -/
def hexEscape? (width : Nat) (k : Cursor) : Option (Pattern × Cursor) := do
  let k := k.advance
  if k.char? = some '\x7b' then
    let k := k.advance
    let (digits, k) ← braceHex? (k.rest.length + 1) [] k
    some (literal k.flags (← hexScalar? digits), k.advance)
  else
    let (n, k) ← fixedHex? width 0 k
    some (literal k.flags (← scalar? n), k)

/-- Is `c` a letter of a special word edge? -/
def isEdgeLetter (c : Char) : Bool := c.isAlpha || c == '-'

/-- The letters of a special word edge from the cursor on, and the cursor after them. -/
def edgeLetters : (fuel : Nat) → (word : List Char) → Cursor → List Char × Cursor
  | 0, word, k => (word.reverse, k)
  | fuel + 1, word, k =>
    match k.char? with
    | some c => if isEdgeLetter c then edgeLetters fuel (c :: word) k.advance else (word.reverse, k)
    | none => (word.reverse, k)

/-- The special word edges by name. -/
def namedEdges : List (String × Look) :=
  [("start", .wordStart), ("end", .wordEnd), ("start-half", .wordStartHalf),
    ("end-half", .wordEndHalf)]

/-- A word edge, the cursor after its letter. A brace begins the name of a special edge unless what
follows is no letter of one; then it is left to be read as a repetition. -/
def wordEdge? (k : Cursor) : Option (Pattern × Cursor) :=
  if k.char? = some '\x7b' then
    let inner := k.advance
    match inner.char? with
    | none => none
    | some c =>
      if isEdgeLetter c then do
        let (word, k) := edgeLetters inner.rest.length [] inner
        if k.char? ≠ some '\x7d' then none
        let l ← namedEdges.lookup (String.ofList word)
        some (.look l, k.bump)
      else some (.look .wordEdge, k)
  else some (.look .wordEdge, k)

/-- May `c` be escaped to stand for itself? All ASCII may but letters, digits and angles. -/
def isEscapable (c : Char) : Bool :=
  c.toNat < 0x80 && !c.isAlphanum && c != '<' && c != '>'

/-- The control characters that letters stand for. -/
def controls : List (Char × Char) :=
  [('a', '\x07'), ('f', '\x0c'), ('t', '\t'), ('n', '\n'), ('r', '\r'), ('v', '\x0b')]

/-- The conditions that letters stand for. -/
def lookLetters : List (Char × Look) :=
  [('A', .start), ('z', .finish), ('B', .notWordEdge), ('<', .wordStart), ('>', .wordEnd)]

/-- The classes that letters stand for, and by their capitals the characters outside. -/
def classLetters : List (Char × String) := [('d', "digit"), ('s', "space"), ('w', "word")]

/-- The class that a letter stands for. -/
def letterClass? (c : Char) : Option CharClass := do
  let name ← classLetters.lookup c.toLower
  let members ← CharClass.named? name
  some (if c.isUpper then members.negate else members.normalize)

/-- An escape, the cursor at its backslash. -/
def escape? (k : Cursor) : Option (Pattern × Cursor) := do
  let k := k.bump
  let c ← k.char?
  match [('x', 2), ('u', 4), ('U', 8)].lookup c with
  | some width => hexEscape? width k
  | none =>
    match letterClass? c with
    | some members => some (.cls members, k.bump)
    | none =>
      if isEscapable c then some (literal k.flags c, k.bump)
      else if c = 'b' then wordEdge? k.bump
      else
        match controls.lookup c, lookLetters.lookup c with
        | some control, _ => some (literal k.flags control, k.bump)
        | _, some l => some (.look l, k.bump)
        | none, none => none

/-! ## Classes in brackets -/

/-- An item of a class, the cursor at its first character. -/
def classItem? (k : Cursor) : Option (Pattern × Cursor) :=
  match k.char? with
  | none => none
  | some '\\' => escape? k
  | some c => some (.char c, k.bump)

/-- The characters of an item that stands for itself. -/
def itemClass? : Pattern → Option CharClass
  | .char c => some (CharClass.single c)
  | .cls c => some c
  | _ => none

/-- The character of an item that is an end of a range. -/
def itemChar? : Pattern → Option Char
  | .char c => some c
  | _ => none

/-- An item or a range of a class, and the cursor after it. A minus makes a range unless a bracket
or another minus follows. -/
def classRange? (k : Cursor) : Option (CharClass × Cursor) := do
  let (first, k) ← classItem? k
  let k := k.skip
  let c ← k.char?
  if c ≠ '-' ∨ k.peekPast? = some ']' ∨ k.peekPast? = some '-' then
    some (← itemClass? first, k)
  else
    let k := k.advance
    let (last, k) ← classItem? k
    let a ← itemChar? first
    let b ← itemChar? last
    if a.toNat ≤ b.toNat then some (CharClass.between a b, k) else none

/-- A named class such as `[:alpha:]`, the cursor at its bracket; `none` if there is none. -/
def posixClass? (k : Cursor) : Option (CharClass × Cursor) := do
  let k ← k.after? "[:"
  let _ ← k.char?
  let negated := k.char? = some '^'
  let cs := if negated then k.rest.tail else k.rest
  let name := cs.takeWhile (· != ':')
  let k ← (k.moved (cs.drop name.length)).after? ":]"
  let members ← CharClass.named? (String.ofList name)
  some (if negated then members.negate else members, k)

/-- Minus signs at the beginning of a class, and the cursor after them. -/
def leadingDashes : (fuel : Nat) → CharClass → Cursor → CharClass × Cursor
  | 0, members, k => (members, k)
  | fuel + 1, members, k =>
    if k.char? = some '-' then leadingDashes fuel (CharClass.single '-' ++ members) k.advance
    else (members, k)

/-- The items of a class up to its closing bracket, and the cursor after it. -/
def classItems? : (fuel : Nat) → CharClass → Cursor → Option (CharClass × Cursor)
  | 0, _, _ => none
  | fuel + 1, members, k => do
    let k := k.skip
    let c ← k.char?
    if c = ']' then some (members, k.bump)
    else if c = '[' then
      let (more, k) ← posixClass? k
      classItems? fuel (members ++ more) k
    else if (c = '&' ∨ c = '-' ∨ c = '~') ∧ k.peek? = some c then none
    else
      let (more, k) ← classRange? k
      classItems? fuel (members ++ more) k

/-- A class, the cursor at its opening bracket. A bracket that would close it at once is an item. -/
def class? (k : Cursor) : Option (Pattern × Cursor) := do
  let k := k.advance
  let negated := k.char? = some '^'
  let k := if negated then k.advance else k
  let (members, k) := leadingDashes k.rest.length [] k
  let (members, k) :=
    if members.isEmpty ∧ k.char? = some ']' then (CharClass.single ']', k.advance)
    else (members, k)
  let (members, k) ← classItems? (k.rest.length + 1) members k
  let members := if k.flags.ignoreCase then members.foldCase else members.normalize
  some (.cls (if negated then members.negate else members), k)

/-! ## Repetitions -/

/-- The cursor after a question mark at it, which makes a repetition lazy; a match is none the
less a match. -/
def afterLazy (k : Cursor) : Cursor := if k.char? = some '?' then k.bump else k

/-- The digits from the cursor on, and the cursor after them. -/
def decimalDigits : (fuel : Nat) → (digits : List Char) → Cursor → List Char × Cursor
  | 0, digits, k => (digits.reverse, k)
  | fuel + 1, digits, k =>
    match k.char? with
    | some c => if c.isDigit then decimalDigits fuel (c :: digits) k.advance else (digits.reverse, k)
    | none => (digits.reverse, k)

/-- A 32-bit number with blanks around it, and the cursor after it. -/
def decimal? (k : Cursor) : Option (Nat × Cursor) := do
  let k := k.moved (k.rest.dropWhile Text.isBlank)
  let (digits, k) := decimalDigits k.rest.length [] k
  let blank := (k.char?.any Text.isBlank)
  let k := k.moved (k.rest.dropWhile Text.isBlank)
  let k := if blank then k.skip else k
  let n ← Text.digits? digits
  if n < UInt32.size then some (n, k) else none

/-- The bounds of a counted repetition, the cursor at its opening brace, and the cursor after it. -/
def bounds? (k : Cursor) : Option (Nat × Option Nat × Cursor) := do
  let (min, k) ← decimal? k.advance
  let (max, k) ←
    if k.char? = some ',' then
      let k := k.advance
      if k.char? = some '\x7d' then some (none, k)
      else (decimal? k).map fun r => (some r.1, r.2)
    else some (some min, k)
  if k.char? ≠ some '\x7d' then none
  if max.any (· < min) then none
  some (min, max, afterLazy k.advance)

/-! ## Groups -/

/-- May `c` stand in the name of a group? -/
def isNameChar (first : Bool) (c : Char) : Bool :=
  c == '_' || Text.isLetter c
    || (!first && (Text.isNumber c || c == '.' || c == '[' || c == ']'))

/-- The name of a group up to its closing angle, and the cursor after that. A name is not empty and
stands once. -/
def groupName? (k : Cursor) : Option (String × Cursor) := do
  let name := k.rest.takeWhile (· != '>')
  let k ← (k.moved (k.rest.drop name.length)).after? ">"
  let first ← name.head?
  if isNameChar true first && name.tail.all (isNameChar false) && !k.names.contains name then
    some (String.ofList name, { k with names := name :: k.names })
  else none

/-- One flag set or cleared. The greed of repetitions and the range of characters, `U` and `u`, do
not bear on whether there is a match. -/
def setFlag? (flags : Flags) (value : Bool) : Char → Option Flags
  | 'i' => some { flags with ignoreCase := value }
  | 'm' => some { flags with multiLine := value }
  | 's' => some { flags with dotAll := value }
  | 'R' => some { flags with crlf := value }
  | 'x' => some { flags with verbose := value }
  | 'U' => some flags
  | 'u' => some flags
  | _ => none

/-- Flags up to a colon or a closing parenthesis, and the text from that on. No flag stands twice,
and at most one minus, which is not the last. -/
def flags? (flags : Flags) (seen : List Char) (last : Char) : List Char → Option (Flags × List Char)
  | [] => none
  | c :: cs =>
    if c == ':' || c == ')' then
      if last == '-' then none else some (flags, c :: cs)
    else if seen.contains c then none
    else if c == '-' then flags? flags (c :: seen) c cs
    else (setFlag? flags (!seen.contains '-') c).bind fun flags => flags? flags (c :: seen) c cs

/-- What makes a group one of the match: its number and perhaps a name. -/
abbrev Label := Nat × Option String

/-- The contents of a group with its label; without one it only holds them together. -/
def labelled : Option Label → Pattern → Pattern
  | none, p => p
  | some (number, name), p => .group number name p

/-- What a group's opening says: flags alone, or a group with its contents from the cursor on. -/
inductive Opening where
  | flags (k : Cursor)
  | group (label : Option Label) (k : Cursor)

/-- The opening of a group of the match with its contents from the cursor on. -/
def Opening.numbered (name : Option String) (k : Cursor) : Opening :=
  let number := k.groups + 1
  .group (some (number, name)) { k with groups := number }

/-- The opening of a group, the cursor at its parenthesis. -/
def opening? (k : Cursor) : Option Opening := do
  let k := k.advance
  if ["?=", "?!", "?<=", "?<!"].any fun w => (k.after? w).isSome then none
  match (k.after? "?P<").or (k.after? "?<") with
  | some k => (groupName? k).map fun r => .numbered (some r.1) r.2
  | none =>
    match k.after? "?" with
    | none => some (.numbered none k)
    | some k =>
      let (flags, rest) ← flags? k.flags [] ' ' k.rest
      let set : Cursor := { k.moved rest with flags }
      if set.char? = some ')' then
        if rest.length = k.rest.length then none else some (.flags set.bump)
      else some (.group none set.bump)

/-! ## The whole -/

/-- A pattern that is neither group, class nor repetition, the cursor at its first character. -/
def primitive? (k : Cursor) : Option (Pattern × Cursor) :=
  match k.char? with
  | none => none
  | some '\\' => escape? k
  | some '.' => some (dot k.flags, k.bump)
  | some '^' => some (startAnchor k.flags, k.bump)
  | some '$' => some (endAnchor k.flags, k.bump)
  | some c => some (literal k.flags c, k.bump)

/-- The pattern of choices and a sequence read so far, the last ones in front. -/
def assembled (choices parts : List Pattern) : Pattern :=
  ofChoice ((ofSequence parts.reverse :: choices).reverse)

/-- The pattern from the cursor to the end of its group, and the cursor there; `depth` groups are
open. Every call eats a character, or opens a group that has eaten one. -/
def contents? : (fuel : Nat) → (depth : Nat) → (choices parts : List Pattern) → Cursor →
    Option (Pattern × Cursor)
  | 0, _, _, _, _ => none
  | fuel + 1, depth, choices, parts, k =>
    let k := k.skip
    match k.char? with
    | none => some (assembled choices parts, k)
    | some ')' => if depth = 0 then none else some (assembled choices parts, k)
    | some '|' =>
      contents? fuel depth (ofSequence parts.reverse :: choices) [] k.bump
    | some '(' => do
      match ← opening? k with
      | .flags k => contents? fuel depth choices parts k
      | .group label inner =>
        if maxHeight < depth + 1 then none
        let (p, after) ← contents? fuel (depth + 1) [] [] inner
        let after ← after.after? ")"
        contents? fuel depth choices (labelled label p :: parts) { after with flags := k.flags }
    | some '[' => do
      let (p, k) ← class? k
      contents? fuel depth choices (p :: parts) k
    | some '\x7b' =>
      match parts with
      | [] => none
      | p :: parts => do
        let (min, max, k) ← bounds? k
        contents? fuel depth choices (repeated min max p :: parts) k
    | some c =>
      match [('?', (0, some 1)), ('*', (0, none)), ('+', (1, none))].lookup c with
      | some (min, max) =>
        match parts with
        | [] => none
        | p :: parts =>
          contents? fuel depth choices (repeated min max p :: parts) (afterLazy k.bump)
      | none => do
        let (p, k) ← primitive? k
        contents? fuel depth choices (p :: parts) k

/-- The pattern that a text writes. -/
def parse? (s : String) : Option Pattern := do
  let (p, _) ← contents? (2 * s.length + 2) 0 [] [] { rest := s.toList }
  if p.height ≤ maxHeight ∧ p.wholeRoom ≤ maxRoom then some p else none

end PolicyReach.Pattern
