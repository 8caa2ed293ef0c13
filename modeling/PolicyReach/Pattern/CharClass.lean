/-!
# Classes of characters

A class is a list of closed ranges of code points. In normal form (`CharClass.normalize`) the
ranges ascend and have gaps between them; every operation gives a normal form.

`foldCase` adds to each range the other case of the ASCII letters in it: of its lower-case letters
if it has any, else of its upper-case letters.
-/

namespace PolicyReach

/-- A class of characters: closed ranges of code points. -/
abbrev CharClass := List (Nat × Nat)

namespace CharClass

/-- The greatest code point. -/
def top : Nat := 0x10ffff

/-- A range and the ascending ranges after it, those that it touches joined to it one by one. -/
def joinFrom (r : Nat × Nat) : List (Nat × Nat) → CharClass
  | [] => [r]
  | s :: ss =>
    if s.1 ≤ r.2 + 1 then joinFrom (r.1, max r.2 s.2) ss else r :: joinFrom s ss

/-- Ascending ranges joined where they touch. -/
def joinRanges : List (Nat × Nat) → CharClass
  | [] => []
  | r :: rs => joinFrom r rs

/-- The normal form of a class. -/
def normalize (c : CharClass) : CharClass :=
  joinRanges (c.mergeSort fun r s => r.1 < s.1 || (r.1 == s.1 && r.2 ≤ s.2))

/-- The ranges between those of a class in normal form, from `low` on. -/
def gapsFrom (low : Nat) : CharClass → CharClass
  | [] => if low ≤ top then [(low, top)] else []
  | r :: rs => if low < r.1 then (low, r.1 - 1) :: gapsFrom (r.2 + 1) rs else gapsFrom (r.2 + 1) rs

/-- The characters outside a class. -/
def negate (c : CharClass) : CharClass := gapsFrom 0 c.normalize

/-- The part of a range between two letters, moved by the distance of the cases. -/
def foldPart (low high : Char) (r : Nat × Nat) (move : Nat → Nat) : Option (Nat × Nat) :=
  let a := max r.1 low.toNat
  let b := min r.2 high.toNat
  if a ≤ b then some (move a, move b) else none

/-- The other case of the letters of a range: of the lower-case ones if it has any, else of the
upper-case ones. -/
def foldRange (r : Nat × Nat) : Option (Nat × Nat) :=
  match foldPart 'a' 'z' r (· - 32) with
  | some s => some s
  | none => foldPart 'A' 'Z' r (· + 32)

/-- The class with the other cases of its ASCII letters. -/
def foldCase (c : CharClass) : CharClass :=
  let c := c.normalize
  normalize (c ++ c.filterMap foldRange)

/-- Is `c` in the class? -/
def contains (cls : CharClass) (c : Char) : Bool :=
  cls.any fun r => r.1 ≤ c.toNat && c.toNat ≤ r.2

/-- A range between two characters. -/
def between (a b : Char) : CharClass := [(a.toNat, b.toNat)]

/-- The single character `c`. -/
def single (c : Char) : CharClass := between c c

/-- The characters of a class that a pattern names, all of them ASCII. -/
def named? (name : String) : Option CharClass :=
  let digit := between '0' '9'
  let upper := between 'A' 'Z'
  let lower := between 'a' 'z'
  let alpha := upper ++ lower
  let punct := between '!' '/' ++ between ':' '@' ++ between '[' '\x60' ++ between '\x7b' '~'
  [("alnum", digit ++ alpha), ("alpha", alpha), ("ascii", [(0, 0x7f)]),
    ("blank", single '\t' ++ single ' '), ("cntrl", [(0, 0x1f), (0x7f, 0x7f)]), ("digit", digit),
    ("graph", between '!' '~'), ("lower", lower), ("print", between ' ' '~'), ("punct", punct),
    ("space", between '\t' '\r' ++ single ' '), ("upper", upper),
    ("word", digit ++ upper ++ single '_' ++ lower),
    ("xdigit", digit ++ between 'A' 'F' ++ between 'a' 'f')].lookup name

end CharClass

end PolicyReach
