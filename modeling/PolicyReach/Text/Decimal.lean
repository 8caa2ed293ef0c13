/-!
# Decimal numbers in text

Numbers are read from ASCII digits, with leading zeros allowed, after at most one sign: `+` for
every number and `-` where negative numbers are meant. A number beyond the width it is read for is
refused. `decimal` writes the shortest digits.
-/

namespace PolicyReach.Text

/-- The shortest decimal digits of `n`. -/
def decimal (n : Nat) : List Char := Nat.toDigits 10 n

/-- The value of an ASCII digit. -/
def digit? (c : Char) : Option Nat :=
  if '0' ≤ c ∧ c ≤ '9' then some (c.toNat - '0'.toNat) else none

/-- The value of the digits `cs`, continuing from `acc`. -/
def digitsFrom? (acc : Nat) : List Char → Option Nat
  | [] => some acc
  | c :: cs => (digit? c).bind fun d => digitsFrom? (10 * acc + d) cs

/-- The value of one or more digits. -/
def digits? : List Char → Option Nat
  | [] => none
  | cs => digitsFrom? 0 cs

/-- The number below `bound` that `cs` writes, with an optional plus sign. -/
def natBelow? (bound : Nat) (cs : List Char) : Option Nat :=
  let value? := match cs with
    | '+' :: ds => digits? ds
    | ds => digits? ds
  value?.filter (· < bound)

/-- The number in `-bound ≤ n < bound` that `cs` writes, with an optional sign. -/
def intWithin? (bound : Nat) (cs : List Char) : Option Int :=
  let value? : Option Int := match cs with
    | '+' :: ds => (digits? ds).map Int.ofNat
    | '-' :: ds => (digits? ds).map fun n => -Int.ofNat n
    | ds => (digits? ds).map Int.ofNat
  value?.filter fun n => -(bound : Int) ≤ n ∧ n < bound

/-- A 32-bit number. -/
def uint32? (cs : List Char) : Option UInt32 := (natBelow? UInt32.size cs).map UInt32.ofNat

/-- A 64-bit number. -/
def uint64? (cs : List Char) : Option UInt64 := (natBelow? UInt64.size cs).map UInt64.ofNat

/-- A count of things in memory: a number below `2 ^ 64`. -/
def count? (cs : List Char) : Option Nat := natBelow? UInt64.size cs

/-- The value of a hexadecimal digit of either case. -/
def hexDigit? (c : Char) : Option Nat :=
  if '0' ≤ c ∧ c ≤ '9' then some (c.toNat - '0'.toNat)
  else if 'a' ≤ c ∧ c ≤ 'f' then some (c.toNat - 'a'.toNat + 10)
  else if 'A' ≤ c ∧ c ≤ 'F' then some (c.toNat - 'A'.toNat + 10)
  else none

/-- The value of the hexadecimal digits `cs`, continuing from `acc`. -/
def hexFrom? (acc : Nat) : List Char → Option Nat
  | [] => some acc
  | c :: cs => (hexDigit? c).bind fun d => hexFrom? (16 * acc + d) cs

/-- The lower-case hexadecimal digits of `n`, padded with zeros to `width`. -/
def hexadecimal (width n : Nat) : List Char :=
  let ds := Nat.toDigits 16 n
  List.replicate (width - ds.length) '0' ++ ds

end PolicyReach.Text
