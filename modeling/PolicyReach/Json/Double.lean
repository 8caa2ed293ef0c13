/-!
# The range of doubles

A number in text is scaled as doubles are: its leading digits and the power of ten are each rounded
to the nearest double, and so is their product. It is in range while the product is finite. Near the
end of the range the three roundings decide otherwise than the exact value would.
-/

namespace PolicyReach.Double

/-- The bits of the digits of a double. -/
def precision : Nat := 53

/-- The double nearest to `n`, of two the one whose last bit is 0. The least bit that it may have
set is `unit`. -/
def nearest (n : Nat) : Nat :=
  let unit := 1 <<< (n.log2 + 1 - precision)
  let below := n / unit
  let rest := n % unit
  if unit < 2 * rest ∨ (unit = 2 * rest ∧ below % 2 = 1) then (below + 1) * unit
  else below * unit

/-- The least number that is rounded to infinity: half a unit beyond the greatest double. -/
def bound : Nat := (1 <<< 1024) - (1 <<< 970)

/-- The greatest power of ten that a number is scaled by at once. -/
def maxExponent : Nat := 308

/-- Is `digits · 10 ^ exponent` in range? Scaling down never leaves it. -/
def inRange (digits : Nat) : (exponent : Int) → Bool
  | .ofNat e =>
    digits == 0
      || (e ≤ maxExponent && nearest digits * nearest (Nat.pow 10 e) < bound)
  | .negSucc _ => true

end PolicyReach.Double
