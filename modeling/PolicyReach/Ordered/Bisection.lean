/-!
# Looking up by halving

`bisect? key k a` finds the element of key `k` in an array whose keys ascend, by comparing `k` with
the middle of the interval that is left.
-/

namespace PolicyReach

variable {α κ : Type} [Ord κ]

/-- The element of key `k` at a position from `lo` on and before `hi`. -/
def bisectBetween? (key : α → κ) (k : κ) (a : Array α) (lo hi : Nat) : Option α :=
  if _h : lo < hi then
    let mid := (lo + hi) / 2
    match a[mid]? with
    | none => none
    | some x =>
      match compare k (key x) with
      | .eq => some x
      | .lt => bisectBetween? key k a lo mid
      | .gt => bisectBetween? key k a (mid + 1) hi
  else none
termination_by hi - lo
decreasing_by
  all_goals omega

/-- The element of key `k` in an array whose keys ascend. -/
def bisect? (key : α → κ) (k : κ) (a : Array α) : Option α := bisectBetween? key k a 0 a.size

end PolicyReach
