import PolicyReach.Json.Value
import PolicyReach.Ordered.Map

/-!
# Canonical values

A canonical value lists the fields of every object in ascending order of their names, each name
once; where a name is repeated, its last value counts. Texts that differ only in the order of
fields have the same canonical value, and so the same fingerprint.
-/

namespace PolicyReach.Json

mutual

/-- The canonical form of a value. -/
def canonical : Json → Json
  | .arr items => .arr (canonicalItems items)
  | .obj fields => .obj (OrdMap.ofList (canonicalFields fields)).entries
  | v => v

/-- The canonical forms of items, in order. -/
def canonicalItems : List Json → List Json
  | [] => []
  | v :: vs => canonical v :: canonicalItems vs

/-- The fields with the canonical forms of their values, in order. -/
def canonicalFields : List (String × Json) → List (String × Json)
  | [] => []
  | (k, v) :: fs => (k, canonical v) :: canonicalFields fs

end

end PolicyReach.Json
