import PolicyReach.Ordered.Key

/-!
# Names and references

* `TypeName` - the primary name of a concrete type; aliases and attributes never become one;
* `RuleId` - the reference of a rule within its policy;
* `ClassPerm` - an object class with one of its permissions.

All three are ordered, names by code points, since results are reported in that order and ties
are broken by it.
-/

namespace PolicyReach

open Std

/-- The primary name of a concrete type. -/
structure TypeName where
  text : String
  deriving DecidableEq, Inhabited

/-- The reference of a rule within its policy. -/
structure RuleId where
  raw : UInt32
  deriving DecidableEq, Inhabited

/-- An object class with one of its permissions. -/
structure ClassPerm where
  cls : String
  perm : String
  deriving DecidableEq, Inhabited

namespace TypeName

instance : Ord TypeName := ⟨fun a b => compare a.text b.text⟩

instance : TransOrd TypeName := transOrd_of_key text fun _ _ => rfl

instance : LawfulEqOrd TypeName := lawfulEqOrd_of_key text (fun _ _ => rfl) fun a b h => by
  cases a
  cases b
  cases h
  rfl

end TypeName

namespace RuleId

instance : Ord RuleId := ⟨fun a b => compare a.raw b.raw⟩

instance : TransOrd RuleId := transOrd_of_key raw fun _ _ => rfl

instance : LawfulEqOrd RuleId := lawfulEqOrd_of_key raw (fun _ _ => rfl) fun a b h => by
  cases a
  cases b
  cases h
  rfl

/-- A reference as it is shown to a reader. -/
def display (r : RuleId) : String := "rule#" ++ toString r.raw.toNat

end RuleId

namespace ClassPerm

/-- Pairs are ordered by class and then by permission. -/
def key (p : ClassPerm) : KeyPair String String := ⟨p.cls, p.perm⟩

instance : Ord ClassPerm := ⟨fun a b => compare a.key b.key⟩

instance : TransOrd ClassPerm := transOrd_of_key key fun _ _ => rfl

instance : LawfulEqOrd ClassPerm := lawfulEqOrd_of_key key (fun _ _ => rfl) fun a b h => by
  cases a
  cases b
  cases h
  rfl

/-- A pair as it is shown to a reader. -/
def display (p : ClassPerm) : String := p.cls ++ ":" ++ p.perm

end ClassPerm

end PolicyReach
