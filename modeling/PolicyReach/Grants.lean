import PolicyReach.Config
import PolicyReach.Policy
import PolicyReach.RecencyCache

/-!
# Who is granted a permission

For a type on one side of the rules, the subjects or the objects, `Policy.grants` gives the types
on the other side between which and it some allow rules in effect grant a permission, with the
references of these rules. A memo keeps what has been looked up (`GrantMemo`).
-/

namespace PolicyReach

/-- The rules that grant something, by the type on the other side. -/
abbrev Grants := OrdMap TypeName (OrdSet RuleId)

/-- Sides of a rule. -/
inductive Side where
  | subject
  | object
  deriving DecidableEq

/-- What is looked up: a permission of a class for a type on one side. -/
structure GrantKey where
  side : Side
  type : TypeName
  cls : String
  perm : String
  deriving DecidableEq

/-- The grants with a rule added for a type. -/
def Grants.add (g : Grants) (t : TypeName) (rule : RuleId) : Grants :=
  g.insertWith OrdSet.union t (.singleton rule)

/-- The grants with a rule added for each type of a list. -/
def Grants.addAll (g : Grants) (types : List TypeName) (rule : RuleId) : Grants :=
  types.foldl (fun g t => Grants.add g t rule) g

namespace Policy

/-- The types on the other side of a rule from a type. -/
def otherSide (p : Policy) (r : AccessRule) (side : Side) (t : TypeName) : List TypeName :=
  match side with
  | .subject =>
    if p.sourceCovers r.source t then
      if r.target = selfTarget then [t] else (p.expand r.target).toList
    else []
  | .object => (p.expand r.source).toList.filter fun subject => p.targetCovers r.target subject t

/-- The rules that grant what a key asks for. -/
def grants (p : Policy) (k : GrantKey) : Grants :=
  (p.activeAllowRules.filter fun r => r.cls == k.cls && r.grants k.perm).foldl
    (fun g r => Grants.addAll g (p.otherSide r k.side k.type) r.id)
    ∅

end Policy

/-- What has been looked up, if that is kept at all, and how often it was of use. -/
structure GrantMemo where
  cache : Option (RecencyCache GrantKey Grants)
  /-- Lookups answered from the cache since it was cleared. -/
  hits : Nat := 0
  /-- Lookups computed from the policy since the cache was cleared. -/
  misses : Nat := 0

/-- What a memo tells about itself. -/
structure MemoStats where
  size : Nat
  capacity : Nat
  hits : Nat
  misses : Nat
  deriving DecidableEq

namespace GrantMemo

/-- A memo of a size; it has room for one entry at least. -/
def ofConfig (c : MemoConfig) : GrantMemo :=
  { cache := if c.enabled then some { capacity := max c.entries 1 } else none }

/-- The memo with nothing kept and its counters at zero. -/
def cleared (m : GrantMemo) : GrantMemo := { cache := m.cache.map RecencyCache.cleared }

/-- The statistics of a memo that keeps anything. -/
def stats? (m : GrantMemo) : Option MemoStats :=
  m.cache.map fun c =>
    { size := c.size, capacity := c.capacity, hits := m.hits, misses := m.misses }

/-- Look up in the cache, else in the policy. -/
def lookup (m : GrantMemo) (p : Policy) (k : GrantKey) : Grants × GrantMemo :=
  match m.cache.bind fun c => c.find? k with
  | some (g, c) => (g, { m with cache := some c, hits := m.hits + 1 })
  | none =>
    let g := p.grants k
    (g, { m with cache := m.cache.map fun c => c.put k g, misses := m.misses + 1 })

end GrantMemo

end PolicyReach
