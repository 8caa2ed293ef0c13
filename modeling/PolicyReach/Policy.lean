import PolicyReach.Rule
import PolicyReach.Ordered.Map
import PolicyReach.Ordered.Bisection

/-!
# Policies

A policy holds concrete types, their aliases, attributes with their member types, booleans with
their current values, and two tables of rules that share one counter of references.

A name means a type if one is declared under it, else the type it is an alias of
(`Policy.resolve`); a rule's source or target means the type its name resolves to, else the members
of the attribute of that name (`Policy.expand`).
-/

namespace PolicyReach

/-- A policy with the current values of its booleans. -/
structure Policy where
  types : OrdSet String := ∅
  /-- The primary name behind each alias. -/
  aliases : OrdMap String String := ∅
  /-- The members of each attribute, which are types. -/
  attributes : OrdMap String (OrdSet TypeName) := ∅
  booleans : OrdMap String Bool := ∅
  accessRules : Array AccessRule := #[]
  labelRules : Array LabelRule := #[]
  /-- The reference the next rule gets. -/
  nextRule : UInt32 := 0
  deriving DecidableEq

namespace Policy

/-! ## Building -/

/-- The policy that declares nothing. -/
def empty : Policy := {}

instance : Inhabited Policy := ⟨empty⟩

/-- Declare a type. -/
def addType (p : Policy) (name : String) : Policy := { p with types := p.types.insert name }

/-- Declare an alias and the type it stands for. -/
def addAlias (p : Policy) (primary other : String) : Policy :=
  { p.addType primary with aliases := p.aliases.insert other primary }

/-- Declare an attribute with members, which are declared as types. -/
def addAttribute (p : Policy) (name : String) (members : List String) : Policy :=
  { p with
    types := p.types.insertAll members
    attributes := p.attributes.insertWith OrdSet.union name (.ofList (members.map TypeName.mk)) }

/-- Declare a boolean, or give it another value. -/
def addBoolean (p : Policy) (name : String) (value : Bool) : Policy :=
  { p with booleans := p.booleans.insert name value }

/-- Add an access rule; it gets the next reference. -/
def addAccessRule (p : Policy) (kind : AccessKind) (source target cls : String)
    (perms : List String) (guard : Option Guard) : RuleId × Policy :=
  let id : RuleId := ⟨p.nextRule⟩
  let rule : AccessRule := { id, kind, source, target, cls, perms := OrdSet.ofList perms, guard }
  (id, { p with accessRules := p.accessRules.push rule, nextRule := p.nextRule + 1 })

/-- Add a labelling rule; it gets the next reference. -/
def addLabelRule (p : Policy) (kind : LabelKind) (source target cls default : String)
    (guard : Option Guard) : RuleId × Policy :=
  let id : RuleId := ⟨p.nextRule⟩
  let rule : LabelRule := { id, kind, source, target, cls, default, guard }
  (id, { p with labelRules := p.labelRules.push rule, nextRule := p.nextRule + 1 })

/-! ## Names -/

/-- The concrete type that a name or an alias stands for. -/
def resolve (p : Policy) (name : String) : Option TypeName :=
  if p.types.contains name then some ⟨name⟩ else (p.aliases.get? name).map TypeName.mk

/-- Is `name` an attribute? -/
def isAttribute (p : Policy) (name : String) : Bool := p.attributes.contains name

/-- The aliases of a type, ascending. -/
def aliasesOf (p : Policy) (t : TypeName) : List String :=
  (p.aliases.entries.filter fun e => e.2 == t.text).map Prod.fst

/-- Every concrete type, ascending. -/
def typeNames (p : Policy) : List TypeName := p.types.toList.map TypeName.mk

/-- The concrete types that a type, an alias or an attribute covers. -/
def expand (p : Policy) (symbol : String) : OrdSet TypeName :=
  match p.resolve symbol with
  | some t => .singleton t
  | none => (p.attributes.get? symbol).getD ∅

/-! ## Booleans -/

/-- The current value of a boolean. -/
def boolean? (p : Policy) (name : String) : Option Bool := p.booleans.get? name

/-- Set a declared boolean; the flag tells whether it is declared. -/
def setBoolean (p : Policy) (name : String) (value : Bool) : Bool × Policy :=
  if p.booleans.contains name then (true, p.addBoolean name value) else (false, p)

/-- Is a rule under this guard in effect? -/
def isActive (p : Policy) : Option Guard → Bool
  | none => true
  | some g => p.boolean? g.boolean == some g.branch

/-! ## Rules -/

/-- The number of types. -/
def numTypes (p : Policy) : Nat := p.types.size

/-- The number of rules of all kinds. -/
def numRules (p : Policy) : Nat := p.accessRules.size + p.labelRules.size

/-- The allow rules in effect, in policy order. -/
def activeAllowRules (p : Policy) : List AccessRule :=
  p.accessRules.toList.filter fun r => r.kind == .allow && p.isActive r.guard

/-- The labelling rules of a kind in effect, in policy order. -/
def activeLabelRules (p : Policy) (kind : LabelKind) : List LabelRule :=
  p.labelRules.toList.filter fun r => r.kind == kind && p.isActive r.guard

/-- The access rule of a reference. -/
def accessRule? (p : Policy) (id : RuleId) : Option AccessRule :=
  bisect? AccessRule.id id p.accessRules

/-- The labelling rule of a reference. -/
def labelRule? (p : Policy) (id : RuleId) : Option LabelRule :=
  bisect? LabelRule.id id p.labelRules

/-- The rule of a reference in the policy language. -/
def render? (p : Policy) (id : RuleId) : Option String :=
  match p.accessRule? id with
  | some r => some r.render
  | none => (p.labelRule? id).map LabelRule.render

/-! ## What a rule covers -/

/-- The pairs of a source and a target type that a rule covers, in order. -/
def rulePairs (p : Policy) (source target : String) : List (TypeName × TypeName) :=
  let sources := (p.expand source).toList
  if target = selfTarget then sources.map fun s => (s, s)
  else
    let targets := (p.expand target).toList
    sources.flatMap fun s => targets.map fun t => (s, t)

/-- Does a rule's source cover `t`? -/
def sourceCovers (p : Policy) (source : String) (t : TypeName) : Bool :=
  (p.expand source).contains t

/-- Does a rule's target cover `t` where `subject` is the source? -/
def targetCovers (p : Policy) (target : String) (subject t : TypeName) : Bool :=
  if target = selfTarget then subject == t else (p.expand target).contains t

end Policy

end PolicyReach
