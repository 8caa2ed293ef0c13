import PolicyReach.Ordered.Map
import PolicyReach.Json.Printer
import PolicyReach.Json.Record
import PolicyReach.Text.Keyword

/-!
# Permission maps

A permission map tells for a permission of an object class in which direction information flows
when it is used, seen from the subject, and how heavy that flow is: the lighter, the easier.
Weights put into a map are clamped into `minWeight ≤ w ≤ maxWeight`.
-/

namespace PolicyReach

/-- Where information flows when a permission is used. -/
inductive Current where
  /-- From the object to the subject. -/
  | read
  /-- From the subject to the object. -/
  | write
  /-- Both ways. -/
  | both
  /-- Nowhere. -/
  | none
  deriving DecidableEq

namespace Current

/-- The letter of a direction in map texts. -/
def letter : Current → String
  | .read => "r"
  | .write => "w"
  | .both => "b"
  | .none => "n"

/-- The name of a direction in records. -/
def name : Current → String
  | .read => "Read"
  | .write => "Write"
  | .both => "Both"
  | .none => "None"

/-- Every direction. -/
def all : List Current := [.read, .write, .both, .none]

/-- The direction of a letter of either case. -/
def ofLetter? (s : String) : Option Current := Text.choose? (all.map fun d => (d.letter, d)) s

/-- Does information flow from the object to the subject? -/
def flowsIn : Current → Bool
  | .read | .both => true
  | _ => false

/-- Does information flow from the subject to the object? -/
def flowsOut : Current → Bool
  | .write | .both => true
  | _ => false

def toJson (d : Current) : Json := .str d.name

def ofJson? : Json → Option Current := Json.choiceOf (all.map fun d => (d.name, d))

end Current

/-- The lowest weight. -/
def minWeight : UInt32 := 1

/-- The highest weight. -/
def maxWeight : UInt32 := 10

/-- The nearest weight in range. -/
def clampWeight (w : UInt32) : UInt32 :=
  if w < minWeight then minWeight else if maxWeight < w then maxWeight else w

/-- What a map says of a permission. -/
structure Mapping where
  current : Current
  weight : UInt32
  deriving DecidableEq

namespace Mapping

def toJson (m : Mapping) : Json :=
  .obj [("direction", m.current.toJson), ("weight", .nat m.weight.toNat)]

def ofJson? (v : Json) : Option Mapping := do
  let r ← v.record? [("direction", .required), ("weight", .required)]
  some
    { current := ← r.required "direction" Current.ofJson?
      weight := ← r.required "weight" Json.uint32 }

end Mapping

/-- The mappings of permissions, by class. -/
structure PermissionMap where
  classes : OrdMap String (OrdMap String Mapping) := ∅
  deriving DecidableEq

namespace PermissionMap

/-- The map that says nothing. -/
def empty : PermissionMap := {}

instance : Inhabited PermissionMap := ⟨empty⟩

/-- Say of a permission what its direction and clamped weight are. -/
def insert (m : PermissionMap) (cls perm : String) (current : Current) (weight : UInt32) :
    PermissionMap :=
  let perms := (m.classes.get? cls).getD ∅
  { classes := m.classes.insert cls (perms.insert perm { current, weight := clampWeight weight }) }

/-- What the map says of a permission. -/
def get? (m : PermissionMap) (cls perm : String) : Option Mapping :=
  (m.classes.get? cls).bind fun perms => perms.get? perm

/-- What the map says of a permission, if it says that information flows. -/
def flow? (m : PermissionMap) (cls perm : String) : Option Mapping :=
  (m.get? cls perm).filter fun x => x.current != .none

/-- The permissions of a class with their mappings, ascending. -/
def permsOf (m : PermissionMap) (cls : String) : List (String × Mapping) :=
  match m.classes.get? cls with
  | some perms => perms.entries
  | none => []

/-- The number of permissions mapped. -/
def size (m : PermissionMap) : Nat := (m.classes.values.flatMap OrdMap.values).length

/-- Is nothing mapped? -/
def isEmpty (m : PermissionMap) : Bool := m.size == 0

/-- The mappings as an object of classes. -/
def content (m : PermissionMap) : Json :=
  .obj (m.classes.entries.map fun c =>
    (c.1, .obj (c.2.entries.map fun p => (p.1, p.2.toJson))))

/-- The fingerprint of the map's content. -/
def fingerprint (m : PermissionMap) : String := m.content.fingerprint

def toJson (m : PermissionMap) : Json := .obj [("classes", m.content)]

def ofJson? (v : Json) : Option PermissionMap := do
  let r ← v.record? [("classes", .required)]
  let classes ← r.required "classes"
    (Json.entriesOf fun c => (Json.entriesOf Mapping.ofJson? c).map OrdMap.ofList)
  some { classes := OrdMap.ofList classes }

end PermissionMap

end PolicyReach
