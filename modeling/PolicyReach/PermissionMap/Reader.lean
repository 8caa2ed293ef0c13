import PolicyReach.PermissionMap
import PolicyReach.TextFile
import PolicyReach.Text.Blank
import PolicyReach.Text.Decimal

/-!
# Reading permission maps

A map text gives the number of classes in its first content line, and then for each class a header
`class NAME COUNT` followed by `COUNT` lines `PERMISSION LETTER WEIGHT`. A content line is what
stands before the first `#` of a line, without the blanks at its ends, unless that is nothing.

The lines are taken in one by one (`MapReading.step`); the count of a class is compared with what it lists
when the next class begins or the text ends, the count of classes at the end.
-/

namespace PolicyReach

/-- Why a text gives no permission map. -/
inductive PermissionMapError where
  | unreadable (fault : TextFile.Fault)
  | badClassCount (line : Nat) (found : String)
  | badClassHeader (line : Nat) (found : String)
  | badPermission (line : Nat) (found : String)
  | permissionCount (cls : String) (declared found : Nat)
  | classCount (declared found : Nat)
  deriving DecidableEq

/-- The words for an error. -/
def PermissionMapError.message : PermissionMapError → String
  | .unreadable fault => "Cannot read permission map: " ++ fault.message
  | .badClassCount line found =>
    "line " ++ toString line ++ ": expected class count, found '" ++ found ++ "'"
  | .badClassHeader line found =>
    "line " ++ toString line ++ ": malformed class header '" ++ found ++ "'"
  | .badPermission line found =>
    "line " ++ toString line ++ ": malformed permission entry '" ++ found ++ "'"
  | .permissionCount cls declared found =>
    "class '" ++ cls ++ "' declares " ++ toString declared ++ " permissions but lists "
      ++ toString found
  | .classCount declared found =>
    "map declares " ++ toString declared ++ " classes but lists " ++ toString found

/-- A line with its number, from one, and its content. -/
structure ContentLine where
  number : Nat
  content : List Char

namespace ContentLine

/-- The content lines of a text. -/
def ofText (text : String) : List ContentLine :=
  ((Text.lines text.toList).zipIdx 1).filterMap fun l =>
    let content := Text.trim (l.1.takeWhile (· != '#'))
    if content.isEmpty then none else some ⟨l.2, content⟩

/-- The words of a line. -/
def words (l : ContentLine) : List (List Char) := Text.words l.content

/-- The content as it is shown. -/
def shown (l : ContentLine) : String := String.ofList l.content

end ContentLine

/-- A class whose permissions are being listed. -/
structure OpenClass where
  name : String
  declared : Nat
  found : Nat

/-- How far the lines after the first have been taken in. -/
structure MapReading where
  map : PermissionMap := .empty
  classes : Nat := 0
  current : Option OpenClass := none

/-- The weight of an entry: clamped before it is made a word, so that every number has one. -/
def weightOf (n : Int) : UInt32 :=
  UInt32.ofNat (min (max n minWeight.toNat) maxWeight.toNat).toNat

namespace MapReading

/-- The class being listed must have listed what it declares. -/
def close (s : MapReading) : Except PermissionMapError Unit :=
  match s.current with
  | none => .ok ()
  | some c =>
    if c.declared = c.found then .ok () else .error (.permissionCount c.name c.declared c.found)

/-- Take in the header of a class. -/
def header (s : MapReading) (l : ContentLine) : Except PermissionMapError MapReading := do
  s.close
  let bad := PermissionMapError.badClassHeader l.number l.shown
  match l.words with
  | [_, name, count] =>
    match Text.count? count with
    | some declared =>
      .ok
        { map := s.map
          classes := s.classes + 1
          current := some ⟨String.ofList name, declared, 0⟩ }
    | none => .error bad
  | _ => .error bad

/-- Take in the entry of a permission. -/
def entry (s : MapReading) (l : ContentLine) : Except PermissionMapError MapReading :=
  let bad := PermissionMapError.badPermission l.number l.shown
  match s.current, l.words with
  | some c, [perm, letter, weight] =>
    match Current.ofLetter? (String.ofList letter), Text.intWithin? (UInt64.size / 2) weight with
    | some current, some n =>
      .ok
        { map := s.map.insert c.name (String.ofList perm) current (weightOf n)
          classes := s.classes
          current := some { c with found := c.found + 1 } }
    | _, _ => .error bad
  | _, _ => .error bad

/-- Take in a line after the first. -/
def step (s : MapReading) (l : ContentLine) : Except PermissionMapError MapReading :=
  if l.words.head? = some "class".toList then s.header l else s.entry l

end MapReading

namespace PermissionMap

/-- The number of classes that the first content line declares. -/
def declaredClasses (l : ContentLine) : Except PermissionMapError Nat :=
  let bad := PermissionMapError.badClassCount l.number l.shown
  match l.words with
  | [count] =>
    match Text.count? count with
    | some n => .ok n
    | none => .error bad
  | _ => .error bad

/-- The map that content lines write. -/
def ofLines : List ContentLine → Except PermissionMapError PermissionMap
  | [] => .ok .empty
  | first :: rest => do
    let declared ← declaredClasses first
    let s ← rest.foldlM MapReading.step {}
    s.close
    if declared = s.classes then .ok s.map else .error (.classCount declared s.classes)

/-- The map that a text writes. -/
def ofText (text : String) : Except PermissionMapError PermissionMap :=
  ofLines (ContentLine.ofText text)

/-- The map that the text of a file writes. -/
def ofFile (file : TextFile) : Except PermissionMapError PermissionMap :=
  match file.read with
  | .ok text => ofText text
  | .error fault => .error (.unreadable fault)

end PermissionMap

end PolicyReach
