import PolicyReach.Pattern.CharClass

/-!
# Patterns

A pattern is what a regular expression means, with its flags worked in. Two measures bound what is
accepted: how deep a pattern nests (`Pattern.height`), and how much room the machine that would run
it takes with its repetitions unrolled (`Pattern.room`).
-/

namespace PolicyReach

/-- Conditions on a place in a text. -/
inductive Look where
  | start
  | finish
  | lineStart
  | lineEnd
  /-- As `lineStart`, where a line may also end in a carriage return, with or without a line feed. -/
  | crlfStart
  | crlfEnd
  | wordEdge
  | notWordEdge
  | wordStart
  | wordEnd
  /-- No word character before. -/
  | wordStartHalf
  /-- No word character after. -/
  | wordEndHalf
  deriving DecidableEq

/-- A regular expression. -/
inductive Pattern where
  | empty
  | char (c : Char)
  | cls (c : CharClass)
  | look (l : Look)
  | repetition (min : Nat) (max : Option Nat) (p : Pattern)
  /-- A group of the match with its number, counted from 1 in the order of the text. -/
  | group (number : Nat) (name : Option String) (p : Pattern)
  | sequence (ps : List Pattern)
  | choice (ps : List Pattern)

namespace Pattern

/-- Patterns one after the other; one alone stands for itself. -/
def ofSequence : List Pattern → Pattern
  | [] => .empty
  | [p] => p
  | ps => .sequence ps

/-- One of several patterns; one alone stands for itself. -/
def ofChoice : List Pattern → Pattern
  | [p] => p
  | ps => .choice ps

/-- A pattern repeated. No time at all is the empty pattern, just once the pattern itself. -/
def repeated (min : Nat) (max : Option Nat) (p : Pattern) : Pattern :=
  if min = 0 ∧ max = some 0 then .empty else if min = 1 ∧ max = some 1 then p
  else .repetition min max p

mutual

/-- The levels of repetitions, groups, sequences and choices. -/
def height : Pattern → Nat
  | .repetition _ _ p => p.height + 1
  | .group _ _ p => p.height + 1
  | .sequence ps => heights ps + 1
  | .choice ps => heights ps + 1
  | _ => 0

/-- The greatest height in a list. -/
def heights : List Pattern → Nat
  | [] => 0
  | p :: ps => max p.height (heights ps)

end

mutual

/-- Can the pattern match the empty text? Conditions are taken to hold. -/
def matchesEmpty : Pattern → Bool
  | .empty => true
  | .char _ => false
  | .cls _ => false
  | .look _ => true
  | .repetition min _ p => min == 0 || p.matchesEmpty
  | .group _ _ p => p.matchesEmpty
  | .sequence ps => allMatchEmpty ps
  | .choice ps => anyMatchesEmpty ps

def allMatchEmpty : List Pattern → Bool
  | [] => true
  | p :: ps => p.matchesEmpty && allMatchEmpty ps

def anyMatchesEmpty : List Pattern → Bool
  | [] => false
  | p :: ps => p.matchesEmpty || anyMatchesEmpty ps

end

/-- The bytes of a state of the machine. -/
def stateRoom : Nat := 32

/-- The bytes of a way out of a branching state. -/
def branchRoom : Nat := 4

/-- The bytes of a range of characters. -/
def rangeRoom : Nat := 8

/-- The bytes of a group in the table of groups. -/
def groupRoom : Nat := 16

/-- The bytes of a name in the table of names, beside those of its text. -/
def nameRoom : Nat := 4

/-- The room of a repetition of a pattern that takes `room` itself. -/
def repetitionRoom (min : Nat) (max : Option Nat) (matchesEmpty : Bool) (room : Nat) : Nat :=
  match min, max with
  | 0, some 1 => room + 2 * stateRoom + 2 * branchRoom
  | 0, none =>
    if matchesEmpty then room + 3 * stateRoom + 4 * branchRoom
    else room + stateRoom + 2 * branchRoom
  | n, none => n * room + stateRoom + 2 * branchRoom
  | n, some m =>
    let required := if n = 0 then stateRoom else n * room
    if n = m then required
    else required + stateRoom + (m - n) * (room + stateRoom + 2 * branchRoom)

mutual

/-- The bytes of the machine that runs a pattern. -/
def room : Pattern → Nat
  | .empty => stateRoom
  | .char _ => stateRoom
  | .cls c => stateRoom + c.length * rangeRoom
  | .look _ => stateRoom
  | .repetition min max p => repetitionRoom min max p.matchesEmpty p.room
  | .group _ _ p => p.room + 2 * stateRoom
  | .sequence ps => rooms ps
  | .choice ps => rooms ps + 2 * stateRoom + ps.length * branchRoom

/-- The bytes of a list of patterns. -/
def rooms : List Pattern → Nat
  | [] => 0
  | p :: ps => p.room + rooms ps

end

/-- The most levels that a pattern may nest. -/
def maxHeight : Nat := 50

/-- The most bytes that the machine of a pattern may take. -/
def maxRoom : Nat := 10 * 1024 * 1024

mutual

/-- The greatest number of a group; 0 is that of the whole match. -/
def lastGroup : Pattern → Nat
  | .repetition _ _ p => p.lastGroup
  | .group number _ p => max number p.lastGroup
  | .sequence ps => lastGroupOf ps
  | .choice ps => lastGroupOf ps
  | _ => 0

/-- The greatest number of a group in a list. -/
def lastGroupOf : List Pattern → Nat
  | [] => 0
  | p :: ps => max p.lastGroup (lastGroupOf ps)

end

mutual

/-- The bytes of the names of groups; a name is kept once, however often its group is repeated. -/
def namesRoom : Pattern → Nat
  | .repetition _ _ p => p.namesRoom
  | .group _ name p => name.elim 0 (fun n => n.utf8ByteSize + nameRoom) + p.namesRoom
  | .sequence ps => namesRoomOf ps
  | .choice ps => namesRoomOf ps
  | _ => 0

/-- The bytes of the names of groups in a list. -/
def namesRoomOf : List Pattern → Nat
  | [] => 0
  | p :: ps => p.namesRoom + namesRoomOf ps

end

/-- The room of a whole pattern: its own, the group of the whole match and the final state, and the
tables of groups and of their names. A group that a repetition drops leaves its place in the table
when a later one remains. -/
def wholeRoom (p : Pattern) : Nat :=
  p.room + 3 * stateRoom + (p.lastGroup + 1) * groupRoom + p.namesRoom

end Pattern

end PolicyReach
