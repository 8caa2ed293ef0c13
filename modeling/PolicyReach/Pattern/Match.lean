import PolicyReach.Pattern.Basic

/-!
# Matching

Whether a pattern matches somewhere in a text is decided in one pass over the text. The pattern is
first unrolled into an expression whose letters carry marks (`Marked.ofPattern`); a letter is marked
while some run of the pattern has just read the character before the present place with it.
`Marked.advance` moves the marks over one character. At every place a new run may begin, and the
pattern matches as soon as a run reaches its end.

A repetition need not be unrolled further than there are places in the text: a longer run stays at
some place once, and can do without that.
-/

namespace PolicyReach

namespace Look

/-- Is `c` a word character? -/
def isWord (c : Char) : Bool := c.isAlphanum || c == '_'

/-- Does the condition hold between `before` and `after`, the ends of the text being `none`? -/
def holds (l : Look) (before after : Option Char) : Bool :=
  let wordBefore := before.any isWord
  let wordAfter := after.any isWord
  match l with
  | .start => before.isNone
  | .finish => after.isNone
  | .lineStart => before.isNone || before == some '\n'
  | .lineEnd => after.isNone || after == some '\n'
  | .crlfStart =>
    before.isNone || before == some '\n' || (before == some '\r' && after != some '\n')
  | .crlfEnd =>
    after.isNone || after == some '\r' || (after == some '\n' && before != some '\r')
  | .wordEdge => wordBefore != wordAfter
  | .notWordEdge => wordBefore == wordAfter
  | .wordStart => !wordBefore && wordAfter
  | .wordEnd => wordBefore && !wordAfter
  | .wordStartHalf => !wordBefore
  | .wordEndHalf => !wordAfter

end Look

/-- A place in a text: the characters before and after it, `none` at the ends. -/
structure Place where
  before : Option Char
  after : Option Char

/-- An expression whose letters may be marked. -/
inductive Marked where
  | empty
  | look (l : Look)
  | letter (marked : Bool) (members : CharClass)
  /-- One after the other. Until a run has `begun` the second, that has no marks and is left alone. -/
  | both (begun : Bool) (p q : Marked)
  | either (p q : Marked)
  /-- The expression once or more often. -/
  | loop (p : Marked)

namespace Marked

/-! ## Unrolling -/

/-- `p` or nothing. -/
def optional (p : Marked) : Marked := .either .empty p

/-- `p` just `n` times, and `last`. -/
def times (p last : Marked) : (n : Nat) → Marked
  | 0 => last
  | n + 1 => .both false p (times p last n)

/-- `p` at most `n` times. -/
def upTo (p : Marked) : (n : Nat) → Marked
  | 0 => .empty
  | n + 1 => optional (.both false p (upTo p n))

/-- `p` between `min` and `max` times, where a count beyond `most` counts as `most`, and one that
may be exceeded by as much as that as no bound at all. -/
def repeated (most min : Nat) (max : Option Nat) (p : Marked) : Marked :=
  match max.filter (· - min < most) with
  | some max => times p (upTo p (max - min)) (Nat.min min most)
  | none =>
    if min = 0 then optional (.loop p) else times p (.loop p) (Nat.min (min - 1) most)

mutual

/-- The expression of a pattern for texts of fewer than `most` characters. -/
def ofPattern (most : Nat) : Pattern → Marked
  | .empty => .empty
  | .char c => .letter false (CharClass.single c)
  | .cls members => .letter false members
  | .look l => .look l
  | .repetition min max p => repeated most min max (ofPattern most p)
  | .group _ _ p => ofPattern most p
  | .sequence ps => ofSequence most ps
  | .choice ps => ofChoice most ps

/-- The expression of patterns one after the other. -/
def ofSequence (most : Nat) : List Pattern → Marked
  | [] => .empty
  | p :: ps => .both false (ofPattern most p) (ofSequence most ps)

/-- The expression of one of several patterns; a letter without members never matches. -/
def ofChoice (most : Nat) : List Pattern → Marked
  | [] => .letter false []
  | p :: ps => .either (ofPattern most p) (ofChoice most ps)

end

/-! ## Running -/

/-- Can a run pass through the expression without leaving the place? -/
def passable (here : Place) : Marked → Bool
  | .empty => true
  | .look l => l.holds here.before here.after
  | .letter _ _ => false
  | .both _ p q => p.passable here && q.passable here
  | .either p q => p.passable here || q.passable here
  | .loop p => p.passable here

/-- Has a run that stands at a mark reached the end of the expression? -/
def reached (here : Place) : Marked → Bool
  | .empty => false
  | .look _ => false
  | .letter marked _ => marked
  | .both begun p q => (begun && q.reached here) || (p.reached here && q.passable here)
  | .either p q => p.reached here || q.reached here
  | .loop p => p.reached here

/-- Whether a run is at the end of the expression, one that `enters` it included, and the expression
with the letters marked that then read the character after the place. -/
def advance (here : Place) (enters : Bool) : Marked → Bool × Marked
  | .empty => (enters, .empty)
  | .look l => (enters && l.holds here.before here.after, .look l)
  | .letter marked members =>
    (marked, .letter (enters && here.after.any members.contains) members)
  | .both begun p q =>
    let (between, p) := p.advance here enters
    if begun || between then
      let (ends, q) := q.advance here between
      (ends, .both true p q)
    else (false, .both false p q)
  | .either p q =>
    let (endsFirst, p) := p.advance here enters
    let (endsSecond, q) := q.advance here enters
    (endsFirst || endsSecond, .either p q)
  | .loop p =>
    let (ends, p) := p.advance here (enters || p.reached here)
    (ends, .loop p)

/-- Does a run reach the end somewhere in the rest of a text, if runs begin at every place? -/
def findsIn (m : Marked) (before : Option Char) : List Char → Bool
  | [] => (m.advance ⟨before, none⟩ true).1
  | c :: cs =>
    let (ends, m) := m.advance ⟨before, some c⟩ true
    ends || m.findsIn (some c) cs

end Marked

/-- Does the pattern match somewhere in a text? -/
def Pattern.matchesIn (p : Pattern) (text : String) : Bool :=
  (Marked.ofPattern (text.length + 1) p).findsIn none text.toList

end PolicyReach
