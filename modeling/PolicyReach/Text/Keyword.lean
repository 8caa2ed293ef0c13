/-!
# Keywords

A keyword is recognised in any mixture of cases. Only ASCII letters need lowering: no other
character has a lower case made of letters that keywords are written with.
-/

namespace PolicyReach.Text

/-- `word` with its ASCII letters lowered. -/
def keyword (word : String) : String := String.ofList (word.toList.map Char.toLower)

/-- The first choice whose keyword `word` is, in any case. -/
def choose? {α : Type} (choices : List (String × α)) (word : String) : Option α :=
  (choices.find? fun c => c.1 == keyword word).map Prod.snd

end PolicyReach.Text
