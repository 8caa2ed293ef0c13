import PolicyReach.AnalysisError
import PolicyReach.Pattern.Match
import PolicyReach.Pattern.Reader

/-!
# Filters on the names of results

A filter is a regular expression that a type passes when its name or one of its aliases matches
somewhere. The empty expression is no filter.
-/

namespace PolicyReach

/-- A regular expression that names of types are tried with. -/
structure NameFilter where
  text : String
  pattern : Pattern

namespace NameFilter

/-- The filter of a text; none for the empty text. -/
def ofText (text : String) : Except AnalysisError (Option NameFilter) :=
  if text.isEmpty then .ok none
  else
    match Pattern.parse? text with
    | some pattern => .ok (some { text, pattern })
    | none => .error (.query (.invalidPattern text))

/-- Does a type pass, under its name or an alias? -/
def accepts (f : NameFilter) (p : Policy) (t : TypeName) : Bool :=
  f.pattern.matchesIn t.text || (p.aliasesOf t).any f.pattern.matchesIn

/-- Does a type pass where there may be no filter? -/
def passes (f : Option NameFilter) (p : Policy) (t : TypeName) : Bool :=
  f.all fun f => f.accepts p t

end NameFilter

end PolicyReach
