/-!
# Text files

What is found where a text file is looked for, and the text it holds: a file holds text when its
bytes are well-formed UTF-8.
-/

namespace PolicyReach

/-- What is found where a text file is looked for. -/
inductive TextFile where
  | absent
  | bytes (content : ByteArray)

namespace TextFile

/-- Why no text can be read. -/
inductive Fault where
  | absent
  | notUtf8
  deriving DecidableEq

/-- The words for a fault. -/
def Fault.message : Fault → String
  | .absent => "No such file or directory (os error 2)"
  | .notUtf8 => "stream did not contain valid UTF-8"

/-- The text of a file. -/
def read : TextFile → Except Fault String
  | .absent => .error .absent
  | .bytes content =>
    match String.fromUTF8? content with
    | some text => .ok text
    | none => .error .notUtf8

end TextFile

end PolicyReach
