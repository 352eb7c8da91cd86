import Lexicon.Bytes

/-!
# Sources

A source is a text with a name.  Its lines are counted as they are numbered: a newline at the end
starts no further line.
-/

namespace Lexicon

/-- A text with a name. -/
structure Source where
  content : Bytes
  /-- The path of the file, or what stands for it. -/
  name : Bytes := ascii "<input>"
  deriving DecidableEq, Repr

namespace Source

/-- The number of bytes. -/
def length (s : Source) : Nat := s.content.length

/-- The number of lines. -/
def lineCount (s : Source) : Nat :=
  let newlines := s.content.count Byte.newline
  match s.content.getLast? with
  | none => 0
  | some b => if b = Byte.newline then newlines else newlines + 1

end Source

end Lexicon
