import Lexicon.Bytes

/-!
# Faults in a definition

A reader of a definition works on the text that remains.  Where it fails, that text tells the
place, and so the line: lines are counted over the bytes that were taken.

## Main definitions

* `Problem` — what is wrong.
* `nextLine` — the line counter, which goes on byte by byte, and `lineOf`, its value at a place.
* `Fault` — a problem and its place, and `Fault.message`, its text.
-/

namespace Lexicon

/-- What is wrong with a definition. -/
inductive Problem
  | sectionNotClosed
  | unexpectedByte (b : UInt8)
  | noEqualsSign
  | noString
  | stringNotClosed
  | noList
  | noStringInList
  | noCommaInList
  | listNotClosed
  /-- There is no section `language`. -/
  | noLanguage
  deriving DecidableEq, Repr

/-- The text of a problem. -/
def Problem.message : Problem → Bytes
  | sectionNotClosed => ascii "Expected ']' after section name"
  | unexpectedByte b => ascii "Unexpected character '" ++ [b, Byte.singleQuote]
  | noEqualsSign => ascii "Expected '=' after key"
  | noString => ascii "Expected string"
  | stringNotClosed => ascii "Unterminated string"
  | noList => ascii "Expected array"
  | noStringInList => ascii "Expected string in array"
  | noCommaInList => ascii "Expected ',' or ']' in array"
  | listNotClosed => ascii "Expected closing bracket"
  | noLanguage => ascii "Missing [language] section"

/-- A problem, and the text that remains where it was found. -/
structure Fault where
  problem : Problem
  rest : Bytes
  deriving DecidableEq, Repr

/-- The line behind the byte `b`, which was taken on the line `line`. -/
def nextLine (line : Nat) (b : UInt8) : Nat := if b = Byte.newline then line + 1 else line

/-- The line on which a reader of `text` is when `rest` remains.  It starts on the first line, and
every byte that it takes leads it on. -/
def lineOf (text rest : Bytes) : Nat :=
  (text.take (text.length - rest.length)).foldl nextLine 1

theorem lineOf_append (taken rest : Bytes) :
    lineOf (taken ++ rest) rest = taken.foldl nextLine 1 := by
  rw [lineOf, List.length_append, Nat.add_sub_cancel, List.take_left]

/-- Every newline that was taken counts, and nothing else does. -/
theorem foldl_nextLine (taken : Bytes) (line : Nat) :
    taken.foldl nextLine line = line + taken.count Byte.newline := by
  induction taken generalizing line with
  | nil => rfl
  | cons b taken ih =>
    rw [List.foldl_cons, ih, nextLine, List.count_cons]
    by_cases hb : b = Byte.newline
    · rw [if_pos hb, if_pos (beq_iff_eq.2 hb), Nat.add_right_comm, Nat.add_assoc]
    · rw [if_neg hb, if_neg (by simpa using hb), Nat.add_zero]

/-- The text of a fault found in `text`: its line and its problem. -/
def Fault.message (f : Fault) (text : Bytes) : Bytes :=
  ascii "Line " ++ Bytes.decimal (lineOf text f.rest) ++ ascii ": " ++ f.problem.message

end Lexicon
