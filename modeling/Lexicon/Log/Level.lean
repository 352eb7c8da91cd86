import Lexicon.Bytes

/-!
# Log levels

A level is a number: the higher, the more severe.  The levels from trace to off have names.  Off
is above the levels of records, and a threshold only.
-/

namespace Lexicon.Log

/-- How severe a record is, or the least severity that is let through. -/
structure Level where
  rank : Int
  deriving DecidableEq, Repr, Inhabited

namespace Level

instance : LE Level := ⟨fun a b => a.rank ≤ b.rank⟩

instance (a b : Level) : Decidable (a ≤ b) := inferInstanceAs (Decidable (a.rank ≤ b.rank))

instance : Min Level := ⟨fun a b => if a ≤ b then a else b⟩

/-- The steps of every single token and entry. -/
def trace : Level := ⟨0⟩

/-- Summaries of the stages. -/
def debug : Level := ⟨1⟩

/-- The progress by file. -/
def info : Level := ⟨2⟩

/-- What looks like a mistake. -/
def warn : Level := ⟨3⟩

/-- What made a file or a command fail. -/
def error : Level := ⟨4⟩

/-- What nothing comes after. -/
def fatal : Level := ⟨5⟩

/-- The threshold that lets nothing through. -/
def off : Level := ⟨6⟩

/-- The names of the levels from trace to off. -/
def names : List Bytes :=
  ["TRACE", "DEBUG", "INFO", "WARN", "ERROR", "FATAL", "OFF"].map ascii

/-- The name of a level; question marks for one without a name. -/
def name (l : Level) : Bytes :=
  if l.rank < 0 then ascii "???" else (names[l.rank.toNat]?).getD (ascii "???")

/-- The level with a name, in letters of either case. -/
def ofName? (t : Bytes) : Option Level :=
  (names.idxOf? (t.map Byte.toUpper)).map fun i => ⟨i⟩

end Level

end Lexicon.Log
