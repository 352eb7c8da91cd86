import Lexicon.Log.Level

/-!
# Log filters

A filter gives the least level that is let through, for single origins and for all others.  It is
read from a text such as `scan=trace,*=warn`: entries between commas, each an origin and a level.

## Main definitions

* `Filter` — the levels.
* `Filter.parse` — reads the levels from a text.
* `Filter.accepts` — whether an event is let through.
* `Filter.least` — the lowest level that can be let through.
-/

namespace Lexicon.Log

/-- The least level that is let through. -/
structure Filter where
  /-- For an origin that is not listed. -/
  general : Level := .info
  /-- For the listed origins, each listed once. -/
  listed : List (Bytes × Level) := []
  deriving DecidableEq, Repr, Inhabited

namespace Filter

/-- The name that stands for every origin that is not listed. -/
def anyOrigin : Bytes := [Byte.star]

/-- Sets the level of an origin. -/
def list (f : Filter) (origin : Bytes) (l : Level) : Filter :=
  { f with listed := (origin, l) :: f.listed.filter fun e => e.1 != origin }

/-- The origin and the level of an entry.  An entry without a level means trace, and one with an
unknown level means info. -/
def ofEntry (entry : Bytes) : Bytes × Level :=
  (entry.takeWhile (· != Byte.equals),
    match entry.dropWhile (· != Byte.equals) with
    | [] => .trace
    | _ :: level => (Level.ofName? level).getD .info)

/-- Adds an entry.  An empty one adds nothing. -/
def addEntry (f : Filter) (entry : Bytes) : Filter :=
  if entry.isEmpty then f
  else if (ofEntry entry).1 = anyOrigin then { f with general := (ofEntry entry).2 }
  else f.list (ofEntry entry).1 (ofEntry entry).2

/-- Lists the origins of a text in place of those listed before.  The general level stays, unless
the text gives one. -/
def parse (f : Filter) (text : Bytes) : Filter :=
  (Bytes.splitAtCommas text).foldl addEntry { f with listed := [] }

/-- The least level that is let through for an origin. -/
def threshold (f : Filter) (origin : Bytes) : Level := (f.listed.lookup origin).getD f.general

/-- Whether an event of a level is let through.  Off is a threshold, and no event has it. -/
def accepts (f : Filter) (l : Level) (origin : Bytes) : Bool :=
  l ≠ .off && f.threshold origin ≤ l

/-- The lowest level that is let through for some origin. -/
def least (f : Filter) : Level := (f.listed.map (·.2)).foldl min f.general

end Filter

end Lexicon.Log
