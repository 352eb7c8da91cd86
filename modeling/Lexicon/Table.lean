import Lexicon.Key

/-!
# The table of a category

A table numbers the values of one category in the order in which they are first added.  It keeps
the values by number, in ascending order, and an index from value to number, so that an equal
value gets its number again.  A number is not used again after its value is removed, until the
table is cleared or the 32-bit counter wraps around.

## Main definitions

* `Table c` — the table of category `c`.
* `Table.add`, `Table.remove` — the operations that change it.
* `Table.get?`, `Table.find?` — from key to value and from value to key.
-/

namespace Lexicon

/-- The numbered values of one category. -/
structure Table (category : Category) where
  /-- The number of the next new value. -/
  next : UInt32 := 0
  /-- The live values by number, in ascending order. -/
  entries : List (UInt32 × Bytes) := []
  /-- The numbers of the live values. -/
  index : List (Bytes × UInt32) := []
  deriving DecidableEq, Repr

namespace Table

variable {c : Category}

/-- The table without values. -/
def empty : Table c := {}

/-- Puts a value at its number in an ascending list.  A number that is taken keeps its value. -/
def place (n : UInt32) (v : Bytes) : List (UInt32 × Bytes) → List (UInt32 × Bytes)
  | [] => [(n, v)]
  | (m, w) :: rest =>
    if n < m then (n, v) :: (m, w) :: rest
    else if n = m then (m, w) :: rest
    else (m, w) :: place n v rest

/-- The value behind a key.  A key of another category has none. -/
def get? (t : Table c) (k : Key) : Option Bytes :=
  if k.category = c then t.entries.lookup k.sequence else none

/-- The key of a value. -/
def find? (t : Table c) (v : Bytes) : Option Key :=
  (t.index.lookup v).map fun n => ⟨c, n⟩

/-- Whether a key has a value. -/
def contains (t : Table c) (k : Key) : Bool := (t.get? k).isSome

/-- The key of a value, which is numbered if it is new. -/
def add (t : Table c) (v : Bytes) : Key × Table c :=
  match t.index.lookup v with
  | some n => (⟨c, n⟩, t)
  | none =>
    -- once the counter has wrapped around, the number may be that of a live value
    (⟨c, t.next⟩,
      { next := t.next + 1
        entries := place t.next v t.entries
        index := (v, t.next) :: t.index })

/-- Forgets the value behind a key.  A key of another category, or without a value, changes
nothing. -/
def remove (t : Table c) (k : Key) : Table c :=
  match t.get? k with
  | none => t
  | some v =>
    { t with
      entries := t.entries.filter fun e => e.1 != k.sequence
      index := t.index.filter fun e => e.1 != v }

/-- The number of live values. -/
def size (t : Table c) : Nat := t.entries.length

/-- Whether there is no live value. -/
def isEmpty (t : Table c) : Bool := t.entries.isEmpty

/-- The keys of the live values, in ascending order. -/
def keys (t : Table c) : List Key := t.entries.map fun e => ⟨c, e.1⟩

/-- The live values, in the order of their keys. -/
def values (t : Table c) : List Bytes := t.entries.map (·.2)

end Table

end Lexicon
