import Lexicon.Table
import Lexicon.Token

/-!
# The registry

A registry holds one table for each category.  The tables number their values independently, so
an operation on one category leaves the others alone.

## Main definitions

* `Registry` — the six tables, with `Registry.table` and `Registry.setTable` to reach one.
* `Registry.add`, `Registry.get?`, `Registry.find?` — the operations of the tables, by category.
* `Registry.restore` — the text that a token stands for.
-/

namespace Lexicon

/-- One table for each category. -/
structure Registry where
  literal : Table .literal := {}
  primitive : Table .primitive := {}
  object : Table .object := {}
  comment : Table .comment := {}
  keyword : Table .keyword := {}
  delimiter : Table .delimiter := {}
  deriving DecidableEq, Repr

namespace Registry

/-- The registry without values, which is also what clearing one leaves. -/
def empty : Registry := {}

/-- The table of a category. -/
def table (r : Registry) : (c : Category) → Table c
  | .literal => r.literal
  | .primitive => r.primitive
  | .object => r.object
  | .comment => r.comment
  | .keyword => r.keyword
  | .delimiter => r.delimiter

/-- Replaces the table of a category. -/
def setTable (r : Registry) : (c : Category) → Table c → Registry
  | .literal, t => { r with literal := t }
  | .primitive, t => { r with primitive := t }
  | .object, t => { r with object := t }
  | .comment, t => { r with comment := t }
  | .keyword, t => { r with keyword := t }
  | .delimiter, t => { r with delimiter := t }

@[simp] theorem table_setTable_self (r : Registry) (c : Category) (t : Table c) :
    (r.setTable c t).table c = t := by
  cases c <;> rfl

theorem table_setTable_of_ne (r : Registry) {c d : Category} (t : Table c) (h : c ≠ d) :
    (r.setTable c t).table d = r.table d := by
  cases c <;> cases d <;> simp_all [table, setTable]

/-- Two registries with the same tables are the same. -/
theorem ext_table {r s : Registry} (h : ∀ c, r.table c = s.table c) : r = s := by
  cases r
  cases s
  have h₁ := h .literal
  have h₂ := h .primitive
  have h₃ := h .object
  have h₄ := h .comment
  have h₅ := h .keyword
  have h₆ := h .delimiter
  simp only [table] at h₁ h₂ h₃ h₄ h₅ h₆
  subst h₁ h₂ h₃ h₄ h₅ h₆
  rfl

/-- The key of a value, which is numbered in its category if it is new. -/
def add (r : Registry) (c : Category) (v : Bytes) : Key × Registry :=
  (((r.table c).add v).1, r.setTable c ((r.table c).add v).2)

/-- The value behind a key. -/
def get? (r : Registry) (k : Key) : Option Bytes := (r.table k.category).get? k

/-- The key of a value of a category. -/
def find? (r : Registry) (c : Category) (v : Bytes) : Option Key := (r.table c).find? v

/-- Forgets the value behind a key in the table of a category. -/
def remove (r : Registry) (c : Category) (k : Key) : Registry :=
  r.setTable c ((r.table c).remove k)

/-- Clears the table of a category. -/
def clearTable (r : Registry) (c : Category) : Registry := r.setTable c .empty

/-- The number of live values in all tables. -/
def size (r : Registry) : Nat := (Category.all.map fun c => (r.table c).size).foldr (· + ·) 0

/-- Whether no table has a live value. -/
def isEmpty (r : Registry) : Bool := Category.all.all fun c => (r.table c).isEmpty

/-- The text that a token stands for: a text itself, the value behind a key, and the written form
of a key without a value. -/
def restore (r : Registry) : Token → Bytes
  | .text t => t
  | .key k => (r.get? k).getD k.display

end Registry

end Lexicon
