import Lexicon.Bytes

/-!
# Categories and keys

A value of a source text is replaced by a key: its category and a number within the category.  A
key is displayed as a colon, the letter of its category and the number in decimal, as in `:o3`.

## Main definitions

* `Category` — what a key stands for, in the order in which listings show it.
* `Key` — a category and a sequence number.
* `Key.display`, `Key.parse?` — the written form of a key, and back.
-/

namespace Lexicon

/-- What a key stands for. -/
inductive Category
  /-- A string or character literal, quotes included. -/
  | literal
  /-- A number such as `42`, `2.51`, `2.` or `.5`. -/
  | primitive
  /-- A name, or a chain of names such as `obj.call`. -/
  | object
  /-- A line or block comment, delimiters included. -/
  | comment
  /-- A keyword of the language. -/
  | keyword
  /-- A delimiter of the language that is not a spacing one. -/
  | delimiter
  deriving DecidableEq, Repr, Inhabited

namespace Category

/-- Every category, in listing order. -/
def all : List Category := [literal, primitive, object, comment, keyword, delimiter]

theorem mem_all (c : Category) : c ∈ all := by
  cases c <;> decide

/-- The name of a category. -/
def name : Category → Bytes
  | literal => ascii "Literal"
  | primitive => ascii "Primitive"
  | object => ascii "Object"
  | comment => ascii "Comment"
  | keyword => ascii "Keyword"
  | delimiter => ascii "Delimiter"

/-- The letter of a category in a displayed key. -/
def letter : Category → UInt8
  | literal => 108
  | primitive => 112
  | object => 111
  | comment => 99
  | keyword => 107
  | delimiter => 100

/-- The category with the letter `b`. -/
def ofLetter? (b : UInt8) : Option Category := all.find? fun c => c.letter = b

@[simp] theorem ofLetter?_letter (c : Category) : ofLetter? c.letter = some c := by
  cases c <;> decide

theorem letter_of_ofLetter? {b : UInt8} {c : Category} (h : ofLetter? b = some c) :
    c.letter = b := by
  simpa using List.find?_some h

end Category

/-- A category and a number within it. -/
structure Key where
  category : Category
  sequence : UInt32
  deriving DecidableEq, Repr, Inhabited

namespace Key

/-- The written form of a key: a colon, the letter of the category, the number. -/
def display (k : Key) : Bytes :=
  Byte.colon :: k.category.letter :: Bytes.decimal k.sequence.toNat

/-- The key that a text displays.  The number may have leading zeros, and is at most
`4294967295`. -/
def parse? : Bytes → Option Key
  | colon :: letter :: digits =>
    if colon = Byte.colon then do
      let category ← Category.ofLetter? letter
      let n ← Bytes.number? digits
      if n < UInt32.size then some ⟨category, n.toUInt32⟩ else none
    else none
  | _ => none

end Key

end Lexicon
