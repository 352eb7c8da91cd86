import Lexicon.Definition.Value
import Lexicon.Language

/-!
# Definition files

A definition has sections, headed by a name in brackets, of entries `key = value`.  The section
`language` gives a language: its name is a string, its keywords and delimiters are lists of
strings.  Other sections, and other keys of that section, are skipped.  White space is free, and a
comment runs from a number sign to the end of its line.

## Main definitions

* `Field` — the keys of the section `language`.
* `Draft` — what was read of a definition so far.
* `Language.read` — the language that a definition gives.
* `Language.unknownKeys` — the skipped keys of the section `language`, with their lines.
-/

namespace Lexicon

/-! ### Entries -/

/-- The keys of the section `language`. -/
inductive Field
  | name
  | keywords
  | punctuation
  | spaces
  | calls
  deriving DecidableEq, Repr

namespace Field

/-- The fields of a language. -/
def all : List Field := [name, keywords, punctuation, spaces, calls]

/-- The key of a field. -/
def key : Field → Bytes
  | name => ascii "name"
  | keywords => ascii "keywords"
  | punctuation => ascii "delimiters"
  | spaces => ascii "space-delimiters"
  | calls => ascii "method-call-delimiters"

/-- The field with a key. -/
def ofKey? (key : Bytes) : Option Field := all.find? fun f => f.key = key

/-- Reads the value of a field into a language. -/
def read (f : Field) (l : Language) (text : Bytes) : Except Fault (Language × Bytes) :=
  match f with
  | name => (Definition.readString text).map fun r => ({ l with name := r.1 }, r.2)
  | keywords => (Definition.readList text).map fun r => ({ l with keywords := r.1 }, r.2)
  | punctuation => (Definition.readList text).map fun r => ({ l with punctuation := r.1 }, r.2)
  | spaces => (Definition.readList text).map fun r => ({ l with spaces := r.1 }, r.2)
  | calls => (Definition.readList text).map fun r => ({ l with calls := r.1 }, r.2)

end Field

/-- What was read of a definition so far. -/
structure Draft where
  language : Language := {}
  /-- Whether there was a section `language`. -/
  found : Bool := false
  /-- Whether the current section is such a one. -/
  inside : Bool := false
  /-- The keys without a meaning, each with the text from its value on, in order. -/
  unknown : List (Bytes × Bytes) := []
  deriving DecidableEq, Repr

namespace Draft

open Definition

/-- Reads the head of a section. -/
def readHead (d : Draft) (text : Bytes) : Except Fault (Draft × Bytes) :=
  match readSection text with
  | .error f => .error f
  | .ok (name, rest) =>
    let isLanguage := name = ascii "language"
    .ok ({ d with found := d.found || isLanguage, inside := isLanguage }, rest)

/-- Reads the value of a key.  The value is skipped outside the section `language`, and for a key
without a meaning. -/
def readValue (d : Draft) (key text : Bytes) : Except Fault (Draft × Bytes) :=
  if d.inside then
    match Field.ofKey? key with
    | some f =>
      match f.read d.language text with
      | .error fault => .error fault
      | .ok (l, rest) => .ok ({ d with language := l }, rest)
    | none => .ok ({ d with unknown := d.unknown ++ [(key, text)] }, skipValue false 0 text)
  else .ok (d, skipValue false 0 text)

/-- Reads what follows a key: an equals sign, and the value. -/
def readAfterKey (d : Draft) (key text : Bytes) : Except Fault (Draft × Bytes) :=
  match skipSpace text with
  | [] => .error ⟨.noEqualsSign, []⟩
  | b :: rest =>
    if b = Byte.equals then d.readValue key (skipSpace rest)
    else .error ⟨.noEqualsSign, b :: rest⟩

/-- Reads what starts at a byte that is not blank: the head of a section, or an entry. -/
def readNext (d : Draft) (b : UInt8) (rest : Bytes) : Except Fault (Draft × Bytes) :=
  if b = Byte.openBracket then d.readHead (b :: rest)
  else if (readName (b :: rest)).1.isEmpty then .error ⟨.unexpectedByte b, b :: rest⟩
  else d.readAfterKey (readName (b :: rest)).1 (readName (b :: rest)).2

end Draft

/-! ### How much remains -/

theorem Field.read_length_lt {f : Field} {l l' : Language} {text rest : Bytes}
    (h : f.read l text = .ok (l', rest)) : rest.length < text.length := by
  have hlist : ∀ g : List Bytes → Language,
      (Definition.readList text).map (fun r => (g r.1, r.2)) = .ok (l', rest) →
        rest.length < text.length := by
    intro g hg
    match hr : Definition.readList text with
    | .error e => rw [hr] at hg; cases hg
    | .ok (items, rest') =>
      rw [hr] at hg
      cases hg
      exact Definition.readList_length_lt hr
  cases f with
  | name =>
    simp only [Field.read] at h
    match hr : Definition.readString text with
    | .error e => rw [hr] at h; cases h
    | .ok (value, rest') =>
      rw [hr] at h
      cases h
      exact Definition.readString_length_lt hr
  | keywords => exact hlist (fun items => { l with keywords := items }) h
  | punctuation => exact hlist (fun items => { l with punctuation := items }) h
  | spaces => exact hlist (fun items => { l with spaces := items }) h
  | calls => exact hlist (fun items => { l with calls := items }) h

namespace Draft

open Definition

theorem readValue_length_le {d d' : Draft} {key text rest : Bytes}
    (h : d.readValue key text = .ok (d', rest)) : rest.length ≤ text.length := by
  unfold readValue at h
  split at h
  · split at h
    · split at h
      · cases h
      · next heq =>
        cases h
        exact Nat.le_of_lt (Field.read_length_lt heq)
    · cases h
      exact skipValue_length_le _ _ _
  · cases h
    exact skipValue_length_le _ _ _

theorem readAfterKey_length_le {d d' : Draft} {key text rest : Bytes}
    (h : d.readAfterKey key text = .ok (d', rest)) : rest.length ≤ text.length := by
  unfold readAfterKey at h
  have h₁ := skipSpace_length_le text
  split at h
  · cases h
  · next b after heq =>
    rw [heq, List.length_cons] at h₁
    split at h
    · have h₂ := readValue_length_le h
      have h₃ := skipSpace_length_le after
      omega
    · cases h

theorem readHead_length_lt {d d' : Draft} {text rest : Bytes}
    (h : d.readHead text = .ok (d', rest)) : rest.length < text.length := by
  unfold readHead at h
  split at h
  · cases h
  · next heq =>
    cases h
    exact readSection_length_lt heq

/-- Every head and every entry takes some text. -/
theorem readNext_length_le {d d' : Draft} {b : UInt8} {rest rest' : Bytes}
    (h : d.readNext b rest = .ok (d', rest')) : rest'.length ≤ rest.length := by
  unfold readNext at h
  split at h
  · exact Nat.le_of_lt_succ (readHead_length_lt h)
  · split at h
    · cases h
    · next hname =>
      have h₁ := readName_length_lt fun hnil => hname (List.isEmpty_iff.2 hnil)
      have h₂ := readAfterKey_length_le h
      simp only [List.length_cons] at h₁
      omega

/-! ### The whole definition -/

/-- Reads the heads and entries of a text, up to its end or to a fault.  At the end there must
have been a section `language`. -/
def readAll (d : Draft) (text : Bytes) : Draft × Option Fault :=
  match h : skipBlank false text with
  | [] => (d, if d.found then none else some ⟨.noLanguage, []⟩)
  | b :: rest =>
    match h' : d.readNext b rest with
    | .error f => (d, some f)
    | .ok (d', rest') =>
      have : rest'.length < text.length := by
        have h₁ := readNext_length_le h'
        have h₂ := skipBlank_length_le false text
        rw [h, List.length_cons] at h₂
        omega
      d'.readAll rest'
termination_by text.length

end Draft

namespace Language

/-- The language that a definition gives. -/
def read (text : Bytes) : Except Fault Language :=
  match Draft.readAll {} text with
  | (d, none) => .ok d.language
  | (_, some f) => .error f

/-- The keys of the section `language` that have no meaning, each with the line on which its value
starts.  Where a definition cannot be read, they are the ones before the fault. -/
def unknownKeys (text : Bytes) : List (Bytes × Nat) :=
  (Draft.readAll {} text).1.unknown.map fun u => (u.1, lineOf text u.2)

end Language

end Lexicon
