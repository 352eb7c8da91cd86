import Lexicon.Bytes

/-!
# Languages

A language is given by lists of keywords and delimiters.  There are three lists of delimiters:
those that only separate tokens, those that join the names of a chain, and the others.  All three
count as delimiters.  Empty entries and repeated entries of a list have no effect.

## Main definitions

* `Language` — the lists.
* `Language.isKeyword`, `isDelimiter`, `isSpace`, `isCall` — membership.
* `Language.lookahead` — how far past its first byte a delimiter can reach.
-/

namespace Lexicon

/-- The keywords and delimiters of a language. -/
structure Language where
  name : Bytes := []
  keywords : List Bytes := []
  /-- The delimiters that are neither of the two kinds below. -/
  punctuation : List Bytes := []
  /-- The delimiters that separate tokens and are not tokens themselves. -/
  spaces : List Bytes := []
  /-- The delimiters that join the names of a chain. -/
  calls : List Bytes := []
  deriving DecidableEq, Repr, Inhabited

namespace Language

/-- The entries of a list that have an effect. -/
def effective (entries : List Bytes) : List Bytes := entries.filter fun e => !e.isEmpty

/-- All delimiters. -/
def delimiters (l : Language) : List Bytes := effective (l.punctuation ++ l.spaces ++ l.calls)

/-- Whether a text is a keyword. -/
def isKeyword (l : Language) (t : Bytes) : Bool := (effective l.keywords).contains t

/-- Whether a text is a delimiter. -/
def isDelimiter (l : Language) (t : Bytes) : Bool := l.delimiters.contains t

/-- Whether a text is a delimiter that only separates tokens. -/
def isSpace (l : Language) (t : Bytes) : Bool := (effective l.spaces).contains t

/-- Whether a text is a delimiter that joins the names of a chain. -/
def isCall (l : Language) (t : Bytes) : Bool := (effective l.calls).contains t

section

variable {l : Language} {t : Bytes}

theorem ne_nil_of_mem_effective {entries : List Bytes} (h : t ∈ effective entries) : t ≠ [] := by
  simpa using (List.mem_filter.mp h).2

theorem ne_nil_of_isKeyword (h : l.isKeyword t) : t ≠ [] :=
  ne_nil_of_mem_effective (List.contains_iff_mem.mp h)

theorem ne_nil_of_isDelimiter (h : l.isDelimiter t) : t ≠ [] :=
  ne_nil_of_mem_effective (List.contains_iff_mem.mp h)

theorem ne_nil_of_isCall (h : l.isCall t) : t ≠ [] :=
  ne_nil_of_mem_effective (List.contains_iff_mem.mp h)

/-- Spacing delimiters count as delimiters. -/
theorem isDelimiter_of_isSpace (h : l.isSpace t) : l.isDelimiter t := by
  obtain ⟨hmem, hne⟩ := List.mem_filter.mp (List.contains_iff_mem.mp h)
  refine List.contains_iff_mem.mpr (List.mem_filter.mpr ⟨?_, hne⟩)
  exact List.mem_append_left _ (List.mem_append_right _ hmem)

end

/-- The number of different keywords. -/
def keywordCount (l : Language) : Nat := (effective l.keywords).eraseDups.length

/-- The number of different delimiters. -/
def delimiterCount (l : Language) : Nat := l.delimiters.eraseDups.length

/-- The number of bytes after its first that the longest delimiter has. -/
def lookahead (l : Language) : Nat := (l.delimiters.map (·.length)).foldl max 0 - 1

/-- The number of entries without effect. -/
def emptyEntries (l : Language) : Nat :=
  (l.keywords ++ l.punctuation ++ l.spaces ++ l.calls).count []

end Language

end Lexicon
