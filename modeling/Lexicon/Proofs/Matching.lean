import Lexicon.Proofs.Factorization
import Mathlib.Order.Bounds.Basic

/-!
# The delimiter at a position

The lists of a language may hold empty, repeated and overlapping entries, in any order.  All that
counts for the matching of delimiters is the set of their entries that are not empty.  At a byte
that is in this set by itself, the match is the longest member of the set that stands there, however
long it is and wherever the text ends; at any other byte, and behind the text, there is none.

## Main definitions

* `Language.delimiterSet l` — the delimiters of `l`, as a set.
* `Language.matchAt l text pos` — the length of the match at a position of a text.

## Main results

* `Language.Longest.isGreatest` — the longest delimiter at a place has the greatest length of all.
* `Language.isGreatest_matchAt`, `Language.matchAt_eq_zero_iff` — where there is a match, and how
  long it is.
* `Language.matchAt_exact` — **matching is exact**, and depends on the set of delimiters alone.
-/

namespace Lexicon
namespace Language

variable {l : Language} {text : Bytes} {pos : Nat}

/-! ### The set of delimiters -/

/-- The delimiters of a language: the entries of its three lists that are not empty. -/
def delimiterSet (l : Language) : Set Bytes :=
  {d | d ≠ [] ∧ (d ∈ l.punctuation ∨ d ∈ l.spaces ∨ d ∈ l.calls)}

theorem mem_delimiterSet {d : Bytes} : d ∈ l.delimiterSet ↔ l.isDelimiter d := by
  rw [isDelimiter, delimiters, effective, List.contains_iff_mem, List.mem_filter, List.mem_append,
    List.mem_append, or_assoc, and_comm]
  show d ≠ [] ∧ _ ↔ _
  simp

/-- The longest delimiter at a place has the greatest length of all that stand there. -/
theorem Longest.isGreatest {d : Bytes} (h : l.Longest d text) :
    IsGreatest (List.length '' {e ∈ l.delimiterSet | e <+: text}) d.length := by
  constructor
  · exact ⟨d, ⟨mem_delimiterSet.mpr h.isDelimiter, h.head⟩, rfl⟩
  · rintro _ ⟨e, ⟨he, hhead⟩, rfl⟩
    exact h.longest e (mem_delimiterSet.mp he) hhead

/-! ### Matches -/

/-- The length of the delimiter at a position of a text, zero if there is none. -/
def matchAt (l : Language) (text : Bytes) (pos : Nat) : Nat := l.matchLength (text.drop pos)

/-- Whether a delimiter is looked for depends on the byte at the position alone. -/
theorem isDelimiter_take_one_drop (l : Language) (text : Bytes) (pos : Nat) :
    l.isDelimiter ((text.drop pos).take 1) ↔ ∃ b ∈ text[pos]?, [b] ∈ l.delimiterSet := by
  rw [List.take_one, List.head?_drop]
  cases text[pos]? with
  | none =>
    have hnil : ¬l.isDelimiter [] := fun h => ne_nil_of_isDelimiter h rfl
    simpa using hnil
  | some b => simp [mem_delimiterSet]

/-- There is no match exactly behind the text and at a byte that is no delimiter by itself. -/
theorem matchAt_eq_zero_iff :
    l.matchAt text pos = 0 ↔ ∀ b ∈ text[pos]?, [b] ∉ l.delimiterSet := by
  have hfirst := isDelimiter_take_one_drop l text pos
  constructor
  · intro h b hb hmem
    obtain ⟨hlongest, -⟩ := longest_matchLength (hfirst.mpr ⟨b, hb, hmem⟩)
    -- a match of no bytes would be an empty delimiter
    apply hlongest.ne_nil
    change l.matchLength (text.drop pos) = 0 at h
    rw [h, List.take_zero]
  · intro h
    apply matchLength_of_not
    rw [← Bool.not_eq_true, hfirst]
    rintro ⟨b, hb, hmem⟩
    exact h b hb hmem

/-- **At a byte that is a delimiter by itself, the match is the longest delimiter there.** -/
theorem isGreatest_matchAt {b : UInt8} (hb : b ∈ text[pos]?) (hmem : [b] ∈ l.delimiterSet) :
    IsGreatest (List.length '' {d ∈ l.delimiterSet | d <+: text.drop pos})
      (l.matchAt text pos) := by
  have hdelim := (isDelimiter_take_one_drop l text pos).mpr ⟨b, hb, hmem⟩
  obtain ⟨hlongest, hle⟩ := longest_matchLength hdelim
  have hgreatest := hlongest.isGreatest
  rwa [List.length_take, Nat.min_eq_left hle] at hgreatest

/-- Languages with the same set of delimiters match alike. -/
theorem matchAt_congr {m : Language} (h : m.delimiterSet = l.delimiterSet) (text : Bytes)
    (pos : Nat) : m.matchAt text pos = l.matchAt text pos := by
  by_cases hmatch : ∃ b ∈ text[pos]?, [b] ∈ l.delimiterSet
  · obtain ⟨b, hb, hmem⟩ := hmatch
    have hm := isGreatest_matchAt hb (h ▸ hmem)
    rw [h] at hm
    exact hm.unique (isGreatest_matchAt hb hmem)
  · have hnone : ∀ b ∈ text[pos]?, [b] ∉ l.delimiterSet :=
      fun b hb hmem => hmatch ⟨b, hb, hmem⟩
    rw [matchAt_eq_zero_iff.mpr hnone, matchAt_eq_zero_iff, h]
    exact hnone

/-- **Matching is exact for every language.**  There is no match behind the text, and none at a byte
that is no delimiter by itself; anywhere else the match is as long as the longest delimiter that the
text goes on with.  The three lists count only through the set of their entries that are not
empty. -/
theorem matchAt_exact (l : Language) (text : Bytes) (pos : Nat) :
    (l.matchAt text pos = 0 ↔ ∀ b ∈ text[pos]?, [b] ∉ l.delimiterSet) ∧
      (∀ b ∈ text[pos]?, [b] ∈ l.delimiterSet →
        IsGreatest (List.length '' {d ∈ l.delimiterSet | d <+: text.drop pos})
          (l.matchAt text pos)) ∧
      ∀ m : Language, m.delimiterSet = l.delimiterSet →
        m.matchAt text pos = l.matchAt text pos := by
  refine ⟨matchAt_eq_zero_iff, ?_, ?_⟩
  · intro b hb hmem
    exact isGreatest_matchAt hb hmem
  · intro m h
    exact matchAt_congr h text pos

/-- Entries that are empty, repeated and parts of each other, and a match that the text ends. -/
theorem matchAt_exact_overlapping :
    let l : Language :=
      { punctuation := ["", "<", "<=", "<"].map ascii
        spaces := ["<"].map ascii
        calls := ["", "<=>"].map ascii }
    let m : Language := { punctuation := ["<=>", "<=", "<"].map ascii }
    ascii "<" ∈ l.delimiterSet ∧ m.delimiterSet = l.delimiterSet ∧
      IsGreatest (List.length '' {d ∈ l.delimiterSet | d <+: ascii "<=>"}) 3 ∧
      m.matchAt (ascii "a<=>") 1 = 3 := by
  intro l m
  have hb : (60 : UInt8) ∈ (ascii "a<=>")[1]? := by decide
  have hmem : ascii "<" ∈ l.delimiterSet := mem_delimiterSet.mpr (by decide)
  have hlength : l.matchAt (ascii "a<=>") 1 = 3 := by decide
  have hset : m.delimiterSet = l.delimiterSet := by
    ext d
    have hempty : ascii "" = [] := by decide
    simp only [delimiterSet, l, m, List.map_cons, List.map_nil, hempty]
    grind
  obtain ⟨-, hgreatest, hsame⟩ := matchAt_exact l (ascii "a<=>") 1
  have hlongest := hgreatest 60 hb hmem
  rw [hlength] at hlongest hsame
  exact ⟨hmem, hset, hlongest, hsame m hset⟩

end Language
end Lexicon
