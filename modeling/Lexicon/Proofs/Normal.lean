import Lexicon.Proofs.SinglePass

/-!
# Tokens that the passes leave

A pass takes tokens by the group, and goes on behind the group that it has taken.  Still none of the
texts that it looks for is stepped over: a text that is in no group has been looked at by itself, and
the passes after it make no new texts.  What all passes leave is therefore normal, and normal tokens
are left as they are.

## Main definitions

* `Pass.owns p l t` — whether the pass `p` names the text `t` wherever it stands.
* `Language.IsNormal l ts` — no pass names a text of `ts` wherever it stands.

## Main results

* `Pass.owns_of_kept` — no pass leaves a text that it owns.
* `Registry.text_mem_groupAll` — what some passes leave none of them owns.
* `Registry.keys_sublist_groupAll` — passes leave keys as they are and in their order.
* `Registry.reassemble_normal` — **the four passes reach a normal form at once.**
-/

namespace Lexicon

/-! ### The texts of a pass -/

/-- Whether a pass names a text wherever it stands, by itself or with the texts around it. -/
def Pass.owns (l : Language) : Pass → Bytes → Bool
  | numbers => isDigitRun
  | objects => l.isObjectName
  | keywords => l.isKeyword
  | delimiters => l.isDelimiter

/-- If no text among some tokens is in `f`, none of the tokens is a text in `f`. -/
theorem Token.not_isText_of_mem {f : Bytes → Bool} {ts : List Token}
    (h : ∀ t, .text t ∈ ts → f t = false) {t : Token} (ht : t ∈ ts) : ¬t.isText f := by
  intro htext
  obtain ⟨u, rfl, hu⟩ := exists_of_isText htext
  rw [h u ht] at hu
  cases hu

theorem text_mem_nameNumbers {t : Bytes} {ts : List Token} (h : .text t ∈ nameNumbers ts) :
    isDigitRun t = false := by
  fun_induction nameNumbers ts with
  | case1 => cases h
  | case2 k rest ih => exact ih (by simpa using h)
  | case3 u rest _ _ ih => exact ih (by simpa using h)
  | case4 u rest _ _ _ ih => exact ih (by simpa using h)
  | case5 u rest hu _ ih =>
    rcases List.mem_cons.mp h with h | h
    · cases h
      simpa using hu
    · exact ih h

namespace Language

variable {l : Language}

theorem text_mem_nameObjects {t : Bytes} {ts : List Token} (h : .text t ∈ l.nameObjects ts) :
    l.isObjectName t = false := by
  fun_induction nameObjects l ts with
  | case1 => cases h
  | case2 k rest ih => exact ih (by simpa using h)
  | case3 u rest _ _ ih => exact ih (by simpa using h)
  | case4 u rest hu ih =>
    rcases List.mem_cons.mp h with h | h
    · cases h
      simpa using hu
    · exact ih h

theorem text_mem_nameTexts {c : Category} {p : Bytes → Bool} {t : Bytes} {ts : List Token}
    (h : .text t ∈ nameTexts c p ts) : p t = false := by
  obtain ⟨u, -, hu⟩ := List.mem_map.mp h
  cases u with
  | key k => cases hu
  | text u =>
    change (if p u then Lexeme.named c u else .text u) = .text t at hu
    split at hu
    · cases hu
    · next hp =>
      cases hu
      simpa using hp

end Language

namespace Pass

variable {l : Language} {p : Pass} {t : Bytes} {ts : List Token}

/-- **No pass leaves a text that it owns**, whatever it takes before the text. -/
theorem owns_of_kept (h : .text t ∈ p.lexemes l ts) : p.owns l t = false := by
  cases p with
  | numbers => exact text_mem_nameNumbers h
  | objects => exact Language.text_mem_nameObjects h
  | keywords => exact Language.text_mem_nameTexts h
  | delimiters => exact Language.text_mem_nameTexts h

/-- A number holds digits. -/
theorem exists_isDigitRun_of_numberWidth (h : numberWidth ts ≠ 0) :
    ∃ t ∈ ts, t.isText isDigitRun := by
  rcases numberWidth_cases h with ⟨d, e, rest, hd, -, rfl, -⟩ | ⟨d, rest, hd, -, rfl, -⟩ |
    ⟨d, rest, hd, -, rfl, -⟩ | ⟨e, rest, he, rfl, -⟩
  · exact ⟨.text d, List.mem_cons_self, hd⟩
  · exact ⟨.text d, List.mem_cons_self, hd⟩
  · exact ⟨.text d, List.mem_cons_self, hd⟩
  · exact ⟨.text e, List.mem_cons_of_mem _ List.mem_cons_self, he⟩

/-- A pass that owns no text leaves every token. -/
theorem lexemes_of_not_owns (h : ∀ t, .text t ∈ ts → p.owns l t = false) :
    p.lexemes l ts = ts.map .kept := by
  induction ts with
  | nil => cases p <;> simp [lexemes, nameNumbers, Language.nameObjects, Language.nameTexts]
  | cons t ts ih =>
    have hlater := ih fun u hu => h u (List.mem_cons_of_mem _ hu)
    have ht := Token.not_isText_of_mem h List.mem_cons_self
    rw [List.map_cons, ← hlater]
    cases p with
    | numbers =>
      -- a point starts a number as well, but only if digits follow it
      apply nameNumbers_of_numberWidth_eq_zero
      by_contra hw
      obtain ⟨d, hd, hdigits⟩ := exists_isDigitRun_of_numberWidth hw
      exact Token.not_isText_of_mem h hd hdigits
    | objects => exact leaves_objects ht ts
    | keywords => exact leaves_keywords ht ts
    | delimiters => exact leaves_delimiters ht ts

end Pass

/-! ### Keys -/

/-- Whether a token is a key. -/
def Token.isKey : Token → Bool
  | .text _ => false
  | .key _ => true

/-- The token of a lexeme that stays. -/
def Lexeme.token? : Lexeme → Option Token
  | .kept t => some t
  | .named _ _ => none

/-- The keys among the tokens of a pass stay, in their order. -/
theorem Language.Covers.keys_sublist {l : Language} {xs : List Lexeme} {ts : List Token}
    (h : l.Covers xs ts) : (ts.filter Token.isKey).Sublist (xs.filterMap Lexeme.token?) := by
  induction h with
  | nil => exact .slnil
  | @kept t xs ts _ ih =>
    change (List.filter _ _).Sublist (t :: xs.filterMap Lexeme.token?)
    cases t with
    | text t => exact ih.cons _
    | key k => exact ih.cons_cons _
  | @named c g hg xs ts _ ih =>
    -- the tokens of a group are texts
    have hnone : (g.map Token.text).filter Token.isKey = [] := by
      simp [List.filter_eq_nil_iff, Token.isKey]
    rw [List.filter_append, hnone]
    exact ih

namespace Registry

variable {r : Registry} {l : Language} {t : Bytes} {ts : List Token}

/-- Naming leaves the tokens that are kept, in their order. -/
theorem sublist_assign (r : Registry) (xs : List Lexeme) :
    (xs.filterMap Lexeme.token?).Sublist (r.assign xs).1 := by
  induction xs generalizing r with
  | nil => exact .slnil
  | cons x xs ih =>
    cases x with
    | kept t => exact (ih r).cons_cons t
    | named c v => exact (ih _).cons _

/-- **Passes leave keys as they are and in their order.** -/
theorem keys_sublist_groupAll (r : Registry) (l : Language) (ts : List Token) (ps : List Pass) :
    (ts.filter Token.isKey).Sublist (r.groupAll l ts ps).1 := by
  induction ps generalizing r ts with
  | nil => exact List.filter_sublist
  | cons p ps ih =>
    have hfirst : (ts.filter Token.isKey).Sublist (r.group l p ts).1 :=
      (Language.covers_lexemes l p ts).keys_sublist.trans (sublist_assign r _)
    -- the keys of `ts` are keys among those that the first pass leaves
    have hkeys := hfirst.filter Token.isKey
    rw [List.filter_filter] at hkeys
    simp only [Bool.and_self] at hkeys
    exact hkeys.trans (ih _ _)

/-! ### Texts -/

/-- A text that a pass leaves was there before, and the pass does not own it. -/
theorem text_mem_group {p : Pass} (h : .text t ∈ (r.group l p ts).1) :
    .text t ∈ ts ∧ p.owns l t = false := by
  have hkept := text_mem_assign.mp h
  exact ⟨(Language.covers_lexemes l p ts).mem_of_kept hkept, Pass.owns_of_kept hkept⟩

/-- **A text that some passes leave was there before, and none of them owns it.** -/
theorem text_mem_groupAll {ps : List Pass} (h : .text t ∈ (r.groupAll l ts ps).1) :
    .text t ∈ ts ∧ ∀ p ∈ ps, p.owns l t = false := by
  induction ps generalizing r ts with
  | nil => exact ⟨h, by simp⟩
  | cons p ps ih =>
    obtain ⟨hmem, hps⟩ := ih h
    obtain ⟨hts, hp⟩ := text_mem_group hmem
    exact ⟨hts, List.forall_mem_cons.mpr ⟨hp, hps⟩⟩

/-- Tokens of which no pass owns a text are left by the passes, and nothing is named. -/
theorem groupAll_of_not_owns {ps : List Pass}
    (h : ∀ p ∈ ps, ∀ t, .text t ∈ ts → p.owns l t = false) (r : Registry) :
    r.groupAll l ts ps = (ts, r) := by
  induction ps with
  | nil => rfl
  | cons p ps ih =>
    obtain ⟨hp, hps⟩ := List.forall_mem_cons.mp h
    have hfirst : r.group l p ts = (ts, r) := by
      have hkept := assign_kept_append r ts []
      rw [List.append_nil, assign_nil, List.append_nil] at hkept
      rw [group, Pass.lexemes_of_not_owns hp, hkept]
    rw [groupAll, hfirst]
    exact ih hps

end Registry

/-! ### Normal tokens -/

namespace Language

variable {l : Language} {ts : List Token}

/-- `l.IsNormal ts` says that the texts of `ts` are no digits, no names, no keywords and no
delimiters. -/
structure IsNormal (l : Language) (ts : List Token) : Prop where
  not_isDigitRun : ∀ t, .text t ∈ ts → isDigitRun t = false
  not_isObjectName : ∀ t, .text t ∈ ts → l.isObjectName t = false
  not_isKeyword : ∀ t, .text t ∈ ts → l.isKeyword t = false
  not_isDelimiter : ∀ t, .text t ∈ ts → l.isDelimiter t = false

/-- Tokens are normal if no pass owns a text of them. -/
theorem isNormal_iff :
    l.IsNormal ts ↔ ∀ p ∈ Pass.all, ∀ t, .text t ∈ ts → p.owns l t = false := by
  constructor
  · intro h p _
    cases p with
    | numbers => exact h.not_isDigitRun
    | objects => exact h.not_isObjectName
    | keywords => exact h.not_isKeyword
    | delimiters => exact h.not_isDelimiter
  · intro h
    exact ⟨h .numbers (by decide), h .objects (by decide), h .keywords (by decide),
      h .delimiters (by decide)⟩

end Language

namespace Registry

variable {l : Language} {ts : List Token}

/-- What the four passes leave is normal. -/
theorem isNormal_reassemble (r : Registry) (l : Language) (ts : List Token) :
    l.IsNormal (r.reassemble l ts).1 := by
  rw [Language.isNormal_iff]
  intro p hp t ht
  obtain ⟨-, hnot⟩ := text_mem_groupAll ht
  exact hnot p hp

/-- Normal tokens are left as they are, and nothing is named. -/
theorem reassemble_of_isNormal (h : l.IsNormal ts) (r : Registry) :
    r.reassemble l ts = (ts, r) :=
  groupAll_of_not_owns (Language.isNormal_iff.mp h) r

/-- **The four passes reach a normal form at once.**  Of the texts that they leave none is digits, a
name, a keyword or a delimiter; the keys among the tokens stay as they are and in their order; and a
second time the passes change neither the tokens nor the registry. -/
theorem reassemble_normal (r : Registry) (l : Language) (ts : List Token) :
    l.IsNormal (r.reassemble l ts).1 ∧
      (ts.filter Token.isKey).Sublist (r.reassemble l ts).1 ∧
      (r.reassemble l ts).2.reassemble l (r.reassemble l ts).1 = r.reassemble l ts := by
  have hnormal := r.isNormal_reassemble l ts
  refine ⟨hnormal, ?_, ?_⟩
  · exact keys_sublist_groupAll r l ts Pass.all
  · exact reassemble_of_isNormal hnormal _

/-- A chain that a key breaks off, and a number that ends in its point. -/
example :
    let k : Key := ⟨.literal, 7⟩
    let l : Language := { calls := [point] }
    (empty.reassemble l
        [.text (ascii "a"), .text point, .key k, .text (ascii "1"), .text point]).1 =
      [.key ⟨.object, 0⟩, .key ⟨.delimiter, 0⟩, .key k, .key ⟨.primitive, 0⟩] := by
  decide +kernel

end Registry

end Lexicon
