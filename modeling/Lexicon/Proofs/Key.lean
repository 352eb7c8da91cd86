import Lexicon.Proofs.Settled
import Mathlib.Data.Nat.Digits.Defs

/-!
# The written forms of keys

A number is written in decimal digits, which read as that number, so that the written form of a key
reads as that key.  Besides these forms there are others that read as a key: the number may have
zeros in front of it that it does not need.  Nothing else reads as a key.

## Main definitions

* `Bytes.IsNumeral t` — `t` is one or more digits; `Bytes.placeValue t`, the number that they make.
* `Bytes.IsShortest t` — the numeral `t` has no superfluous zeros in front.
* `Category.start c` — the bytes before the number of a key.

## Main results

* `Bytes.number?_decimal` — decimal digits read as the number that they were written for.
* `Bytes.decimal_placeValue` — a number is written in the shortest numeral that makes it.
* `Key.parse?_display` — **the written form of a key reads as the key.**
* `Key.head?_of_parse?` — what reads as a key starts with a colon.
* `Key.parse?_start_eq_some_iff` — what reads as a key of a category.
* `Key.parse?_exact` — **what reads as a key, and when it is the written form of that key.**
-/

namespace Lexicon

/-! ### Decimal digits -/

namespace Bytes

theorem toNat_digit {n : Nat} (h : n < 10) : (digit n - Byte.zero).toNat = n := by
  have hall : ∀ m < 10, (digit m - Byte.zero).toNat = m := by decide
  exact hall n h

theorem decimal_ne_nil (n : Nat) : decimal n ≠ [] := by
  rw [decimal]
  split
  · exact List.cons_ne_nil _ _
  · intro h
    exact List.cons_ne_nil _ _ (List.append_eq_nil_iff.mp h).2

/-- One more digit stands behind the others. -/
theorem valueFrom_concat (n : Nat) (t : Bytes) (b : UInt8) :
    valueFrom n (t ++ [b]) = 10 * valueFrom n t + (b - Byte.zero).toNat := by
  unfold valueFrom
  rw [List.foldl_append]
  rfl

theorem valueFrom_decimal (n : Nat) : valueFrom 0 (decimal n) = n := by
  fun_induction decimal n with
  | case1 n hn =>
    show 10 * 0 + (digit n - Byte.zero).toNat = n
    rw [toNat_digit hn]
    omega
  | case2 n hn ih =>
    have hlast : n % 10 < 10 := Nat.mod_lt n (by decide)
    rw [valueFrom_concat, ih, toNat_digit hlast]
    omega

/-- **Decimal digits read as the number that they were written for.** -/
theorem number?_decimal (n : Nat) : number? (decimal n) = some n := by
  have hdigits : (decimal n).all Byte.isDigit = true :=
    List.all_eq_true.mpr fun _ hb => isDigit_of_mem_decimal hb
  have hne : (!(decimal n).isEmpty) = true := by simpa using decimal_ne_nil n
  unfold number?
  rw [if_pos (Bool.and_eq_true_iff.mpr ⟨hne, hdigits⟩), valueFrom_decimal]

/-! ### Numerals -/

/-- A numeral is one or more digits. -/
structure IsNumeral (t : Bytes) : Prop where
  ne_nil : t ≠ []
  isDigit : ∀ b ∈ t, Byte.isDigit b

/-- The number that digits make by their places: the last one counts once, the one before it ten
times, and so on. -/
def placeValue (t : Bytes) : Nat :=
  Nat.ofDigits 10 (t.reverse.map fun b => b.toNat - Byte.zero.toNat)

/-- A numeral without superfluous zeros: it starts with a zero only where that is all of it. -/
def IsShortest (t : Bytes) : Prop := t.head? = some Byte.zero → t = [Byte.zero]

/-- The value of a digit is how far it stands behind zero. -/
theorem toNat_sub_of_isDigit {b : UInt8} (h : Byte.isDigit b) :
    (b - Byte.zero).toNat = b.toNat - Byte.zero.toNat ∧ (b - Byte.zero).toNat < 10 := by
  have hrange : Byte.zero ≤ b ∧ b ≤ 57 := by simpa [Byte.isDigit] using h
  have hsub := UInt8.toNat_sub_of_le b Byte.zero hrange.1
  have hlast : b.toNat ≤ 57 := UInt8.le_iff_toNat_le.mp hrange.2
  have hzero : Byte.zero.toNat = 48 := rfl
  exact ⟨hsub, by omega⟩

theorem digit_toNat_sub (b : UInt8) : digit (b - Byte.zero).toNat = b := by
  rw [digit, Nat.toUInt8_eq, UInt8.ofNat_toNat, UInt8.add_comm]
  exact UInt8.sub_add_cancel b Byte.zero

theorem placeValue_concat {t : Bytes} {b : UInt8} (hb : Byte.isDigit b) :
    placeValue (t ++ [b]) = 10 * placeValue t + (b - Byte.zero).toNat := by
  rw [placeValue, List.reverse_append, List.reverse_singleton, List.singleton_append,
    List.map_cons, Nat.ofDigits_cons, add_comm, (toNat_sub_of_isDigit hb).1]
  rfl

/-- Reading digits one after the other gives each its place. -/
theorem valueFrom_eq_placeValue {t : Bytes} (h : ∀ b ∈ t, Byte.isDigit b) :
    valueFrom 0 t = placeValue t := by
  induction t using List.reverseRecOn with
  | nil => rfl
  | append_singleton t b ih =>
    have hb := h b (by simp)
    have ht := ih fun c hc => h c (List.mem_append_left _ hc)
    rw [valueFrom_concat, placeValue_concat hb, ht]

theorem number?_eq_some_iff {t : Bytes} {n : Nat} :
    number? t = some n ↔ t.IsNumeral ∧ t.placeValue = n := by
  have hnumeral : (!t.isEmpty && t.all Byte.isDigit) ↔ t.IsNumeral := by
    rw [Bool.and_eq_true, List.all_eq_true]
    exact ⟨fun h => ⟨by simpa using h.1, h.2⟩, fun h => ⟨by simpa using h.ne_nil, h.isDigit⟩⟩
  unfold number?
  by_cases h : t.IsNumeral
  · rw [if_pos (hnumeral.mpr h), Option.some.injEq, valueFrom_eq_placeValue h.isDigit]
    exact (and_iff_right h).symm
  · rw [if_neg (mt hnumeral.mp h)]
    exact iff_of_false (by simp) fun hsome => h hsome.1

/-! ### The shortest numeral -/

theorem placeValue_decimal (n : Nat) : (decimal n).placeValue = n :=
  (number?_eq_some_iff.mp (number?_decimal n)).2

theorem isShortest_decimal (n : Nat) : (decimal n).IsShortest := by
  fun_induction decimal n with
  | case1 n hn =>
    intro h
    rw [Option.some.inj h]
  | case2 n hn ih =>
    intro h
    rw [List.head?_append_of_ne_nil _ (decimal_ne_nil _)] at h
    -- the digits before the last one would make zero, and they make at least one
    have hzero := placeValue_decimal (n / 10)
    rw [ih h] at hzero
    have hone : placeValue [Byte.zero] = 0 := rfl
    omega

/-- **A number is written in the shortest numeral that makes it.** -/
theorem decimal_placeValue {t : Bytes} (ht : t.IsNumeral) (hs : t.IsShortest) :
    decimal t.placeValue = t := by
  induction t using List.reverseRecOn with
  | nil => exact absurd rfl ht.ne_nil
  | append_singleton u b ih =>
    have hb : Byte.isDigit b := ht.isDigit b (by simp)
    have hlt := (toNat_sub_of_isDigit hb).2
    have hvalue := placeValue_concat (t := u) hb
    by_cases hu : u = []
    · -- one digit
      subst hu
      have hnil : placeValue [] = 0 := rfl
      have hone : placeValue ([] ++ [b]) = (b - Byte.zero).toNat := by omega
      rw [hone, decimal, if_pos hlt, digit_toNat_sub]
      rfl
    · -- the digits before the last one do not start with a zero, either
      have hhead : u.head? ≠ some Byte.zero := by
        intro hzero
        have hall := hs (by rw [List.head?_append_of_ne_nil _ hu, hzero])
        have hlen := congrArg List.length hall
        have hpos := List.length_pos_iff.mpr hu
        rw [List.length_append, List.length_singleton, List.length_singleton] at hlen
        omega
      have hnumeral : IsNumeral u := ⟨hu, fun c hc => ht.isDigit c (List.mem_append_left _ hc)⟩
      have hdecimal := ih hnumeral fun h => absurd h hhead
      have hpos : placeValue u ≠ 0 := by
        intro hzero
        rw [hzero, decimal] at hdecimal
        exact hhead (by rw [← hdecimal]; rfl)
      have hdiv : placeValue (u ++ [b]) / 10 = placeValue u := by omega
      have hmod : placeValue (u ++ [b]) % 10 = (b - Byte.zero).toNat := by omega
      rw [decimal, if_neg (by omega), hdiv, hmod, hdecimal, digit_toNat_sub]

end Bytes

/-! ### Keys -/

/-- The bytes before the number of a key. -/
def Category.start (c : Category) : Bytes := [Byte.colon, c.letter]

example : Category.all.map Category.start = [":l", ":p", ":o", ":c", ":k", ":d"].map ascii := by
  decide

namespace Key

open Bytes

/-- **The written form of a key reads as the key.** -/
@[simp] theorem parse?_display (k : Key) : parse? k.display = some k := by
  obtain ⟨c, n⟩ := k
  rw [display, parse?, if_pos rfl, Category.ofLetter?_letter, Bytes.number?_decimal]
  show (if n.toNat < UInt32.size then some (⟨c, n.toNat.toUInt32⟩ : Key) else none) = some ⟨c, n⟩
  rw [if_pos n.toNat_lt]
  simp

/-- Different keys are written differently. -/
theorem display_injective : Function.Injective display := by
  intro k k' h
  have hparse := congrArg parse? h
  rwa [parse?_display, parse?_display, Option.some.injEq] at hparse

theorem display_eq_start_append (k : Key) :
    k.display = k.category.start ++ decimal k.sequence.toNat := rfl

/-- What reads as a key starts as the keys of its category do. -/
theorem exists_start_of_parse? {t : Bytes} {k : Key} (h : parse? t = some k) :
    ∃ digits, t = k.category.start ++ digits := by
  unfold parse? at h
  split at h
  · next b letter digits =>
    split at h
    · next hb =>
      obtain ⟨c, hc, h⟩ := Option.bind_eq_some_iff.mp h
      obtain ⟨n, -, h⟩ := Option.bind_eq_some_iff.mp h
      split at h
      · obtain rfl := Option.some.inj h
        refine ⟨digits, ?_⟩
        rw [Category.start, hb, Category.letter_of_ofLetter? hc]
        rfl
      · cases h
    · cases h
  · cases h

/-- What reads as a key starts with a colon. -/
theorem head?_of_parse? {t : Bytes} {k : Key} (h : parse? t = some k) :
    t.head? = some Byte.colon := by
  obtain ⟨digits, rfl⟩ := exists_start_of_parse? h
  rfl

/-- **Behind the start of a category, a numeral in the range of the counter reads as a key**, and
nothing else does. -/
theorem parse?_start_eq_some_iff {c : Category} {digits : Bytes} {k : Key} :
    parse? (c.start ++ digits) = some k ↔
      k.category = c ∧ digits.IsNumeral ∧ digits.placeValue = k.sequence.toNat := by
  have hparse : parse? (c.start ++ digits) = (number? digits).bind fun n =>
      if n < UInt32.size then some ⟨c, n.toUInt32⟩ else none := by
    show parse? (Byte.colon :: c.letter :: digits) = _
    rw [parse?, if_pos rfl, Category.ofLetter?_letter]
    rfl
  rw [hparse, Option.bind_eq_some_iff]
  constructor
  · rintro ⟨n, hn, hk⟩
    obtain ⟨hnumeral, hvalue⟩ := number?_eq_some_iff.mp hn
    split at hk
    · next hlt =>
      obtain rfl := Option.some.inj hk
      exact ⟨rfl, hnumeral, by rw [hvalue, UInt32.toNat_ofNat_of_lt' hlt]⟩
    · cases hk
  · rintro ⟨rfl, hnumeral, hvalue⟩
    refine ⟨k.sequence.toNat, number?_eq_some_iff.mpr ⟨hnumeral, hvalue⟩, ?_⟩
    rw [if_pos k.sequence.toNat_lt]
    simp

/-- The texts that read as keys. -/
theorem exists_parse?_iff {t : Bytes} :
    (∃ k, parse? t = some k) ↔
      ∃ c digits, t = Category.start c ++ digits ∧ digits.IsNumeral ∧
        digits.placeValue ≤ 4294967295 := by
  constructor
  · rintro ⟨k, hk⟩
    obtain ⟨digits, rfl⟩ := exists_start_of_parse? hk
    obtain ⟨-, hnumeral, hvalue⟩ := parse?_start_eq_some_iff.mp hk
    have hlt := k.sequence.toNat_lt
    exact ⟨k.category, digits, rfl, hnumeral, by omega⟩
  · rintro ⟨c, digits, rfl, hnumeral, hle⟩
    refine ⟨⟨c, digits.placeValue.toUInt32⟩, parse?_start_eq_some_iff.mpr ⟨rfl, hnumeral, ?_⟩⟩
    exact (UInt32.toNat_ofNat_of_lt' (Nat.lt_succ_of_le hle)).symm

/-- A text that reads as a key is its written form if it has no superfluous zeros. -/
theorem display_eq_iff {c : Category} {digits : Bytes} {k : Key}
    (h : parse? (c.start ++ digits) = some k) :
    k.display = c.start ++ digits ↔ digits.IsShortest := by
  obtain ⟨rfl, hnumeral, hvalue⟩ := parse?_start_eq_some_iff.mp h
  rw [display_eq_start_append, List.append_cancel_left_eq, ← hvalue]
  constructor
  · intro heq
    rw [← heq]
    exact isShortest_decimal _
  · exact decimal_placeValue hnumeral

/-- **Written forms read exactly.**  Every key is read back from its written form.  A text reads as
a key exactly if it is the start of a category with a numeral behind it that is at most
`4294967295`; the key has this category and this number, and the text is its written form exactly if
the numeral has no superfluous zeros.  Different keys are written differently. -/
theorem parse?_exact :
    (∀ k : Key, parse? k.display = some k) ∧
      (∀ t : Bytes, (∃ k, parse? t = some k) ↔
        ∃ c digits, t = Category.start c ++ digits ∧ digits.IsNumeral ∧
          digits.placeValue ≤ 4294967295) ∧
      (∀ (c : Category) (digits : Bytes) (k : Key), parse? (c.start ++ digits) = some k →
        k.category = c ∧ k.sequence.toNat = digits.placeValue ∧
          (k.display = c.start ++ digits ↔ digits.IsShortest)) ∧
      Function.Injective display := by
  refine ⟨parse?_display, fun t => exists_parse?_iff, ?_, display_injective⟩
  intro c digits k hk
  obtain ⟨hcategory, -, hvalue⟩ := parse?_start_eq_some_iff.mp hk
  exact ⟨hcategory, hvalue.symm, display_eq_iff hk⟩

/-- The last number of the counter with zeros in front of it, and the number after it. -/
theorem parse?_exact_zeros :
    parse? (ascii ":o0004294967295") = some ⟨.object, 4294967295⟩ ∧
      display ⟨.object, 4294967295⟩ ≠ ascii ":o0004294967295" ∧
      parse? (ascii ":o4294967296") = none := by
  have hlast : parse? (ascii ":o0004294967295") = some ⟨.object, 4294967295⟩ := by decide +kernel
  obtain ⟨-, -, hread, -⟩ := parse?_exact
  obtain ⟨-, -, hwritten⟩ := hread .object (ascii "0004294967295") _ hlast
  refine ⟨hlast, ?_, by decide +kernel⟩
  intro heq
  have hall := hwritten.mp heq rfl
  revert hall
  decide

end Key
end Lexicon
