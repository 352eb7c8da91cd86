import Lexicon.Proofs.Seams

/-!
# Stripping in parts

A source text can be stripped in parts, each with the registry that the part before it leaves, if
each part ends outside literals and comments and no comment starts where two parts meet.  The tokens
of the parts are then sewn together: the texts on both sides of a seam were one text.  Counting the
backslashes before a quote of a literal goes back over the whole text, but the quote that opens the
literal stops it, so that it never gets to the part before.

## Main definitions

* `sew ts us` — the tokens `us` behind the tokens `ts`, with the texts that touch joined.
* `Lexeme.Joined xs` — no two texts of `xs` touch.
* `Lexeme.Touch xs ys` — `xs` ends in a text, and `ys` starts with one.

## Main results

* `strippedLexemes_append` — what two texts leave together, in terms of what each of them leaves.
* `Registry.assign_joinTexts_append` — the values of joined lexemes are named in parts.
* `isEscaped_append` — in a literal of the second text nothing is seen of the first one.
* `Registry.strip_append` — **stripping is compositional.**
-/

namespace Lexicon

/-! ### Tokens one after the other -/

/-- One list of tokens behind another.  A text at the end of the first one and a text at the start
of the second one become one text. -/
def sew (ts us : List Token) : List Token :=
  match ts.getLast?, us.head? with
  | some (.text t), some (.text u) => ts.dropLast ++ .text (t ++ u) :: us.tail
  | _, _ => ts ++ us

theorem sew_texts (ts : List Token) (t u : Bytes) (us : List Token) :
    sew (ts ++ [.text t]) (.text u :: us) = ts ++ .text (t ++ u) :: us := by
  simp [sew]

theorem sew_of_not_texts {ts us : List Token}
    (h : ∀ t, .text t ∈ ts.getLast? → ∀ u, .text u ∉ us.head?) : sew ts us = ts ++ us := by
  unfold sew
  split
  · next t u ht hu => exact absurd hu (h t ht u)
  · rfl

/-! ### Lexemes one after the other -/

namespace Lexeme

variable {xs ys : List Lexeme}

/-- The first part of a list can be joined beforehand. -/
theorem joinTexts_joinTexts_append (xs ys : List Lexeme) :
    joinTexts (joinTexts xs ++ ys) = joinTexts (xs ++ ys) := by
  induction xs with
  | nil => rfl
  | cons x xs ih =>
    have hlater : joinTexts (x :: (joinTexts xs ++ ys)) = joinTexts (x :: (xs ++ ys)) :=
      joinTexts_append_congr [x] ih
    cases x with
    | named c v => exact hlater
    | kept t =>
      cases t with
      | key k => exact hlater
      | text t =>
        rcases joinTexts_text t xs with ⟨u, zs, h, hj⟩ | ⟨-, hj⟩
        · -- both texts at the head are joined in the end
          rw [h, List.cons_append, joinTexts_text_text] at hlater
          rw [hj]
          exact hlater
        · rw [hj]
          exact hlater

/-- No two texts touch. -/
def Joined (xs : List Lexeme) : Prop := xs.IsChain fun x y => x.text? = none ∨ y.text? = none

theorem Joined.joinTexts_eq (h : Joined xs) : joinTexts xs = xs := by
  induction xs with
  | nil => rfl
  | cons x xs ih =>
    obtain ⟨hhead, hrest⟩ := List.isChain_cons.mp h
    have hlater := ih hrest
    cases x with
    | named c v => rw [joinTexts_named, hlater]
    | kept t =>
      cases t with
      | key k => rw [joinTexts_key, hlater]
      | text t =>
        rcases joinTexts_text t xs with ⟨u, ys, hxs, -⟩ | ⟨-, hj⟩
        · -- the next lexeme would be a text, too
          rw [hlater] at hxs
          have hu := hhead (.text u) (by rw [hxs]; rfl)
          simp [text?] at hu
        · rw [hj, hlater]

/-- A text stands on both sides of the seam. -/
def Touch (xs ys : List Lexeme) : Prop :=
  ∃ init t u rest, xs = init ++ [.text t] ∧ ys = .text u :: rest

/-- What is joined stays so if no texts touch where the parts meet. -/
theorem Joined.append (hx : Joined xs) (hy : Joined ys) (h : ¬Touch xs ys) :
    Joined (xs ++ ys) := by
  refine List.IsChain.append hx hy ?_
  intro x hlast y hhead
  obtain ⟨init, hinit⟩ := List.getLast?_eq_some_iff.mp hlast
  obtain ⟨rest, hrest⟩ := List.head?_eq_some_iff.mp hhead
  match x, y with
  | .named _ _, _ => exact .inl rfl
  | .kept (.key _), _ => exact .inl rfl
  | _, .named _ _ => exact .inr rfl
  | _, .kept (.key _) => exact .inr rfl
  | .kept (.text t), .kept (.text u) => exact absurd ⟨init, t, u, rest, hinit, hrest⟩ h

/-- Texts that touch become one text, which touches no other. -/
theorem Joined.joinTexts_concat_append {init rest : List Lexeme} {t u : Bytes}
    (hx : Joined (init ++ [.text t])) (hy : Joined (.text u :: rest)) :
    joinTexts (init ++ [.text t] ++ .text u :: rest) = init ++ .text (t ++ u) :: rest := by
  obtain ⟨hinit, -, hlast⟩ := List.isChain_append.mp hx
  obtain ⟨hfirst, hrest⟩ := List.isChain_cons.mp hy
  have hjoined : Joined (init ++ .text (t ++ u) :: rest) := by
    refine hinit.append (List.isChain_cons.mpr ⟨?_, hrest⟩) ?_
    · intro y hy
      simpa [text?] using hfirst y hy
    · intro x hx y hy
      obtain rfl := Option.some.inj hy
      simpa [text?] using hlast x hx (.text t) rfl
  rw [List.append_assoc, List.singleton_append,
    joinTexts_append_congr init (joinTexts_text_text t u rest), hjoined.joinTexts_eq]

end Lexeme

theorem joined_strippedLexemes (keep : Keep) (text : Bytes) :
    Lexeme.Joined (strippedLexemes keep text) :=
  isChain_strippedLexemes keep text

/-- What two texts leave together is what each of them leaves, joined, if the first one ends in code
and no comment starts where they meet. -/
theorem strippedLexemes_append (keep : Keep) {a b : Bytes} (ha : endsInCode a)
    (hseam : Fragment.Parted a b) :
    strippedLexemes keep (a ++ b) =
      Lexeme.joinTexts (strippedLexemes keep a ++ strippedLexemes keep b) := by
  have happend : Forward.lexemes keep .code (a ++ b) =
      Forward.lexemes keep .code a ++ Forward.lexemes keep .code b :=
    Forward.lexemes_append [] a (Fragment.isClosed_of_endsInCode ha) hseam
  have hjoined := (joined_strippedLexemes keep b).joinTexts_eq
  calc strippedLexemes keep (a ++ b)
      = Lexeme.joinTexts (Forward.lexemes keep .code a ++ Forward.lexemes keep .code b) := by
        rw [strippedLexemes_eq, happend]
    _ = Lexeme.joinTexts (strippedLexemes keep a ++ Forward.lexemes keep .code b) := by
        rw [strippedLexemes_eq keep a, Lexeme.joinTexts_joinTexts_append]
    _ = Lexeme.joinTexts (strippedLexemes keep a ++ strippedLexemes keep b) := by
        apply Lexeme.joinTexts_append_congr
        rw [hjoined, strippedLexemes_eq]

/-! ### Escapes -/

/-- A byte in a literal of the second text is escaped in both texts together as it is in the second
one, whatever the first one ends in. -/
theorem isEscaped_append (a before : Bytes) (q : Quote) (body rest : Bytes) :
    isEscaped (a ++ (before ++ q.byte :: body ++ rest)) (a ++ (before ++ q.byte :: body)).length =
      isEscaped (before ++ q.byte :: body ++ rest) (before ++ q.byte :: body).length := by
  have hboth := isEscaped_literal (a ++ before) q body rest
  rw [isEscaped_literal, ← hboth]
  simp only [List.append_assoc]

/-! ### Naming in parts -/

namespace Registry

variable {r : Registry} {xs ys : List Lexeme}

/-- A text at the end of what naming leaves was kept. -/
theorem eq_concat_of_assign {t : Bytes} (h : .text t ∈ (r.assign xs).1.getLast?) :
    ∃ init, xs = init ++ [.text t] := by
  rcases List.eq_nil_or_concat xs with rfl | ⟨init, x, rfl⟩
  · cases h
  · rw [List.concat_eq_append, assign_append] at h
    cases x with
    | kept u =>
      obtain rfl : u = .text t := by simpa using h
      exact ⟨init, List.concat_eq_append⟩
    | named c v => simp at h

/-- Where no texts of the lexemes touch, none of the tokens do. -/
theorem not_texts_of_not_touch (h : ¬Lexeme.Touch xs ys) (r s : Registry) :
    ∀ t, .text t ∈ (r.assign xs).1.getLast? → ∀ u, .text u ∉ (s.assign ys).1.head? := by
  intro t ht u hu
  obtain ⟨init, hinit⟩ := eq_concat_of_assign ht
  obtain ⟨us, hus⟩ := List.head?_eq_some_iff.mp hu
  obtain ⟨rest, hrest, -⟩ := eq_cons_of_assign hus
  exact h ⟨init, t, u, rest, hinit, hrest⟩

/-- **The values of joined lexemes are named in parts**: the tokens of the parts are sewn together,
and the second part goes on with the registry that the first one leaves. -/
theorem assign_joinTexts_append (hx : Lexeme.Joined xs) (hy : Lexeme.Joined ys) (r : Registry) :
    r.assign (Lexeme.joinTexts (xs ++ ys)) =
      (sew (r.assign xs).1 ((r.assign xs).2.assign ys).1, ((r.assign xs).2.assign ys).2) := by
  by_cases h : Lexeme.Touch xs ys
  · obtain ⟨init, t, u, rest, rfl, rfl⟩ := h
    rw [hx.joinTexts_concat_append hy]
    simp only [assign_append, assign_kept, assign_nil]
    rw [sew_texts]
  · have hjoined := hx.append hy h
    rw [hjoined.joinTexts_eq, assign_append, sew_of_not_texts (not_texts_of_not_touch h _ _)]

/-- **Stripping is compositional.**  A text that ends in code can be stripped before what follows
it, if no comment starts where the two meet: the registry is that of stripping the one and then the
other, and the tokens of the one are sewn to those of the other.  For no literal of the second text
does it matter what the first one ends in. -/
theorem strip_append (r : Registry) (keep : Keep) {a b : Bytes} (ha : endsInCode a)
    (hseam : Fragment.Parted a b) :
    r.strip keep (a ++ b) =
        (sew (r.strip keep a).1 ((r.strip keep a).2.strip keep b).1,
          ((r.strip keep a).2.strip keep b).2) ∧
      ∀ before q body rest, b = before ++ Quote.byte q :: body ++ rest →
        isEscaped (a ++ b) (a ++ (before ++ q.byte :: body)).length =
          isEscaped b (before ++ q.byte :: body).length := by
  constructor
  · unfold strip
    rw [strippedLexemes_append keep ha hseam]
    exact assign_joinTexts_append (joined_strippedLexemes keep a) (joined_strippedLexemes keep b) r
  · rintro before q body rest rfl
    exact isEscaped_append a before q body rest

/-- A backslash at the end of code, and another one before a literal that holds an escaped quote. -/
theorem strip_append_backslashes :
    let a := ascii "x\\"
    let b := ascii "\\\"\\\"\"/**/"
    endsInCode a ∧ Fragment.Parted a b ∧
      empty.strip ⟨true, false⟩ (a ++ b) =
        (sew [.text a] [.text [Byte.backslash], .key ⟨.literal, 0⟩, .text [Byte.newline]],
          (empty.strip ⟨true, false⟩ b).2) ∧
      isEscaped (a ++ b) 5 = isEscaped b 3 := by
  intro a b
  have ha : endsInCode a := by decide +kernel
  have hseam : Fragment.Parted a b := fun hslash => absurd hslash (by decide)
  have hfirst : empty.strip ⟨true, false⟩ a = ([.text a], empty) := by decide +kernel
  have hsecond : (empty.strip ⟨true, false⟩ b).1 =
      [.text [Byte.backslash], .key ⟨.literal, 0⟩, .text [Byte.newline]] := by decide +kernel
  obtain ⟨hstrip, hescapes⟩ := strip_append empty ⟨true, false⟩ ha hseam
  rw [hfirst, hsecond] at hstrip
  refine ⟨ha, hseam, hstrip, ?_⟩
  exact hescapes [Byte.backslash] .double [Byte.backslash] (ascii "\"\"/**/") (by decide)

end Registry
end Lexicon
