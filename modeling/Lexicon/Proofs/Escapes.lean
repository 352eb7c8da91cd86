import Lexicon.Proofs.Stripped

/-!
# Escapes, read forward

Whether a quote closes its literal is told by the backslashes directly before it, counted backward.
A reader that never looks back can carry the answer along: one flag for each literal, which the
opening quote clears and every byte of the body updates.  This module strips a text in one pass with
such a flag, and shows that nothing else is different.

## Main definitions

* `escapes e b` — the flag after the byte `b`, if `e` is the flag before it.
* `Forward` — where a reader is that never looks back, and `Forward.lexemes`, what it leaves.
* `Registry.stripForward` — stripping by such a reader.

## Main results

* `foldl_escapes` — **the flag is the parity of the backslashes**, counted backward.
* `isEscaped_literal` — counting backward over the whole text stops at the opening quote.
* `joinTexts_splitFrom` — the fragments of a text and the forward reader leave the same.
* `Registry.strip_eq_stripForward` — **stripping needs no look back.**
-/

namespace Lexicon

/-! ### The flag -/

/-- Whether the byte after `b` is escaped, if `escaped` tells so of `b` itself: a backslash that is
not escaped sets the flag, and every other byte clears it. -/
def escapes (escaped : Bool) (b : UInt8) : Bool := !escaped && b == Byte.backslash

/-- One more byte turns the parity as it turns the flag. -/
theorem behindEscape_cons (b : UInt8) (before : Bytes) :
    behindEscape (b :: before) = escapes (behindEscape before) b := by
  by_cases hb : b = Byte.backslash
  · subst hb
    unfold behindEscape escapes
    rw [List.takeWhile_cons_of_pos (by rfl), List.length_cons]
    rcases Nat.mod_two_eq_zero_or_one
      (before.takeWhile fun b => b == Byte.backslash).length with h | h
    · rw [h, Nat.add_mod, h]
      rfl
    · rw [h, Nat.add_mod, h]
      rfl
  · have hne : (b == Byte.backslash) = false := beq_false_of_ne hb
    unfold behindEscape escapes
    rw [List.takeWhile_cons_of_neg (by simpa using hb), hne, Bool.and_false]
    rfl

/-- **The flag after the body of a literal is the parity of the backslashes at its end.** -/
theorem foldl_escapes (body : Bytes) : body.foldl escapes false = behindEscape body.reverse := by
  induction body using List.reverseRecOn with
  | nil => rfl
  | append_singleton body b ih =>
    rw [List.foldl_append, ih, List.reverse_append]
    exact (behindEscape_cons b body.reverse).symm

/-- **A byte of a literal is escaped in the whole text as it is in the literal**, whatever stands
before the opening quote. -/
theorem isEscaped_literal (before : Bytes) (q : Quote) (body rest : Bytes) :
    isEscaped (before ++ q.byte :: body ++ rest) (before ++ q.byte :: body).length =
      body.foldl escapes false := by
  have hstands : Fragment.Stands (before ++ q.byte :: body ++ rest)
      (before ++ q.byte :: body).length (.literal q) body.reverse rest :=
    ⟨before, by simp [Fragment.Mode.opening], by simp [Fragment.Mode.opening]⟩
  rw [hstands.isEscaped_eq q rfl, foldl_escapes]

/-! ### The forward reader -/

/-- Where a reader is that never looks back.  The bodies are what it has read so far. -/
inductive Forward
  | code
  /-- In a literal; `escaped` tells whether the next byte is escaped. -/
  | literal (q : Quote) (body : Bytes) (escaped : Bool)
  | lineComment (body : Bytes)
  | blockComment (body : Bytes)
  deriving DecidableEq, Repr

namespace Forward

/-- What the rest of a text leaves.  A byte of code leaves itself, and a literal or comment that
ends leaves what its fragment does.  In a literal each byte updates the flag, and a quote that is
not escaped ends it. -/
def lexemes (keep : Keep) : Forward → Bytes → List Lexeme
  | .lineComment body, [] => (Fragment.lineComment body false).stripped keep
  | _, [] => []
  | .code, b :: rest =>
    if b = Byte.doubleQuote then lexemes keep (.literal .double [] false) rest
    else if b = Byte.singleQuote then lexemes keep (.literal .single [] false) rest
    else if b = Byte.slash then
      match rest with
      | [] => [.text [b]]
      | d :: rest' =>
        if d = Byte.slash then lexemes keep (.lineComment []) rest'
        else if d = Byte.star then lexemes keep (.blockComment []) rest'
        else .text [b] :: lexemes keep .code (d :: rest')
    else .text [b] :: lexemes keep .code rest
  | .literal q body escaped, b :: rest =>
    if b = q.byte && !escaped then
      (Fragment.literal q body).stripped keep ++ lexemes keep .code rest
    else lexemes keep (.literal q (body ++ [b]) (escapes escaped b)) rest
  | .lineComment body, b :: rest =>
    if b = Byte.newline then
      (Fragment.lineComment body true).stripped keep ++ lexemes keep .code rest
    else lexemes keep (.lineComment (body ++ [b])) rest
  | .blockComment body, b :: rest =>
    if b = Byte.star then
      match rest with
      | [] => []
      | d :: rest' =>
        if d = Byte.slash then
          (Fragment.blockComment body).stripped keep ++ lexemes keep .code rest'
        else lexemes keep (.blockComment (body ++ [b])) (d :: rest')
    else lexemes keep (.blockComment (body ++ [b])) rest

/-- The forward reader that has read `seen`, in reverse, in mode `m`. -/
def ofMode : Fragment.Mode → Bytes → Forward
  | .code, _ => .code
  | .literal q, seen => .literal q seen.reverse (behindEscape seen)
  | .lineComment, seen => .lineComment seen.reverse
  | .blockComment, seen => .blockComment seen.reverse

/-- What the forward reader has left of the current fragment already: all of it that is code. -/
def pending (keep : Keep) : Fragment.Mode → Bytes → List Lexeme
  | .code, seen => (Fragment.ofEnd .code seen).flatMap (Fragment.stripped keep)
  | _, _ => []

/-! ### What the forward reader does -/

variable {keep : Keep} {m : Fragment.Mode} {seen : Bytes}

theorem lexemes_nil (keep : Keep) (m : Fragment.Mode) (seen : Bytes) :
    pending keep m seen ++ lexemes keep (ofMode m seen) [] =
      (Fragment.ofEnd m seen).flatMap (Fragment.stripped keep) := by
  cases m with
  | code => simp [pending, ofMode, lexemes]
  | literal q => simp [pending, ofMode, lexemes, Fragment.ofEnd, Fragment.stripped]
  | lineComment => simp [pending, ofMode, lexemes, Fragment.ofEnd]
  | blockComment => simp [pending, ofMode, lexemes, Fragment.ofEnd, Fragment.stripped]

theorem lexemes_opening (keep : Keep) (hm : m ≠ .code) (rest : Bytes) :
    lexemes keep .code (m.opening ++ rest) = lexemes keep (ofMode m []) rest := by
  cases m with
  | code => exact absurd rfl hm
  | literal q => cases q <;> cases rest <;> rfl
  | lineComment => rfl
  | blockComment => rfl

theorem lexemes_closing (keep : Keep) (hm : m ≠ .code) (hc : m.canClose seen) (rest : Bytes) :
    lexemes keep (ofMode m seen) (m.closing ++ rest) =
      (Fragment.ofClosing m seen).flatMap (Fragment.stripped keep) ++ lexemes keep .code rest := by
  cases m with
  | code => exact absurd rfl hm
  | literal q =>
    show lexemes keep (.literal q seen.reverse (behindEscape seen)) (q.byte :: rest) = _
    rw [lexemes, if_pos (by simpa [Fragment.Mode.canClose] using hc)]
    simp [Fragment.ofClosing]
  | lineComment => simp [ofMode, Fragment.Mode.closing, lexemes, Fragment.ofClosing]
  | blockComment =>
    simp [ofMode, Fragment.Mode.closing, blockCommentEnd, lexemes, Fragment.ofClosing]

/-- A byte of code at which nothing opens is left as it is. -/
theorem lexemes_code {b : UInt8} {rest : Bytes}
    (h : ∀ n : Fragment.Mode, n ≠ .code → ¬n.opening <+: b :: rest) :
    lexemes keep .code (b :: rest) = .text [b] :: lexemes keep .code rest := by
  have h₁ : b ≠ Byte.doubleQuote := by
    rintro rfl
    exact h (.literal .double) (by simp) ⟨rest, rfl⟩
  have h₂ : b ≠ Byte.singleQuote := by
    rintro rfl
    exact h (.literal .single) (by simp) ⟨rest, rfl⟩
  by_cases h₃ : b = Byte.slash
  · subst h₃
    cases rest with
    | nil => rfl
    | cons d rest =>
      have h₄ : d ≠ Byte.slash := by
        rintro rfl
        exact h .lineComment (by simp) ⟨rest, rfl⟩
      have h₅ : d ≠ Byte.star := by
        rintro rfl
        exact h .blockComment (by simp) ⟨rest, rfl⟩
      rw [lexemes, if_neg h₁, if_neg h₂, if_pos rfl]
      exact (if_neg h₄).trans (if_neg h₅)
  · conv_lhs => rw [lexemes.eq_def]
    simp only [if_neg h₁, if_neg h₂, if_neg h₃]

/-- A byte that does not end a literal or comment goes into its body. -/
theorem lexemes_body (hm : m ≠ .code) {b : UInt8} {rest : Bytes}
    (h : m.Continues seen (b :: rest)) :
    lexemes keep (ofMode m seen) (b :: rest) = lexemes keep (ofMode m (b :: seen)) rest := by
  have hclose := h.2 hm
  cases m with
  | code => exact absurd rfl hm
  | literal q =>
    have hopen : ¬(b = q.byte && !behindEscape seen) := by
      intro hb
      rw [Bool.and_eq_true] at hb
      obtain rfl : b = q.byte := of_decide_eq_true hb.1
      exact hclose hb.2 ⟨rest, rfl⟩
    rw [ofMode, lexemes, if_neg hopen, ofMode, behindEscape_cons, List.reverse_cons]
  | lineComment =>
    have hopen : b ≠ Byte.newline := by
      rintro rfl
      exact hclose rfl ⟨rest, rfl⟩
    rw [ofMode, lexemes, if_neg hopen, ofMode, List.reverse_cons]
  | blockComment =>
    rw [ofMode, ofMode, List.reverse_cons]
    by_cases hb : b = Byte.star
    · subst hb
      cases rest with
      | nil => rfl
      | cons d rest =>
        have hd : d ≠ Byte.slash := by
          rintro rfl
          exact hclose rfl ⟨rest, rfl⟩
        rw [lexemes, if_pos rfl]
        exact if_neg hd
    · conv_lhs => rw [lexemes.eq_def]
      simp only [if_neg hb]

theorem joinTexts_pending_cons (keep : Keep) (seen : Bytes) (b : UInt8) (rest : List Lexeme) :
    Lexeme.joinTexts (pending keep .code (b :: seen) ++ rest) =
      Lexeme.joinTexts (pending keep .code seen ++ .text [b] :: rest) := by
  cases seen with
  | nil => rfl
  | cons c seen =>
    have hcode : ∀ d t, pending keep .code (d :: t) = [.text (d :: t).reverse] := fun d t => rfl
    rw [hcode, hcode, List.singleton_append, List.singleton_append, Lexeme.joinTexts_text_text,
      List.reverse_cons]

end Forward

/-- **The fragments of a text and the forward reader leave the same**, from every place on. -/
theorem joinTexts_splitFrom (keep : Keep) (m : Fragment.Mode) (seen rest : Bytes) :
    Lexeme.joinTexts ((Fragment.splitFrom m seen rest).flatMap (Fragment.stripped keep)) =
      Lexeme.joinTexts
        (Forward.pending keep m seen ++ Forward.lexemes keep (.ofMode m seen) rest) := by
  induction m, seen, rest using Fragment.reader_induction with
  | done m seen => rw [Fragment.splitFrom_nil, Forward.lexemes_nil]
  | opens m seen rest hm ih =>
    rw [Fragment.splitFrom_opening hm, List.flatMap_append, Forward.ofMode,
      Forward.lexemes_opening keep hm]
    refine Lexeme.joinTexts_append_congr _ ?_
    cases m with
    | code => exact absurd rfl hm
    | _ => exact ih
  | closes m seen rest hm hc ih =>
    rw [Fragment.splitFrom_closing hm hc, List.flatMap_append, Forward.lexemes_closing keep hm hc]
    have hpending : Forward.pending keep m seen = [] := by
      cases m with
      | code => exact absurd rfl hm
      | _ => rfl
    rw [hpending, List.nil_append]
    exact Lexeme.joinTexts_append_congr _ ih
  | reads m seen b rest hcont ih =>
    rw [Fragment.splitFrom_reading hcont, ih]
    by_cases hm : m = .code
    · subst hm
      rw [Forward.joinTexts_pending_cons, Forward.ofMode, Forward.ofMode,
        Forward.lexemes_code (hcont.1 rfl)]
    · rw [Forward.lexemes_body hm hcont]
      cases m with
      | code => exact absurd rfl hm
      | _ => rfl

/-- The forward reader leaves the stripped lexemes of a text. -/
theorem strippedLexemes_eq (keep : Keep) (text : Bytes) :
    strippedLexemes keep text = Lexeme.joinTexts (Forward.lexemes keep .code text) := by
  rw [strippedLexemes, Fragment.split_eq_splitFrom]
  exact joinTexts_splitFrom keep .code [] text

/-! ### Stripping -/

namespace Registry

/-- The stripped text of a source text that is read in one pass, without looking back, and the
registry with the values that were named. -/
def stripForward (r : Registry) (keep : Keep) (text : Bytes) : List Token × Registry :=
  r.assign (Lexeme.joinTexts (Forward.lexemes keep .code text))

/-- **Stripping needs no look back.**  A reader with one flag for each literal leaves the same
tokens and the same registry; its flag tells of each byte of a literal what counting the
backslashes before it in the whole text does. -/
theorem strip_eq_stripForward (r : Registry) (keep : Keep) (text : Bytes) :
    r.strip keep text = r.stripForward keep text ∧
      ∀ before q body rest,
        isEscaped (before ++ Quote.byte q :: body ++ rest) (before ++ q.byte :: body).length =
          body.foldl escapes false := by
  refine ⟨?_, isEscaped_literal⟩
  rw [strip, strippedLexemes_eq, stripForward]

end Registry

end Lexicon
