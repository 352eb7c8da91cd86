import Lexicon.Proofs.Numbering
import Lexicon.Proofs.Settled

/-!
# Texts that are read one after the other

A text that ends outside literals and comments may be followed by any other text: the reader goes on
as if it had started with the second one, unless a comment starts with the last byte of the first.
A body that holds nothing that closes it is read up to its delimiter.  Together this tells what a
literal or comment leaves wherever it stands, and if it is removed, that does not depend on its
body: nothing of what is removed can be seen in the tokens or in the registry.

## Main definitions

* `Fragment.Parted a b` — no comment starts where `a` and `b` meet.
* `Fragment.Mode.Encloses m body` — the first delimiter that closes `body` is the one behind it.
* `Quote.Encloses q body`, `IsBlockBody body` — the same for a literal and for a block comment.
* `Session.Alike s keep c t u` — a session maps and tokenizes `t` and `u` alike, and names no value
  of category `c`.

## Main results

* `Forward.lexemes_append` — the reader goes on behind a text as if it started there.
* `Forward.lexemes_enclosed` — what a body leaves that is read up to its delimiter.
* `strippedLexemes_enclosed` — what is left of a text with a literal or comment in it.
* `Session.alike_of_removed` — **removed literals and comments do not leak.**
-/

namespace Lexicon

/-! ### Going on behind a text -/

namespace Fragment

/-- No comment starts with the last byte of the first text and the first byte of the second. -/
def Parted (a b : Bytes) : Prop :=
  Byte.slash ∈ a.getLast? → ∀ c ∈ b.head?, c ≠ Byte.slash ∧ c ≠ Byte.star

/-- A text of which the end is parted from what follows. -/
theorem Parted.of_append {t a b : Bytes} (h : Parted (t ++ a) b) : Parted a b :=
  fun ha => h (List.mem_getLast?_append_of_mem_getLast? ha)

/-- Whether a comment starts at an opening delimiter does not depend on what stands behind it. -/
theorem Parted.append_right {a : Bytes} {m : Mode} (h : Parted a m.opening) (hm : m ≠ .code)
    (t : Bytes) : Parted a (m.opening ++ t) := by
  intro ha c hc
  apply h ha
  cases m with
  | code => exact absurd rfl hm
  | _ => exact hc

/-- What the end of the text leaves is closed in code only. -/
theorem mode_eq_code_of_ofEnd {m : Mode} {seen : Bytes} (h : ∀ f ∈ ofEnd m seen, f.isClosed) :
    m = .code := by
  cases m with
  | code => rfl
  | _ =>
    have hclosed := h _ (List.mem_singleton_self _)
    simp [isClosed] at hclosed

end Fragment

namespace Forward

open Fragment

variable {keep : Keep} {m : Mode}

/-- **The reader goes on behind a text as if it started there**, if the text ends in code and no
comment starts with its last byte. -/
theorem lexemes_append (seen a : Bytes) {b : Bytes} (ha : ∀ f ∈ splitFrom m seen a, f.isClosed)
    (hseam : Parted a b) :
    lexemes keep (ofMode m seen) (a ++ b) =
      lexemes keep (ofMode m seen) a ++ lexemes keep .code b := by
  induction m, seen, a using reader_induction with
  | done m seen =>
    rw [splitFrom_nil] at ha
    obtain rfl := mode_eq_code_of_ofEnd ha
    rfl
  | opens m seen rest hm ih =>
    rw [splitFrom_opening hm] at ha
    rw [ofMode, List.append_assoc, lexemes_opening keep hm, lexemes_opening keep hm]
    exact ih (fun f hf => ha f (List.mem_append_right _ hf)) hseam.of_append
  | closes m seen rest hm hc ih =>
    rw [splitFrom_closing hm hc] at ha
    rw [List.append_assoc, lexemes_closing keep hm hc, lexemes_closing keep hm hc,
      List.append_assoc]
    exact congrArg (_ ++ ·)
      (ih (fun f hf => ha f (List.mem_append_right _ hf)) hseam.of_append)
  | reads m seen c rest hcont ih =>
    rw [splitFrom_reading hcont] at ha
    have hlater := ih ha (hseam.of_append (t := [c]))
    have hcont' : m.Continues seen (c :: (rest ++ b)) := by
      cases rest with
      | cons d rest => exact hcont.of_take_one rfl
      | nil =>
        -- the reader is in code, and no comment starts with the last byte
        rw [splitFrom_nil] at ha
        obtain rfl := mode_eq_code_of_ofEnd ha
        obtain ⟨hquote, -⟩ := forall_not_opening_iff.mp (hcont.1 rfl)
        refine ⟨fun _ => forall_not_opening_iff.mpr ⟨hquote, ?_⟩, fun h => absurd rfl h⟩
        rintro rfl
        exact hseam rfl
    by_cases hm : m = .code
    · subst hm
      rw [List.cons_append, ofMode, lexemes_code (hcont.1 rfl), lexemes_code (hcont'.1 rfl)]
      exact congrArg (_ :: ·) hlater
    · rw [List.cons_append, lexemes_body hm hcont, lexemes_body hm hcont']
      exact hlater

end Forward

/-! ### Reading a body -/

namespace Fragment

/-- `m.Encloses body` says that of all the delimiters that close a body in mode `m`, the first one
after its start is the one behind it. -/
structure Mode.Encloses (m : Mode) (body : Bytes) : Prop where
  not_closing : ∀ pos < body.length, m.canClose (body.take pos).reverse →
    ¬m.closing <+: (body ++ m.closing).drop pos
  canClose : m.canClose body.reverse

end Fragment

namespace Forward

open Fragment

variable {keep : Keep} {m : Mode}

/-- **A body is read up to its delimiter**, and leaves what its fragment does. -/
theorem lexemes_enclosed (hm : m ≠ .code) {body : Bytes} (h : m.Encloses body) (rest : Bytes) :
    lexemes keep (ofMode m []) (body ++ (m.closing ++ rest)) =
      (ofClosing m body.reverse).flatMap (stripped keep) ++ lexemes keep .code rest := by
  have hfrom : ∀ v u, m.Encloses (u ++ v) →
      lexemes keep (ofMode m u.reverse) (v ++ (m.closing ++ rest)) =
        (ofClosing m (u ++ v).reverse).flatMap (stripped keep) ++ lexemes keep .code rest := by
    intro v
    induction v with
    | nil =>
      intro u hu
      rw [List.append_nil] at hu ⊢
      exact lexemes_closing keep hm hu.canClose rest
    | cons b v ih =>
      intro u hu
      have hcont : m.Continues u.reverse (b :: (v ++ (m.closing ++ rest))) := by
        refine ⟨fun h => absurd h hm, fun _ hc hp => ?_⟩
        have hno := hu.not_closing u.length (by simp)
        rw [List.take_left, List.append_assoc, List.drop_left] at hno
        -- whether the delimiter stands here does not depend on what follows the body
        apply hno hc
        have hlonger : (b :: v) ++ m.closing <+: b :: (v ++ (m.closing ++ rest)) := by
          rw [← List.append_assoc v]
          exact List.prefix_append _ rest
        apply List.prefix_of_prefix_length_le hp hlonger
        rw [List.length_append]
        omega
      have hlater := ih (u ++ [b]) (by rwa [List.append_assoc])
      rw [List.reverse_append, List.reverse_singleton, List.singleton_append,
        List.append_assoc, List.singleton_append] at hlater
      rw [List.cons_append, lexemes_body hm hcont]
      exact hlater
  exact hfrom body [] h

end Forward

/-- `q.Encloses body` says that no quote in `body` closes the literal, and that the one behind it
does: the former stand behind an escape and the latter does not. -/
structure Quote.Encloses (q : Quote) (body : Bytes) : Prop where
  escaped : ∀ pos, (h : pos < body.length) → body[pos] = q.byte → isEscaped body pos
  not_escaped : isEscaped body body.length = false

/-- Nothing closes a block comment with this body before the delimiter behind it. -/
def IsBlockBody (body : Bytes) : Prop :=
  ∀ pos < body.length, ¬blockCommentEnd <+: (body ++ blockCommentEnd).drop pos

instance (body : Bytes) : Decidable (IsBlockBody body) :=
  inferInstanceAs (Decidable (∀ pos < body.length, _))

namespace Fragment.Mode

variable {q : Quote} {body : Bytes}

/-- The first byte behind a position in a body. -/
theorem getElem_eq_of_head {b : UInt8} {t : Bytes} {pos : Nat} (hpos : pos < body.length)
    (h : [b] <+: (body ++ t).drop pos) : body[pos] = b := by
  obtain ⟨rest, heq⟩ := h
  rw [List.drop_append_of_le_length (by omega), List.drop_eq_getElem_cons hpos] at heq
  exact (List.cons.inj heq).1.symm

theorem encloses_literal (h : q.Encloses body) : (literal q).Encloses body := by
  constructor
  · intro pos hpos hc hp
    -- the quote would have to be escaped, and then it does not close
    have hesc := h.escaped pos hpos (getElem_eq_of_head hpos hp)
    rw [isEscaped] at hesc
    simp [Mode.canClose, hesc] at hc
  · have hesc := h.not_escaped
    rw [isEscaped, List.take_length] at hesc
    simp [Mode.canClose, hesc]

theorem encloses_blockComment (h : IsBlockBody body) : blockComment.Encloses body :=
  ⟨fun pos hpos _ => h pos hpos, rfl⟩

theorem encloses_lineComment (h : Byte.newline ∉ body) : lineComment.Encloses body := by
  constructor
  · intro pos hpos _ hp
    apply h
    rw [← getElem_eq_of_head hpos hp]
    exact List.getElem_mem hpos
  · rfl

end Fragment.Mode

/-! ### A text with a literal or comment in it -/

section Enclosed

open Fragment

variable {m : Mode} {keep : Keep} {a x y : Bytes}

/-- **What is left of a text with a literal or comment in it**, if the text before it ends in code
and does not run into it: what the text before it leaves, what the literal or comment leaves, and
what the text behind it leaves. -/
theorem strippedLexemes_enclosed (hm : m ≠ .code) (ha : endsInCode a) (h : m.Encloses x)
    (b : Bytes) (hseam : Parted a (m.opening ++ (x ++ (m.closing ++ b)))) :
    strippedLexemes keep (a ++ (m.opening ++ (x ++ (m.closing ++ b)))) =
      Lexeme.joinTexts (Forward.lexemes keep .code a ++
        ((ofClosing m x.reverse).flatMap (stripped keep) ++ Forward.lexemes keep .code b)) := by
  have happend : Forward.lexemes keep .code (a ++ _) = _ :=
    Forward.lexemes_append [] a (isClosed_of_endsInCode ha) hseam
  rw [strippedLexemes_eq, happend, Forward.ofMode, Forward.lexemes_opening keep hm,
    Forward.lexemes_enclosed hm h]

/-- The category of the value that a literal or comment is named as. -/
def Fragment.Mode.category : Mode → Category
  | .literal _ => .literal
  | _ => .comment

/-- A literal or comment that is not kept leaves the same whatever its body is. -/
theorem stripped_ofClosing_congr (hkeep : keep.names m.category = false) (seen seen' : Bytes) :
    (ofClosing m seen).flatMap (stripped keep) = (ofClosing m seen').flatMap (stripped keep) := by
  obtain ⟨literals, comments⟩ := keep
  cases m with
  | code => rfl
  | literal q =>
    obtain rfl : literals = false := hkeep
    rfl
  | lineComment =>
    obtain rfl : comments = false := hkeep
    rfl
  | blockComment =>
    obtain rfl : comments = false := hkeep
    rfl

/-- **What is left of a text does not depend on the body of what is not kept.** -/
theorem strippedLexemes_congr (hm : m ≠ .code) (hkeep : keep.names m.category = false)
    (ha : endsInCode a) (hseam : Parted a m.opening) (hx : m.Encloses x) (hy : m.Encloses y)
    (b : Bytes) :
    strippedLexemes keep (a ++ (m.opening ++ x ++ m.closing) ++ b) =
      strippedLexemes keep (a ++ (m.opening ++ y ++ m.closing) ++ b) := by
  simp only [List.append_assoc]
  rw [strippedLexemes_enclosed hm ha hx b (hseam.append_right hm _),
    strippedLexemes_enclosed hm ha hy b (hseam.append_right hm _), stripped_ofClosing_congr hkeep]

end Enclosed

/-! ### What is removed cannot be seen -/

/-- Mapping leaves the table of a category alone that is neither kept nor that of a pass. -/
theorem Registry.table_map {keep : Keep} {c : Category} (hkeep : keep.names c = false)
    (hpass : ∀ p : Pass, c ≠ p.category) (r : Registry) (l : Language) (text : Bytes) :
    (r.map l keep text).2.table c = r.table c := by
  have hother : ∀ p ∈ Pass.all, c ≠ p.category := fun p _ => hpass p
  obtain ⟨-, htable⟩ := numbersOf_groupAll (l := l) hother (r.scan l keep text).2
    (r.scan l keep text).1
  rw [map, reassemble, htable]
  exact table_assign (named_notMem_strippedLexemes hkeep text) r

namespace Session

/-- `s.Alike keep c t u` says that the session `s` makes the same of `t` and of `u`, with the same
session afterwards, and that its values of category `c` stay as they are. -/
structure Alike (s : Session) (keep : Keep) (c : Category) (t u : Bytes) : Prop where
  map : s.map keep t = s.map keep u
  tokenize : s.tokenize t = s.tokenize u
  table_map : (s.perform (.map keep t)).registry.table c = s.registry.table c
  table_tokenize : (s.perform (.tokenize t)).registry.table c = s.registry.table c

variable {keep : Keep} {c : Category} {t u : Bytes}

theorem map_congr (h : strippedLexemes keep t = strippedLexemes keep u) (s : Session) :
    s.map keep t = s.map keep u := by
  unfold Session.map Registry.map Registry.scan Registry.strip
  rw [h]

theorem tokenize_congr (h : strippedLexemes {} t = strippedLexemes {} u) (s : Session) :
    s.tokenize t = s.tokenize u := by
  unfold Session.tokenize Registry.tokenize Registry.strip
  rw [h]

/-- What leaves the same is handled alike, and nothing is named that is neither kept nor of a
pass. -/
theorem alike_of_strippedLexemes (hkeep : keep.names c = false) (hpass : ∀ p : Pass, c ≠ p.category)
    (h : strippedLexemes keep t = strippedLexemes keep u)
    (hplain : strippedLexemes {} t = strippedLexemes {} u) (s : Session) :
    s.Alike keep c t u := by
  constructor
  · exact map_congr h s
  · exact tokenize_congr hplain s
  · cases hmap : s.map keep t with
    | error e => rw [perform_map_of_error hmap]
    | ok p =>
      obtain ⟨l, -, -, hs⟩ := exists_language_of_map hmap
      rw [perform_map_of_ok hmap, hs]
      exact Registry.table_map hkeep hpass s.registry l t
  · rw [perform, tokenize_snd]

open Fragment

/-- **A literal or comment that is not kept is handled alike whatever its body is.** -/
theorem alike_enclosed (s : Session) {m : Mode} (hm : m ≠ .code)
    (hkeep : keep.names m.category = false) {a x y : Bytes} (ha : endsInCode a)
    (hseam : Parted a m.opening) (hx : m.Encloses x) (hy : m.Encloses y) (b : Bytes) :
    s.Alike keep m.category (a ++ (m.opening ++ x ++ m.closing) ++ b)
      (a ++ (m.opening ++ y ++ m.closing) ++ b) := by
  have hnone : ∀ d, Keep.names {} d = false := by
    intro d
    cases d <;> rfl
  have hpass : ∀ p : Pass, m.category ≠ p.category := by
    intro p
    cases m <;> cases p <;> simp [Mode.category, Pass.category]
  exact alike_of_strippedLexemes hkeep hpass (strippedLexemes_congr hm hkeep ha hseam hx hy b)
    (strippedLexemes_congr hm (hnone _) ha hseam hx hy b) s

/-- **Removed literals and comments do not leak.**  Behind a text that ends in code, the body of a
literal or comment that is not kept can be replaced by any other without a difference in the tokens
or in the session, and no value of its category is named. -/
theorem alike_of_removed (s : Session) {a : Bytes} (ha : endsInCode a) (b : Bytes) :
    (∀ (q : Quote) (comments : Bool) (x y : Bytes), q.Encloses x → q.Encloses y →
      s.Alike ⟨false, comments⟩ .literal (a ++ (literal q x).source ++ b)
        (a ++ (literal q y).source ++ b)) ∧
    (a.getLast? ≠ some Byte.slash → ∀ literals : Bool,
      (∀ x y, IsBlockBody x → IsBlockBody y →
        s.Alike ⟨literals, false⟩ .comment (a ++ (blockComment x).source ++ b)
          (a ++ (blockComment y).source ++ b)) ∧
      ∀ x y, Byte.newline ∉ x → Byte.newline ∉ y →
        s.Alike ⟨literals, false⟩ .comment (a ++ (lineComment x true).source ++ b)
          (a ++ (lineComment y true).source ++ b)) := by
  constructor
  · intro q comments x y hx hy
    have hseam : Parted a (Mode.literal q).opening := by
      rintro - c hc
      obtain rfl : q.byte = c := Option.some.inj hc
      exact quote_ne q
    exact alike_enclosed s (m := .literal q) (by simp) rfl ha hseam (Mode.encloses_literal hx)
      (Mode.encloses_literal hy) b
  · intro hslash literals
    have hseam : ∀ t, Parted a t := fun t h => absurd h hslash
    constructor
    · intro x y hx hy
      exact alike_enclosed s (m := .blockComment) (by simp) rfl ha (hseam _)
        (Mode.encloses_blockComment hx) (Mode.encloses_blockComment hy) b
    · intro x y hx hy
      exact alike_enclosed s (m := .lineComment) (by simp) rfl ha (hseam _)
        (Mode.encloses_lineComment hx) (Mode.encloses_lineComment hy) b

/-- A literal with an escaped quote and a line comment in it, and comments with a quote and with
stars in them. -/
theorem alike_of_removed_quotes :
    (start .java).Alike ⟨false, true⟩ .literal
        (ascii "x=" ++ (literal .double (ascii "a\\\"//b")).source ++ ascii ";//c")
        (ascii "x=" ++ (literal .double []).source ++ ascii ";//c") ∧
      (start .java).Alike ⟨true, false⟩ .comment
        (ascii "x=" ++ (blockComment (ascii "/*\"*")).source ++ ascii "'y'")
        (ascii "x=" ++ (blockComment []).source ++ ascii "'y'") ∧
      (start .java).Alike ⟨true, false⟩ .comment
        (ascii "x=" ++ (lineComment (ascii "'*/") true).source ++ ascii "'y'")
        (ascii "x=" ++ (lineComment [] true).source ++ ascii "'y'") := by
  have hcode : endsInCode (ascii "x=") := by decide +kernel
  have hslash : (ascii "x=").getLast? ≠ some Byte.slash := by decide
  obtain ⟨hliteral, -⟩ := alike_of_removed (start .java) hcode (ascii ";//c")
  obtain ⟨-, hcomments⟩ := alike_of_removed (start .java) hcode (ascii "'y'")
  obtain ⟨hblock, hline⟩ := hcomments hslash true
  refine ⟨?_, ?_, ?_⟩
  · exact hliteral .double true _ _ ⟨by decide, by decide⟩ ⟨by decide, by decide⟩
  · exact hblock _ _ (by decide) (by decide)
  · exact hline _ _ (by decide) (by decide)

end Session

end Lexicon
