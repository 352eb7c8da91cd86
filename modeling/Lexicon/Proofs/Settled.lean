import Lexicon.Proofs.Escapes

/-!
# Settled text

What stripping takes out brings bytes next to each other that were apart in the source.  Still no
comment starts where they meet, and no quote loses the other one of its pair: a comment starts at
its first slash, so that code in front of it never ends in one, and a quote of the source is always
part of a literal, which leaves both of its quotes or none.  Stripped text is *settled*: stripping
it again leaves it as it is.

## Main definitions

* `Settled t` — quotes stand in `t` as pairs with nothing between them, and no comment starts in it.
* `Uncommented t` — no comment starts in `t`.
* `Fragment.IsSettled f` — the fragment `f` is code, or a literal without a body.
* `Forward.shown r keep state rest` — what the forward reader leaves of the rest, displayed.

## Main results

* `Settled.isSettled_of_mem` — settled text is split into settled fragments.
* `Forward.settled_shown` — what the forward reader leaves is settled, from every place on.
* `Registry.strip_render` — **stripping stripped text leaves it as it is.**
-/

namespace Lexicon

/-! ### Bytes at which nothing starts -/

/-- Where nothing opens stands a byte that is no quote, and no slash before a slash or star. -/
theorem Fragment.forall_not_opening_iff {b : UInt8} {rest : Bytes} :
    (∀ n : Mode, n ≠ .code → ¬n.opening <+: b :: rest) ↔
      (∀ q : Quote, b ≠ q.byte) ∧
        (b = Byte.slash → ∀ c ∈ rest.head?, c ≠ Byte.slash ∧ c ≠ Byte.star) := by
  constructor
  · intro h
    refine ⟨?_, ?_⟩
    · rintro q rfl
      exact h (.literal q) (by simp) ⟨rest, rfl⟩
    · rintro rfl c hc
      obtain ⟨rest, rfl⟩ := List.head?_eq_some_iff.mp hc
      constructor
      · rintro rfl
        exact h .lineComment (by simp) ⟨rest, rfl⟩
      · rintro rfl
        exact h .blockComment (by simp) ⟨rest, rfl⟩
  · rintro ⟨hquote, hslash⟩ n hn ⟨rest', heq⟩
    cases n with
    | code => exact hn rfl
    | literal q => exact hquote q (List.cons.inj heq).1.symm
    | lineComment =>
      obtain ⟨hb, hrest⟩ := List.cons.inj heq
      exact (hslash hb.symm Byte.slash (by rw [← hrest]; rfl)).1 rfl
    | blockComment =>
      obtain ⟨hb, hrest⟩ := List.cons.inj heq
      exact (hslash hb.symm Byte.star (by rw [← hrest]; rfl)).2 rfl

/-- A byte that is part of no delimiter of a literal or comment, apart from the newline. -/
structure Inert (b : UInt8) : Prop where
  ne_doubleQuote : b ≠ Byte.doubleQuote
  ne_singleQuote : b ≠ Byte.singleQuote
  ne_slash : b ≠ Byte.slash
  ne_star : b ≠ Byte.star

theorem Inert.ne_quote {b : UInt8} (h : Inert b) (q : Quote) : b ≠ q.byte := by
  cases q with
  | double => exact h.ne_doubleQuote
  | single => exact h.ne_singleQuote

theorem inert_newline : Inert Byte.newline := ⟨by decide, by decide, by decide, by decide⟩

theorem quote_ne (q : Quote) : q.byte ≠ Byte.slash ∧ q.byte ≠ Byte.star := by
  cases q <;> decide

theorem inert_of_isDigit {b : UInt8} (h : Byte.isDigit b) : Inert b := by
  constructor <;> rintro rfl <;> revert h <;> decide

theorem Bytes.isDigit_of_mem_decimal {n : Nat} {b : UInt8} (h : b ∈ Bytes.decimal n) :
    Byte.isDigit b := by
  have hdigit : ∀ m < 10, Byte.isDigit (digit m) := by decide
  fun_induction Bytes.decimal n with
  | case1 n hn =>
    rw [List.mem_singleton.mp h]
    exact hdigit n hn
  | case2 n hn ih =>
    rcases List.mem_append.mp h with h | h
    · exact ih h
    · rw [List.mem_singleton.mp h]
      exact hdigit (n % 10) (by omega)

/-- The written form of a key holds no quote, and no part of a comment's delimiter. -/
theorem Key.inert_of_mem_display {k : Key} {b : UInt8} (h : b ∈ k.display) : Inert b := by
  rcases List.mem_cons.mp h with rfl | h
  · exact ⟨by decide, by decide, by decide, by decide⟩
  rcases List.mem_cons.mp h with rfl | h
  · cases k.category <;> exact ⟨by decide, by decide, by decide, by decide⟩
  · exact inert_of_isDigit (Bytes.isDigit_of_mem_decimal h)

/-! ### Settled text -/

/-- `Settled t` says that the quotes of `t` stand in pairs with nothing between them, and that no
comment starts in it. -/
inductive Settled : Bytes → Prop
  | nil : Settled []
  /-- A byte that is no quote, and no slash before a slash or star. -/
  | byte {b : UInt8} {t : Bytes} (hquote : ∀ q : Quote, b ≠ q.byte)
      (hslash : b = Byte.slash → ∀ c ∈ t.head?, c ≠ Byte.slash ∧ c ≠ Byte.star) :
      Settled t → Settled (b :: t)
  /-- The quotes of a literal without a body. -/
  | quotes (q : Quote) {t : Bytes} : Settled t → Settled (q.byte :: q.byte :: t)

theorem Settled.inert_append {t u : Bytes} (hu : Settled u) (ht : ∀ b ∈ t, Inert b) :
    Settled (t ++ u) := by
  induction t with
  | nil => exact hu
  | cons b t ih =>
    obtain ⟨hb, ht⟩ := List.forall_mem_cons.mp ht
    exact .byte hb.ne_quote (fun h => absurd h hb.ne_slash) (ih ht)

/-- No comment starts in a text. -/
def Uncommented (t : Bytes) : Prop := ¬lineCommentStart <:+: t ∧ ¬blockCommentStart <:+: t

theorem uncommented_nil : Uncommented [] := by
  constructor
  · intro h
    exact absurd (List.eq_nil_of_infix_nil h) (by simp [lineCommentStart])
  · intro h
    exact absurd (List.eq_nil_of_infix_nil h) (by simp [blockCommentStart])

/-- One more byte starts no comment, unless it is a slash before a slash or star. -/
theorem Uncommented.cons {b : UInt8} {t : Bytes} (h : Uncommented t)
    (hb : b = Byte.slash → ∀ c ∈ t.head?, c ≠ Byte.slash ∧ c ≠ Byte.star) :
    Uncommented (b :: t) := by
  constructor
  · intro hline
    rcases List.infix_cons_iff.mp hline with ⟨u, heq⟩ | hline
    · obtain ⟨hslash, htail⟩ := List.cons.inj heq
      exact (hb hslash.symm Byte.slash (by rw [← htail]; rfl)).1 rfl
    · exact h.1 hline
  · intro hblock
    rcases List.infix_cons_iff.mp hblock with ⟨u, heq⟩ | hblock
    · obtain ⟨hslash, htail⟩ := List.cons.inj heq
      exact (hb hslash.symm Byte.star (by rw [← htail]; rfl)).2 rfl
    · exact h.2 hblock

theorem Uncommented.of_infix {t u : Bytes} (h : Uncommented u) (hsub : t <:+: u) :
    Uncommented t :=
  ⟨fun hline => h.1 (hline.trans hsub), fun hblock => h.2 (hblock.trans hsub)⟩

theorem Settled.uncommented {t : Bytes} (h : Settled t) : Uncommented t := by
  induction h with
  | nil => exact uncommented_nil
  | byte _ hslash _ ih => exact ih.cons hslash
  | quotes q _ ih =>
    have hq : q.byte ≠ Byte.slash := (quote_ne q).1
    exact (ih.cons fun h => absurd h hq).cons fun h => absurd h hq

/-! ### The fragments of settled text -/

namespace Fragment

/-- The fragment is code, or a literal without a body. -/
def IsSettled (f : Fragment) : Prop := (∃ t, f = .code t) ∨ ∃ q, f = .literal q []

/-- With nothing kept, a settled fragment leaves the text that it came from. -/
theorem IsSettled.stripped {f : Fragment} (h : f.IsSettled) : f.stripped {} = [.text f.source] := by
  obtain ⟨t, rfl⟩ | ⟨q, rfl⟩ := h <;> rfl

theorem isSettled_of_mem_ofEnd {seen : Bytes} {f : Fragment} (h : f ∈ ofEnd .code seen) :
    f.IsSettled := by
  cases seen with
  | nil => simp [ofEnd] at h
  | cons b seen =>
    rw [ofEnd, List.mem_singleton] at h
    exact .inl ⟨_, h⟩

end Fragment

open Fragment in
theorem Settled.isSettled_of_mem_splitFrom {t seen : Bytes} {f : Fragment} (h : Settled t)
    (hf : f ∈ splitFrom .code seen t) : f.IsSettled := by
  induction h generalizing seen with
  | nil =>
    rw [splitFrom_nil] at hf
    exact isSettled_of_mem_ofEnd hf
  | @byte b t hquote hslash _ ih =>
    have hcont : Mode.Continues .code seen (b :: t) :=
      ⟨fun _ => forall_not_opening_iff.mpr ⟨hquote, hslash⟩, fun h => absurd rfl h⟩
    rw [splitFrom_reading hcont] at hf
    exact ih hf
  | @quotes q t _ ih =>
    have hopen : splitFrom .code seen (q.byte :: q.byte :: t) = _ :=
      splitFrom_opening (m := .literal q) (by simp) seen (q.byte :: t)
    have hclose : splitFrom (.literal q) [] (q.byte :: t) = _ :=
      splitFrom_closing (m := .literal q) (by simp) rfl t
    rw [hopen, hclose, List.mem_append, List.mem_append] at hf
    rcases hf with hf | hf | hf
    · exact isSettled_of_mem_ofEnd hf
    · exact .inr ⟨q, List.mem_singleton.mp hf⟩
    · exact ih hf

/-- **Settled text is split into settled fragments.** -/
theorem Settled.isSettled_of_mem {t : Bytes} {f : Fragment} (h : Settled t)
    (hf : f ∈ Fragment.split t) : f.IsSettled := by
  rw [Fragment.split_eq_splitFrom] at hf
  exact h.isSettled_of_mem_splitFrom hf

/-! ### What is left, displayed -/

theorem render_append (ts us : List Token) : render (ts ++ us) = render ts ++ render us :=
  List.flatMap_append

/-- Texts that touch are displayed as they are when joined. -/
theorem Registry.render_assign_joinTexts (r : Registry) (xs : List Lexeme) :
    render (r.assign (Lexeme.joinTexts xs)).1 = render (r.assign xs).1 := by
  induction xs generalizing r with
  | nil => rfl
  | cons x xs ih =>
    cases x with
    | named c v => exact congrArg (_ ++ ·) (ih _)
    | kept t =>
      cases t with
      | key k => exact congrArg (_ ++ ·) (ih r)
      | text t =>
        have hxs : render (r.assign (.text t :: xs)).1 = t ++ render (r.assign xs).1 := rfl
        rw [hxs, ← ih r]
        rcases Lexeme.joinTexts_text t xs with ⟨u, ys, h, hj⟩ | ⟨-, hj⟩
        · rw [hj, h]
          exact List.append_assoc _ _ _
        · rw [hj]
          rfl

/-- A literal or comment leaves two quotes, or no quote and no part of a comment's delimiter. -/
theorem Fragment.render_stripped_cases {f : Fragment} (hf : ∀ t, f ≠ .code t) (r : Registry)
    (keep : Keep) :
    (∃ q : Quote, render (r.assign (f.stripped keep)).1 = [q.byte, q.byte]) ∨
      ∀ b ∈ render (r.assign (f.stripped keep)).1, Inert b := by
  have hkey : ∀ c v, ∀ b ∈ render (r.assign [.named c v]).1, Inert b := by
    intro c v b hb
    rw [Registry.assign_named, Registry.assign_nil, render, List.flatMap_singleton] at hb
    exact Key.inert_of_mem_display hb
  obtain ⟨literals, comments⟩ := keep
  cases f with
  | code t => exact absurd rfl (hf t)
  | literal q body =>
    cases literals with
    | false => exact .inl ⟨q, rfl⟩
    | true => exact .inr (hkey _ _)
  | lineComment body ended =>
    cases comments with
    | false => exact .inr (by simp [stripped, render])
    | true =>
      cases ended with
      | false => exact .inr (hkey _ _)
      | true =>
        right
        intro b hb
        have hline : (lineComment body true).stripped ⟨literals, true⟩ =
            [.named .comment (lineCommentStart ++ body ++ [Byte.newline])] ++
              [.text [Byte.newline]] := rfl
        rw [hline, Registry.assign_append, render_append, List.mem_append] at hb
        rcases hb with hb | hb
        · exact hkey _ _ b hb
        · rw [List.mem_singleton.mp hb]
          exact inert_newline
  | blockComment body =>
    cases comments with
    | false =>
      right
      intro b hb
      rw [List.mem_singleton.mp hb]
      exact inert_newline
    | true => exact .inr (hkey _ _)
  | openLiteral q body => exact .inr (by simp [stripped, render])
  | openComment body => exact .inr (by simp [stripped, render])

/-- What a literal or comment leaves in front of settled text is settled. -/
theorem Settled.stripped_append {f : Fragment} (hf : ∀ t, f ≠ .code t) (r : Registry) (keep : Keep)
    {t : Bytes} (h : Settled t) : Settled (render (r.assign (f.stripped keep)).1 ++ t) := by
  rcases Fragment.render_stripped_cases hf r keep with ⟨q, hq⟩ | hinert
  · rw [hq]
    exact h.quotes q
  · exact h.inert_append hinert

namespace Forward

open Fragment

variable {m : Mode} {seen rest : Bytes} {b : UInt8} {keep : Keep}

/-- What the forward reader leaves of the rest, displayed. -/
def shown (r : Registry) (keep : Keep) (state : Forward) (rest : Bytes) : Bytes :=
  render (r.assign (lexemes keep state rest)).1

theorem shown_opening (hm : m ≠ .code) (r : Registry) (rest : Bytes) :
    shown r keep .code (m.opening ++ rest) = shown r keep (ofMode m []) rest := by
  rw [shown, lexemes_opening keep hm, shown]

theorem shown_code (r : Registry) (h : ∀ n : Mode, n ≠ .code → ¬n.opening <+: b :: rest) :
    shown r keep .code (b :: rest) = b :: shown r keep .code rest := by
  rw [shown, lexemes_code h]
  rfl

theorem shown_body (r : Registry) (hm : m ≠ .code) (h : m.Continues seen (b :: rest)) :
    shown r keep (ofMode m seen) (b :: rest) = shown r keep (ofMode m (b :: seen)) rest := by
  rw [shown, lexemes_body hm h, shown]

/-- What ends leaves what its fragment does, and then comes the rest. -/
theorem shown_closing (hm : m ≠ .code) (hc : m.canClose seen) (r : Registry) (rest : Bytes) :
    shown r keep (ofMode m seen) (m.closing ++ rest) =
      render (r.assign ((ofClosing m seen).flatMap (stripped keep))).1 ++
        shown (r.assign ((ofClosing m seen).flatMap (stripped keep))).2 keep .code rest := by
  rw [shown, lexemes_closing keep hm hc, Registry.assign_append, render_append, shown]

/-- A literal leaves a quote or a key first, and neither starts a comment. -/
theorem head?_shown_literal {q : Quote} (hm : m = .literal q) (r : Registry) (seen rest : Bytes) :
    ∀ c ∈ (shown r keep (ofMode m seen) rest).head?, c ≠ Byte.slash ∧ c ≠ Byte.star := by
  induction m, seen, rest using reader_induction with
  | done m seen =>
    subst hm
    intro c hc
    simp [shown, ofMode, lexemes, render] at hc
  | opens m seen rest _ _ => simp at hm
  | closes m seen rest hne hc _ =>
    subst hm
    intro c hhead
    rw [shown_closing hne hc] at hhead
    obtain ⟨literals, comments⟩ := keep
    cases literals with
    | false =>
      obtain rfl : q.byte = c := Option.some.inj hhead
      exact quote_ne q
    | true =>
      obtain rfl : Byte.colon = c := Option.some.inj hhead
      decide
  | reads m seen b rest hcont ih =>
    rw [shown_body r (by simp [hm]) hcont]
    exact ih hm

/-- Text that starts with no slash or star leaves none of them first. -/
theorem head?_shown_code (hslash : b ≠ Byte.slash) (hstar : b ≠ Byte.star) (r : Registry)
    (rest : Bytes) :
    ∀ c ∈ (shown r keep .code (b :: rest)).head?, c ≠ Byte.slash ∧ c ≠ Byte.star := by
  by_cases hq : ∃ q : Quote, b = q.byte
  · obtain ⟨q, rfl⟩ := hq
    have hopen : shown r keep .code (q.byte :: rest) = _ :=
      shown_opening (m := .literal q) (by simp) r rest
    rw [hopen]
    exact head?_shown_literal rfl r [] rest
  · have hcode : ∀ n : Mode, n ≠ .code → ¬n.opening <+: b :: rest :=
      forall_not_opening_iff.mpr ⟨fun q hb => hq ⟨q, hb⟩, fun h => absurd h hslash⟩
    rw [shown_code r hcode]
    intro c hc
    obtain rfl : b = c := Option.some.inj hc
    exact ⟨hslash, hstar⟩

/-- **What the forward reader leaves is settled**, whatever it names, and from every place on. -/
theorem settled_shown (r : Registry) (keep : Keep) (m : Mode) (seen rest : Bytes) :
    Settled (shown r keep (ofMode m seen) rest) := by
  induction m, seen, rest using reader_induction generalizing r with
  | done m seen =>
    cases m with
    | lineComment =>
      -- the end of the text ends a line comment
      have hline := Settled.nil.stripped_append (f := .lineComment seen.reverse false) (by simp) r
        keep
      rwa [List.append_nil] at hline
    | _ => exact .nil
  | opens m seen rest hm ih =>
    rw [ofMode, shown_opening hm]
    exact ih r
  | closes m seen rest hm hc ih =>
    rw [shown_closing hm hc]
    cases m with
    | code => exact absurd rfl hm
    | _ =>
      rw [ofClosing, List.flatMap_singleton]
      exact (ih _).stripped_append (by simp) r keep
  | reads m seen b rest hcont ih =>
    by_cases hm : m = .code
    · subst hm
      have hopen := hcont.1 rfl
      obtain ⟨hquote, hslash⟩ := forall_not_opening_iff.mp hopen
      rw [ofMode, shown_code r hopen]
      refine .byte hquote (fun hb => ?_) (ih r)
      -- what follows a slash in the source follows it in what is left, a literal's key apart
      cases rest with
      | nil => simp [shown, lexemes, render]
      | cons d rest =>
        obtain ⟨hne, hne'⟩ := hslash hb d rfl
        exact head?_shown_code hne hne' r rest
    · rw [shown_body r hm hcont]
      exact ih r

end Forward

/-! ### Stripping twice -/

namespace Registry

/-- Stripped text is what the forward reader leaves. -/
theorem render_strip_eq_shown (r : Registry) (keep : Keep) (text : Bytes) :
    render (r.strip keep text).1 = Forward.shown r keep .code text := by
  rw [strip, strippedLexemes_eq, render_assign_joinTexts, Forward.shown]

/-- **Stripped text is settled**, whatever is kept. -/
theorem settled_strip (r : Registry) (keep : Keep) (text : Bytes) :
    Settled (render (r.strip keep text).1) := by
  rw [render_strip_eq_shown]
  exact Forward.settled_shown r keep .code [] text

/-- Settled text is left as it is. -/
theorem render_strip_of_settled (r : Registry) {t : Bytes} (h : Settled t) :
    render (r.strip {} t).1 = t := by
  have hbody : ∀ fs : List Fragment, (∀ f ∈ fs, f.IsSettled) →
      render (r.assign (fs.flatMap (Fragment.stripped {}))).1 = fs.flatMap Fragment.source := by
    intro fs hfs
    induction fs with
    | nil => rfl
    | cons f fs ih =>
      obtain ⟨hf, hfs⟩ := List.forall_mem_cons.mp hfs
      rw [List.flatMap_cons, List.flatMap_cons, hf.stripped, assign_append, render_append]
      exact congrArg₂ (· ++ ·) (List.append_nil _) (ih hfs)
  rw [strip, strippedLexemes, render_assign_joinTexts,
    hbody _ fun f hf => h.isSettled_of_mem hf, Fragment.flatMap_source_split]

/-- **Stripping stripped text leaves it as it is**, whatever was kept and named.  It holds no
delimiter that opens a comment, and its fragments are code and literals without a body, so that
nothing in it is unterminated. -/
theorem strip_render (r s : Registry) (keep : Keep) (text : Bytes) :
    render (s.strip {} (render (r.strip keep text).1)).1 = render (r.strip keep text).1 ∧
      Uncommented (render (r.strip keep text).1) ∧
      ∀ f ∈ Fragment.split (render (r.strip keep text).1),
        (∃ t, f = .code t) ∨ ∃ q, f = .literal q [] := by
  have hsettled := settled_strip r keep text
  refine ⟨render_strip_of_settled s hsettled, hsettled.uncommented, ?_⟩
  intro f hf
  exact hsettled.isSettled_of_mem hf

/-- A literal and a comment without which the bytes around them would start and end a comment. -/
example : render (empty.strip {} (ascii "a/'b'*//c\n/d")).1 = ascii "a/''*/d" := by
  decide +kernel

end Registry

end Lexicon
