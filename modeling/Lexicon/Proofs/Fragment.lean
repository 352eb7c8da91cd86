import Lexicon.Fragment
import Mathlib.Data.List.Basic

/-!
# Splitting a source text

Whatever the reader of a source text is in the midst of, it does one of four things: it stops at the
end of the text, it opens a literal or comment, it closes one, or it reads one more byte.  The facts
about the fragments of a text are proved along these four cases.

The reader counts the backslashes before a quote in the whole text.  The quote that opened the literal
ends them, so that nothing in front of the current fragment makes a difference, and the facts can be
stated about what the reader has read of this fragment and what remains.

## Main definitions

* `Fragment.Mode.opening`, `Fragment.Mode.closing` — the delimiters of a literal or comment.
* `Fragment.mode f` — the mode of the reader after the fragment `f`.
* `Fragment.splitFrom m seen rest` — the fragments from a place on, with nothing in front of the
  current one.
* `endMode text` — the mode of the reader at the end of a text.

## Main results

* `Fragment.reader_induction` — induction along a text in these steps.
* `Fragment.Stands.isEscaped_eq`, `Fragment.Stands.readAt_eq` — **the whole text tells of a quote
  what the current fragment does.**
* `Fragment.splitFrom_opening`, `splitFrom_closing`, `splitFrom_reading` — what the reader does.
* `Fragment.flatMap_source_split` — **the fragments of a text concatenate to the text.**
* `Fragment.mode_of_mem_init` — only the last fragment can be open at the end of the text.
* `Fragment.split_source_of_mem` — such a fragment is split by itself as it was in the text.
-/

namespace Lexicon
namespace Fragment

/-! ### Delimiters -/

/-- The delimiter that starts a literal or comment. -/
def Mode.opening : Mode → Bytes
  | .code => []
  | .literal q => [q.byte]
  | .lineComment => lineCommentStart
  | .blockComment => blockCommentStart

/-- The delimiter that ends a literal or comment. -/
def Mode.closing : Mode → Bytes
  | .code => []
  | .literal q => [q.byte]
  | .lineComment => [Byte.newline]
  | .blockComment => blockCommentEnd

@[simp] theorem Mode.opening_code : Mode.code.opening = [] := rfl

theorem length_opening_pos {m : Mode} (hm : m ≠ .code) : 0 < m.opening.length := by
  cases m <;> simp_all [Mode.opening, lineCommentStart, blockCommentStart]

theorem length_closing_pos {m : Mode} (hm : m ≠ .code) : 0 < m.closing.length := by
  cases m <;> simp_all [Mode.closing, blockCommentEnd]

/-- The fragment that the end of a literal or comment leaves, given what was read of it in
reverse. -/
def ofClosing : Mode → Bytes → List Fragment
  | .code, _ => []
  | .literal q, seen => [.literal q seen.reverse]
  | .lineComment, seen => [.lineComment seen.reverse true]
  | .blockComment, seen => [.blockComment seen.reverse]

/-- The mode of the reader after a fragment. -/
def mode : Fragment → Mode
  | code _ | literal _ _ | lineComment _ true | blockComment _ => .code
  | lineComment _ false => .lineComment
  | openLiteral q _ => .literal q
  | openComment _ => .blockComment

theorem flatMap_source_ofEnd (m : Mode) (seen : Bytes) :
    (ofEnd m seen).flatMap source = m.opening ++ seen.reverse := by
  cases m with
  | code => cases seen <;> simp [ofEnd, source, Mode.opening]
  | literal q => simp [ofEnd, source, Mode.opening]
  | lineComment => simp [ofEnd, source, Mode.opening]
  | blockComment => simp [ofEnd, source, Mode.opening]

theorem flatMap_source_ofClosing {m : Mode} (hm : m ≠ .code) (seen : Bytes) :
    (ofClosing m seen).flatMap source = m.opening ++ seen.reverse ++ m.closing := by
  cases m with
  | code => exact absurd rfl hm
  | literal q => simp [ofClosing, source, Mode.opening, Mode.closing]
  | lineComment => simp [ofClosing, source, Mode.opening, Mode.closing]
  | blockComment => simp [ofClosing, source, Mode.opening, Mode.closing]

theorem mode_of_mem_ofEnd {m : Mode} {seen : Bytes} {f : Fragment} (h : f ∈ ofEnd m seen) :
    f.mode = m := by
  cases m with
  | code => cases seen <;> simp_all [ofEnd, mode]
  | literal q => simp_all [ofEnd, mode]
  | lineComment => simp_all [ofEnd, mode]
  | blockComment => simp_all [ofEnd, mode]

theorem dropLast_ofEnd (m : Mode) (seen : Bytes) : (ofEnd m seen).dropLast = [] := by
  cases m with
  | code => cases seen <;> rfl
  | literal q => rfl
  | lineComment => rfl
  | blockComment => rfl

theorem eq_singleton_of_mem_ofEnd {m : Mode} {seen : Bytes} {f : Fragment}
    (h : f ∈ ofEnd m seen) : ofEnd m seen = [f] := by
  cases m with
  | code => cases seen <;> simp_all [ofEnd]
  | literal q => simp_all [ofEnd]
  | lineComment => simp_all [ofEnd]
  | blockComment => simp_all [ofEnd]

theorem mode_of_mem_ofClosing {m : Mode} {seen : Bytes} {f : Fragment}
    (h : f ∈ ofClosing m seen) : f.mode = .code := by
  cases m <;> simp_all [ofClosing, mode]

/-! ### The reader -/

/-- Whether the reader takes the closing delimiter for the end: a quote behind an escape is none. -/
def Mode.canClose : Mode → Bytes → Bool
  | .literal _, seen => !behindEscape seen
  | _, _ => true

/-- `m.Continues seen text` says that the current fragment takes in the first byte of `text`: no
literal or comment starts there, and the current one does not end there. -/
def Mode.Continues (m : Mode) (seen text : Bytes) : Prop :=
  (m = .code → ∀ n : Mode, n ≠ .code → ¬n.opening <+: text) ∧
    (m ≠ .code → m.canClose seen → ¬m.closing <+: text)

/-- What the reader makes of a byte does not depend on more than the byte after it. -/
theorem Mode.Continues.of_take_one {m : Mode} {seen rest rest' : Bytes} {b : UInt8}
    (h : m.Continues seen (b :: rest)) (htake : rest'.take 1 = rest.take 1) :
    m.Continues seen (b :: rest') := by
  have hstarts : ∀ p : Bytes, p.length ≤ 2 → p <+: b :: rest' → p <+: b :: rest := by
    intro p hp h'
    have hshort : p <+: (b :: rest').take 2 := List.prefix_take_iff.mpr ⟨h', hp⟩
    rw [List.take_succ_cons, htake, ← List.take_succ_cons] at hshort
    exact hshort.trans (List.take_prefix 2 _)
  have hopening : ∀ n : Mode, n.opening.length ≤ 2 := by
    intro n
    cases n <;> simp [Mode.opening, lineCommentStart, blockCommentStart]
  have hclosing : m.closing.length ≤ 2 := by
    cases m <;> simp [Mode.closing, blockCommentEnd]
  exact ⟨fun hm n hn hp => h.1 hm n hn (hstarts _ (hopening n) hp),
    fun hm hc hp => h.2 hm hc (hstarts _ hclosing hp)⟩

/-- **The four things that a reader does**, as a principle of induction: it stops at the end of the
text, it opens a literal or comment, it closes one, or it reads one more byte. -/
theorem reader_induction {P : Mode → Bytes → Bytes → Prop}
    (done : ∀ m seen, P m seen [])
    (opens : ∀ m seen rest, m ≠ .code → P m [] rest → P .code seen (m.opening ++ rest))
    (closes : ∀ m seen rest, m ≠ .code → m.canClose seen → P .code [] rest →
      P m seen (m.closing ++ rest))
    (reads : ∀ m seen b rest, m.Continues seen (b :: rest) → P m (b :: seen) rest →
      P m seen (b :: rest))
    (m : Mode) (seen rest : Bytes) : P m seen rest := by
  induction hn : rest.length using Nat.strongRecOn generalizing m seen rest with
  | _ n ih =>
    cases rest with
    | nil => exact done m seen
    | cons b rest =>
      by_cases hcont : m.Continues seen (b :: rest)
      · exact reads m seen b rest hcont (ih rest.length (by simp [← hn]) _ _ _ rfl)
      · by_cases hm : m = .code
        · -- code that does not go on ends where something opens
          subst hm
          have hopen : ∃ m : Mode, m ≠ .code ∧ m.opening <+: b :: rest := by
            by_contra hno
            exact hcont ⟨fun _ m hm hp => hno ⟨m, hm, hp⟩, fun h => absurd rfl h⟩
          obtain ⟨m, hm, rest', heq⟩ := hopen
          have hlen := congrArg List.length heq
          have hpos := length_opening_pos hm
          rw [List.length_append] at hlen
          rw [← heq]
          exact opens m seen rest' hm (ih rest'.length (by omega) _ _ _ rfl)
        · -- anything else that does not go on is closed
          have hclose : m.canClose seen ∧ m.closing <+: b :: rest := by
            by_contra hno
            exact hcont ⟨fun h => absurd h hm, fun _ hc hp => hno ⟨hc, hp⟩⟩
          obtain ⟨hc, rest', heq⟩ := hclose
          have hlen := congrArg List.length heq
          have hpos := length_closing_pos hm
          rw [List.length_append] at hlen
          rw [← heq]
          exact closes m seen rest' hm hc (ih rest'.length (by omega) _ _ _ rfl)

/-! ### The steps of the reader -/

section Steps

variable {text : Bytes} {pos : Nat} {m : Mode} {seen : Bytes}

theorem readAt_nil (text : Bytes) (m : Mode) (seen : Bytes) (pos : Nat) :
    readAt text m seen pos [] = ofEnd m seen := by
  rw [readAt]

/-- What a literal or comment starts with ends the code before it. -/
theorem readAt_opening (hm : m ≠ .code) (rest : Bytes) :
    readAt text .code seen pos (m.opening ++ rest) =
      ofEnd .code seen ++ readAt text m [] (pos + m.opening.length) rest := by
  cases m with
  | code => exact absurd rfl hm
  | literal q => cases q <;> cases rest <;> rfl
  | lineComment => rfl
  | blockComment => rfl

/-- What a literal or comment ends with leads the reader back to code. -/
theorem readAt_closing (hm : m ≠ .code) (hc : m.canClose seen)
    (hesc : ∀ q, m = .literal q → isEscaped text pos = behindEscape seen) (rest : Bytes) :
    readAt text m seen pos (m.closing ++ rest) =
      ofClosing m seen ++ readAt text .code [] (pos + m.closing.length) rest := by
  cases m with
  | code => exact absurd rfl hm
  | literal q =>
    show readAt text (.literal q) seen pos (q.byte :: rest) = _
    rw [readAt, if_pos (by simpa [Mode.canClose, hesc q rfl] using hc)]
    rfl
  | lineComment => rfl
  | blockComment => rfl

/-- Any other byte belongs to the current fragment. -/
theorem readAt_reading {b : UInt8} {rest : Bytes} (h : m.Continues seen (b :: rest))
    (hesc : ∀ q, m = .literal q → isEscaped text pos = behindEscape seen) :
    readAt text m seen pos (b :: rest) = readAt text m (b :: seen) (pos + 1) rest := by
  cases m with
  | code =>
    have hopen := h.1 rfl
    have h₁ : b ≠ Byte.doubleQuote := by
      rintro rfl
      exact hopen (.literal .double) (by simp) ⟨rest, rfl⟩
    have h₂ : b ≠ Byte.singleQuote := by
      rintro rfl
      exact hopen (.literal .single) (by simp) ⟨rest, rfl⟩
    cases rest with
    | nil =>
      conv_lhs => rw [readAt, if_neg h₁, if_neg h₂]
      rw [readAt_nil, ite_self]
    | cons d rest =>
      by_cases h₃ : b = Byte.slash
      · subst h₃
        have h₄ : d ≠ Byte.slash := by
          rintro rfl
          exact hopen .lineComment (by simp) ⟨rest, rfl⟩
        have h₅ : d ≠ Byte.star := by
          rintro rfl
          exact hopen .blockComment (by simp) ⟨rest, rfl⟩
        rw [readAt, if_neg h₁, if_neg h₂, if_pos rfl, if_neg h₄, if_neg h₅]
      · conv_lhs => rw [readAt, if_neg h₁, if_neg h₂, if_neg h₃]
  | literal q =>
    -- a quote that does not end the literal is escaped
    have hclose := h.2 (by simp)
    rw [readAt, if_neg]
    intro hq
    rw [hesc q rfl, Bool.and_eq_true] at hq
    obtain rfl : b = q.byte := of_decide_eq_true hq.1
    exact hclose hq.2 ⟨rest, rfl⟩
  | lineComment =>
    have hclose := h.2 (by simp) rfl
    rw [readAt, if_neg]
    rintro rfl
    exact hclose ⟨rest, rfl⟩
  | blockComment =>
    have hclose := h.2 (by simp) rfl
    cases rest with
    | nil =>
      conv_lhs => rw [readAt]
      rw [readAt_nil, ite_self]
    | cons d rest =>
      by_cases hb : b = Byte.star
      · subst hb
        have hd : d ≠ Byte.slash := by
          rintro rfl
          exact hclose ⟨rest, rfl⟩
        rw [readAt, if_pos rfl, if_neg hd]
      · conv_lhs => rw [readAt, if_neg hb]

end Steps

/-! ### Nothing in front of the current fragment counts -/

/-- The quote that opens a literal ends the backslashes before a byte. -/
theorem behindEscape_append_quote (seen : Bytes) (q : Quote) (before : Bytes) :
    behindEscape (seen ++ q.byte :: before) = behindEscape seen := by
  have htake : (seen ++ q.byte :: before).takeWhile (· == Byte.backslash) =
      seen.takeWhile (· == Byte.backslash) := by
    induction seen with
    | nil => cases q <;> rfl
    | cons b seen ih => rw [List.cons_append, List.takeWhile_cons, List.takeWhile_cons, ih]
  rw [behindEscape, htake, behindEscape]

/-- `Stands text pos m seen rest` says that a reader of `text` can stand at `pos` in mode `m`, when
it has read `seen`, in reverse, of the current fragment, and `rest` remains. -/
def Stands (text : Bytes) (pos : Nat) (m : Mode) (seen rest : Bytes) : Prop :=
  ∃ before, text = before ++ (m.opening ++ seen.reverse) ++ rest ∧
    pos = (before ++ (m.opening ++ seen.reverse)).length

namespace Stands

variable {text : Bytes} {pos : Nat} {m : Mode} {seen rest : Bytes}

theorem opening (h : Stands text pos .code seen (m.opening ++ rest)) :
    Stands text (pos + m.opening.length) m [] rest := by
  obtain ⟨before, rfl, rfl⟩ := h
  exact ⟨before ++ seen.reverse, by simp, by simp [Nat.add_assoc]⟩

theorem closing (h : Stands text pos m seen (m.closing ++ rest)) :
    Stands text (pos + m.closing.length) .code [] rest := by
  obtain ⟨before, rfl, rfl⟩ := h
  exact ⟨before ++ (m.opening ++ seen.reverse) ++ m.closing, by simp, by simp [Nat.add_assoc]⟩

theorem reading {b : UInt8} (h : Stands text pos m seen (b :: rest)) :
    Stands text (pos + 1) m (b :: seen) rest := by
  obtain ⟨before, rfl, rfl⟩ := h
  exact ⟨before, by simp, by simp [Nat.add_assoc]⟩

/-- In a literal, the backslashes before a byte are those of the body. -/
theorem isEscaped_eq (h : Stands text pos m seen rest) :
    ∀ q, m = .literal q → isEscaped text pos = behindEscape seen := by
  rintro q rfl
  obtain ⟨before, rfl, rfl⟩ := h
  rw [isEscaped, List.take_left, List.reverse_append, List.reverse_append, List.reverse_reverse,
    List.append_assoc]
  exact behindEscape_append_quote seen q before.reverse

end Stands

/-- The fragments of a text whose reader is in mode `m` and has read `seen`, in reverse, of the
current fragment, with nothing in front of that fragment. -/
def splitFrom (m : Mode) (seen rest : Bytes) : List Fragment :=
  readAt (m.opening ++ seen.reverse ++ rest) m seen (m.opening ++ seen.reverse).length rest

theorem stands_splitFrom (m : Mode) (seen rest : Bytes) :
    Stands (m.opening ++ seen.reverse ++ rest) (m.opening ++ seen.reverse).length m seen rest :=
  ⟨[], rfl, rfl⟩

/-- **Counting the backslashes in the whole text is counting them in the current fragment.** -/
theorem Stands.readAt_eq {text : Bytes} {pos : Nat} {m : Mode} {seen rest : Bytes}
    (h : Stands text pos m seen rest) : readAt text m seen pos rest = splitFrom m seen rest := by
  have hpair : ∀ text' pos', Stands text' pos' m seen rest →
      readAt text m seen pos rest = readAt text' m seen pos' rest := by
    induction m, seen, rest using reader_induction generalizing text pos with
    | done m seen =>
      intro text' pos' _
      rw [readAt_nil, readAt_nil]
    | opens m seen rest hm ih =>
      intro text' pos' h'
      rw [readAt_opening hm, readAt_opening hm, ih h.opening _ _ h'.opening]
    | closes m seen rest hm hc ih =>
      intro text' pos' h'
      rw [readAt_closing hm hc h.isEscaped_eq, readAt_closing hm hc h'.isEscaped_eq,
        ih h.closing _ _ h'.closing]
    | reads m seen b rest hcont ih =>
      intro text' pos' h'
      rw [readAt_reading hcont h.isEscaped_eq, readAt_reading hcont h'.isEscaped_eq,
        ih h.reading _ _ h'.reading]
  exact hpair _ _ (stands_splitFrom m seen rest)

/-- A text is split as from code on, with nothing read yet. -/
theorem split_eq_splitFrom (text : Bytes) : split text = splitFrom .code [] text := rfl

@[simp] theorem splitFrom_nil (m : Mode) (seen : Bytes) : splitFrom m seen [] = ofEnd m seen := by
  rw [splitFrom, readAt_nil]

theorem splitFrom_opening {m : Mode} (hm : m ≠ .code) (seen rest : Bytes) :
    splitFrom .code seen (m.opening ++ rest) = ofEnd .code seen ++ splitFrom m [] rest := by
  rw [splitFrom, readAt_opening hm, (stands_splitFrom .code seen _).opening.readAt_eq]

theorem splitFrom_closing {m : Mode} (hm : m ≠ .code) {seen : Bytes} (hc : m.canClose seen)
    (rest : Bytes) :
    splitFrom m seen (m.closing ++ rest) = ofClosing m seen ++ splitFrom .code [] rest := by
  have h := stands_splitFrom m seen (m.closing ++ rest)
  rw [splitFrom, readAt_closing hm hc h.isEscaped_eq, h.closing.readAt_eq]

theorem splitFrom_reading {m : Mode} {seen : Bytes} {b : UInt8} {rest : Bytes}
    (h : m.Continues seen (b :: rest)) :
    splitFrom m seen (b :: rest) = splitFrom m (b :: seen) rest := by
  have hs := stands_splitFrom m seen (b :: rest)
  rw [splitFrom, readAt_reading h hs.isEscaped_eq, hs.reading.readAt_eq]

/-! ### Nothing is lost -/

theorem flatMap_source_splitFrom (m : Mode) (seen rest : Bytes) :
    (splitFrom m seen rest).flatMap source = m.opening ++ seen.reverse ++ rest := by
  induction m, seen, rest using reader_induction with
  | done m seen => rw [splitFrom_nil, flatMap_source_ofEnd, List.append_nil]
  | opens m seen rest hm ih =>
    rw [splitFrom_opening hm, List.flatMap_append, flatMap_source_ofEnd, ih]
    simp
  | closes m seen rest hm hc ih =>
    rw [splitFrom_closing hm hc, List.flatMap_append, flatMap_source_ofClosing hm, ih]
    simp [Mode.opening]
  | reads m seen b rest hcont ih =>
    rw [splitFrom_reading hcont, ih]
    simp

/-- **The fragments of a text concatenate to the text.** -/
theorem flatMap_source_split (text : Bytes) : (split text).flatMap source = text :=
  flatMap_source_splitFrom .code [] text

/-! ### Open fragments -/

theorem mem_dropLast_append {α : Type} {a : α} {xs ys : List α}
    (h : a ∈ (xs ++ ys).dropLast) : a ∈ xs ∨ a ∈ ys.dropLast := by
  rw [List.dropLast_append] at h
  split at h
  · exact .inl (List.dropLast_subset _ h)
  · exact List.mem_append.mp h

theorem mode_of_mem_dropLast_splitFrom {m : Mode} {seen rest : Bytes} {f : Fragment}
    (hf : f ∈ (splitFrom m seen rest).dropLast) : f.mode = .code := by
  induction m, seen, rest using reader_induction with
  | done m seen =>
    rw [splitFrom_nil, dropLast_ofEnd] at hf
    exact absurd hf List.not_mem_nil
  | opens m seen rest hm ih =>
    rw [splitFrom_opening hm] at hf
    rcases mem_dropLast_append hf with hf | hf
    · exact mode_of_mem_ofEnd hf
    · exact ih hf
  | closes m seen rest hm hc ih =>
    rw [splitFrom_closing hm hc] at hf
    rcases mem_dropLast_append hf with hf | hf
    · exact mode_of_mem_ofClosing hf
    · exact ih hf
  | reads m seen b rest hcont ih =>
    rw [splitFrom_reading hcont] at hf
    exact ih hf

/-- Only the last fragment can be open at the end of the text. -/
theorem mode_of_mem_init {text : Bytes} {init : List Fragment} {f : Fragment}
    (h : split text = init ++ [f]) : ∀ g ∈ init, g.mode = .code := by
  intro g hg
  have hmem : g ∈ (splitFrom .code [] text).dropLast := by
    rwa [← split_eq_splitFrom, h, List.dropLast_concat]
  exact mode_of_mem_dropLast_splitFrom hmem

/-- A fragment that is open at the end is the one that the reader is in the midst of, or it opens
later, and then it is split by itself just as it is in the text. -/
theorem split_source_of_mem_splitFrom {f : Fragment} (hmode : f.mode ≠ .code) {m : Mode}
    {seen rest : Bytes} (hf : f ∈ splitFrom m seen rest) :
    m = f.mode ∧ splitFrom m seen rest = [f] ∨ split f.source = [f] := by
  induction m, seen, rest using reader_induction with
  | done m seen =>
    rw [splitFrom_nil] at hf ⊢
    exact .inl ⟨(mode_of_mem_ofEnd hf).symm, eq_singleton_of_mem_ofEnd hf⟩
  | opens m seen rest hm ih =>
    rw [splitFrom_opening hm] at hf
    rcases List.mem_append.mp hf with hf | hf
    · exact absurd (mode_of_mem_ofEnd hf) hmode
    · rcases ih hf with ⟨-, heq⟩ | hsplit
      · -- `f` opens here and reaches to the end of the text
        have hsrc := flatMap_source_splitFrom m [] rest
        rw [heq, List.flatMap_singleton, List.reverse_nil, List.append_nil] at hsrc
        right
        rw [hsrc, split_eq_splitFrom, splitFrom_opening hm, heq]
        rfl
      · exact .inr hsplit
  | closes m seen rest hm hc ih =>
    rw [splitFrom_closing hm hc] at hf
    rcases List.mem_append.mp hf with hf | hf
    · exact absurd (mode_of_mem_ofClosing hf) hmode
    · rcases ih hf with ⟨hcode, -⟩ | hsplit
      · exact absurd hcode.symm hmode
      · exact .inr hsplit
  | reads m seen b rest hcont ih =>
    rw [splitFrom_reading hcont] at hf ⊢
    exact ih hf

/-- **A fragment that is open at the end of a text is split by itself as it was in the text.** -/
theorem split_source_of_mem {text : Bytes} {f : Fragment} (hf : f ∈ split text)
    (hmode : f.mode ≠ .code) : split f.source = [f] := by
  rw [split_eq_splitFrom] at hf
  rcases split_source_of_mem_splitFrom hmode hf with ⟨hcode, -⟩ | hsplit
  · exact absurd hcode.symm hmode
  · exact hsplit

/-! ### Bodies -/

theorem ne_nil_of_code_mem_ofEnd {t : Bytes} {m : Mode} {seen : Bytes}
    (h : code t ∈ ofEnd m seen) : t ≠ [] := by
  cases m with
  | code => cases seen <;> simp_all [ofEnd]
  | _ => simp [ofEnd] at h

/-- Code without text is no fragment. -/
theorem ne_nil_of_code_mem_splitFrom {t : Bytes} {m : Mode} {seen rest : Bytes}
    (h : code t ∈ splitFrom m seen rest) : t ≠ [] := by
  induction m, seen, rest using reader_induction with
  | done m seen =>
    rw [splitFrom_nil] at h
    exact ne_nil_of_code_mem_ofEnd h
  | opens m seen rest hm ih =>
    rw [splitFrom_opening hm] at h
    rcases List.mem_append.mp h with h | h
    · exact ne_nil_of_code_mem_ofEnd h
    · exact ih h
  | closes m seen rest hm hc ih =>
    rw [splitFrom_closing hm hc] at h
    rcases List.mem_append.mp h with h | h
    · cases m <;> simp [ofClosing] at h
    · exact ih h
  | reads m seen b rest hcont ih =>
    rw [splitFrom_reading hcont] at h
    exact ih h

/-- A line comment has one line. -/
theorem newline_notMem_of_mem_splitFrom {body : Bytes} {ended : Bool} {m : Mode}
    {seen rest : Bytes} (hseen : m = .lineComment → Byte.newline ∉ seen)
    (h : lineComment body ended ∈ splitFrom m seen rest) : Byte.newline ∉ body := by
  induction m, seen, rest using reader_induction with
  | done m seen =>
    rw [splitFrom_nil] at h
    cases m with
    | code => cases seen <;> simp [ofEnd] at h
    | literal q => simp [ofEnd] at h
    | lineComment =>
      obtain ⟨rfl, -⟩ : body = seen.reverse ∧ ended = false := by simpa [ofEnd] using h
      simpa using hseen rfl
    | blockComment => simp [ofEnd] at h
  | opens m seen rest hm ih =>
    rw [splitFrom_opening hm] at h
    rcases List.mem_append.mp h with h | h
    · cases seen <;> simp [ofEnd] at h
    · exact ih (fun _ => List.not_mem_nil) h
  | closes m seen rest hm hc ih =>
    rw [splitFrom_closing hm hc] at h
    rcases List.mem_append.mp h with h | h
    · cases m with
      | code => simp [ofClosing] at h
      | literal q => simp [ofClosing] at h
      | lineComment =>
        obtain ⟨rfl, -⟩ : body = seen.reverse ∧ ended = true := by simpa [ofClosing] using h
        simpa using hseen rfl
      | blockComment => simp [ofClosing] at h
    · exact ih (fun _ => List.not_mem_nil) h
  | reads m seen b rest hcont ih =>
    rw [splitFrom_reading hcont] at h
    refine ih (fun hm => ?_) h
    subst hm
    -- a newline would have ended the comment
    have hb : Byte.newline ≠ b := by
      rintro rfl
      exact hcont.2 (by simp) rfl ⟨rest, rfl⟩
    exact List.not_mem_cons_of_ne_of_not_mem hb (hseen rfl)

theorem newline_notMem_of_mem_split {text body : Bytes} {ended : Bool}
    (h : lineComment body ended ∈ split text) : Byte.newline ∉ body := by
  rw [split_eq_splitFrom] at h
  exact newline_notMem_of_mem_splitFrom (fun hm => by simp at hm) h

end Fragment

/-! ### The end of a text -/

/-- The mode of the reader at the end of a text. -/
def endMode (text : Bytes) : Fragment.Mode :=
  ((Fragment.split text).getLast?.map Fragment.mode).getD .code

namespace Fragment

theorem endMode_of_split {text : Bytes} {init : List Fragment} {f : Fragment}
    (h : split text = init ++ [f]) : endMode text = f.mode := by
  rw [endMode, h, List.getLast?_concat]
  rfl

theorem mode_eq_code_iff {f : Fragment} : f.mode = .code ↔ f.isClosed := by
  cases f with
  | lineComment body ended => cases ended <;> simp [mode, isClosed]
  | _ => simp [mode, isClosed]

theorem isClosed_of_endsInCode {text : Bytes} (h : endsInCode text) :
    ∀ f ∈ splitFrom .code [] text, f.isClosed := by
  rw [← split_eq_splitFrom]
  exact List.all_eq_true.mp h

/-- A text ends in code if all its fragments are closed. -/
theorem endMode_eq_code_iff (text : Bytes) : endMode text = .code ↔ endsInCode text := by
  rw [endsInCode, List.all_eq_true]
  rcases List.eq_nil_or_concat (split text) with h | ⟨init, f, h⟩
  · rw [endMode, h]
    simp
  · rw [List.concat_eq_append] at h
    rw [endMode_of_split h, h]
    constructor
    · intro hf g hg
      rcases List.mem_append.mp hg with hg | hg
      · exact mode_eq_code_iff.mp (mode_of_mem_init h g hg)
      · rw [List.mem_singleton.mp hg]
        exact mode_eq_code_iff.mp hf
    · intro hall
      exact mode_eq_code_iff.mpr (hall f (by simp))

end Fragment
end Lexicon
