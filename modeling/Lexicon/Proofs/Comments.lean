import Lexicon.Session
import Lexicon.Proofs.Escapes
import Lexicon.Proofs.Scanning

/-!
# Comments and the tokens around them

Stripping either keeps a comment as a key or removes it, and the tokens around it should not depend
on the choice.  A key cuts the text in two, and so does the newline that a block comment leaves; but
a line comment that is removed takes the newline at its end along, so that the texts on both sides
of it are joined.  If that newline is written twice, one of the two stays, and the tokens are the
same.

## Main definitions

* `dropComments ts` — the tokens of `ts` without the keys of comments.
* `respaced text` — the text with the newline at the end of each line comment written twice.
* `Language.Apart xs ys` — a token ends where texts of `xs` and `ys` meet.
* `Language.scanLexemes xs` — the lexemes `xs` with their texts scanned.

## Main results

* `Registry.scan_eq_assign` — literals and comments may be named after scanning.
* `Registry.filter_assign` — comments are named apart from everything else.
* `Registry.dropComments_scan` — **keeping comments or removing them gives the same tokens**, up to
  the newlines of line comments.
-/

namespace Lexicon

/-! ### Deleting comments -/

/-- Whether a token is the key of a comment. -/
def Token.isComment : Token → Bool
  | .text _ => false
  | .key k => k.category == .comment

/-- The tokens without the keys of comments. -/
def dropComments (ts : List Token) : List Token := ts.filter fun t => !t.isComment

/-- Whether a lexeme becomes the key of a comment, or is one. -/
def Lexeme.isComment : Lexeme → Bool
  | .kept t => t.isComment
  | .named c _ => c == .comment

theorem Lexeme.filter_map_text (ts : List Bytes) :
    (ts.map Lexeme.text).filter (fun x => !x.isComment) = ts.map .text := by
  refine List.filter_eq_self.mpr fun x hx => ?_
  obtain ⟨t, -, rfl⟩ := List.mem_map.mp hx
  rfl

namespace Registry

variable {r s : Registry}

/-- **Comments are named apart from everything else**: without their keys, the tokens are those that
naming leaves of the other lexemes. -/
theorem filter_assign (h : r.AgreesOff .comment s) (xs : List Lexeme) :
    dropComments (r.assign xs).1 = (s.assign (xs.filter fun x => !x.isComment)).1 := by
  induction xs generalizing r s with
  | nil => rfl
  | cons x xs ih =>
    cases x with
    | kept t =>
      rw [assign_kept, dropComments]
      cases ht : t.isComment with
      | true =>
        rw [List.filter_cons_of_neg (by simp [ht]),
          List.filter_cons_of_neg (by simp [Lexeme.isComment, ht])]
        exact ih h
      | false =>
        rw [List.filter_cons_of_pos (by simp [ht]),
          List.filter_cons_of_pos (by simp [Lexeme.isComment, ht]), assign_kept]
        exact congrArg (t :: ·) (ih h)
    | named c v =>
      rw [assign_named, dropComments]
      by_cases hc : c = .comment
      · subst hc
        rw [List.filter_cons_of_neg (by simp [Token.isComment]),
          List.filter_cons_of_neg (by simp [Lexeme.isComment])]
        exact ih (h.add_left v)
      · rw [List.filter_cons_of_pos (by simpa [Token.isComment] using hc),
          List.filter_cons_of_pos (by simpa [Lexeme.isComment] using hc), assign_named,
          h.key_add hc]
        exact congrArg (_ :: ·) (ih (h.add hc v))

end Registry

/-! ### The ends of lexemes -/

namespace Lexeme

/-- The first byte of a text at the head of lexemes. -/
def firstByte? : List Lexeme → Option UInt8
  | .kept (.text t) :: rest => t.head?.or (firstByte? rest)
  | _ => none

/-- The byte in which a text at the end of lexemes ends after one more lexeme, if `o` is that byte
before it. -/
def endByte (o : Option UInt8) : Lexeme → Option UInt8
  | .kept (.text t) => t.getLast?.or o
  | _ => none

theorem mem_foldl_endByte {xs : List Lexeme} {o o' : Option UInt8} (hle : ∀ b ∈ o, b ∈ o')
    {x : UInt8} (h : x ∈ xs.foldl endByte o) : x ∈ xs.foldl endByte o' := by
  induction xs generalizing o o' with
  | nil => exact hle x h
  | cons y xs ih =>
    refine ih ?_ h
    intro b hb
    cases y with
    | named c v => exact hb
    | kept t =>
      cases t with
      | key k => exact hb
      | text t =>
        rw [endByte] at hb ⊢
        cases ht : t.getLast? with
        | none =>
          rw [ht] at hb
          exact hle b hb
        | some c =>
          rw [ht] at hb
          exact hb

end Lexeme

/-! ### Scanned lexemes -/

namespace Language

variable {l : Language} {b : UInt8}

open Lexeme

/-- A list of lexemes with its texts scanned. -/
def scanLexemes (l : Language) (xs : List Lexeme) : List Lexeme :=
  xs.flatMap fun
    | .kept (.text t) => (l.scan t).map .text
    | x => [x]

@[simp] theorem scanLexemes_nil (l : Language) : l.scanLexemes [] = [] := rfl

@[simp] theorem scanLexemes_text (l : Language) (t : Bytes) (xs : List Lexeme) :
    l.scanLexemes (.text t :: xs) = (l.scan t).map .text ++ l.scanLexemes xs := rfl

@[simp] theorem scanLexemes_key (l : Language) (k : Key) (xs : List Lexeme) :
    l.scanLexemes (.kept (.key k) :: xs) = .kept (.key k) :: l.scanLexemes xs := rfl

@[simp] theorem scanLexemes_named (l : Language) (c : Category) (v : Bytes) (xs : List Lexeme) :
    l.scanLexemes (.named c v :: xs) = .named c v :: l.scanLexemes xs := rfl

/-- An empty text at the head makes no difference. -/
theorem scanLexemes_text_nil (l : Language) (xs : List Lexeme) :
    l.scanLexemes (joinTexts (.text [] :: xs)) = l.scanLexemes (joinTexts xs) := by
  rcases joinTexts_text [] xs with ⟨u, ys, h, hj⟩ | ⟨-, hj⟩
  · rw [hj, h, List.nil_append]
  · rw [hj, scanLexemes_text, scan_nil]
    rfl

theorem scanLexemes_text_named (l : Language) (u : Bytes) (c : Category) (v : Bytes)
    (xs : List Lexeme) :
    l.scanLexemes (joinTexts (.text u :: .named c v :: xs)) =
      (l.scan u).map .text ++ .named c v :: l.scanLexemes (joinTexts xs) := by
  rw [joinTexts_text_cons rfl, joinTexts_named, scanLexemes_text, scanLexemes_named]

theorem scanLexemes_singleton_text (l : Language) (u : Bytes) :
    l.scanLexemes (joinTexts [.text u]) = (l.scan u).map .text :=
  List.append_nil _

/-! ### Lexemes that are apart -/

/-- `l.Apart xs ys` says that a token ends between the last byte of `xs` and the first byte of `ys`,
where texts of the two meet. -/
def Apart (l : Language) (xs ys : List Lexeme) : Prop :=
  ∀ x ∈ xs.foldl endByte none, ∀ y ∈ firstByte? ys, l.Cuts x y

instance (l : Language) (xs ys : List Lexeme) : Decidable (l.Apart xs ys) :=
  inferInstanceAs (Decidable (∀ x ∈ xs.foldl endByte none, ∀ y ∈ firstByte? ys, l.Cuts x y))

theorem Apart.of_append {xs ys zs : List Lexeme} (h : l.Apart (xs ++ ys) zs) : l.Apart ys zs := by
  intro x hx
  refine h x ?_
  rw [List.foldl_append]
  exact mem_foldl_endByte (by simp) hx

/-- A text is apart from what follows if a token ends where they meet. -/
theorem scanLexemes_text_cons {u : Bytes} {ys : List Lexeme}
    (h : ∀ x ∈ u.getLast?, ∀ y ∈ firstByte? ys, l.Cuts x y) :
    l.scanLexemes (joinTexts (.text u :: ys)) =
      (l.scan u).map .text ++ l.scanLexemes (joinTexts ys) := by
  induction ys with
  | nil => rfl
  | cons y ys ih =>
    cases y with
    | named c v => rw [scanLexemes_text_named, joinTexts_named, scanLexemes_named]
    | kept t =>
      cases t with
      | key k => rfl
      | text t =>
        cases t with
        | nil =>
          rw [joinTexts_text_text, List.append_nil, scanLexemes_text_nil]
          exact ih h
        | cons b t =>
          obtain ⟨w, zs, hj⟩ := exists_joinTexts_text ys
          have hcut : l.scan (u ++ (b :: t ++ w)) = l.scan u ++ l.scan (b :: t ++ w) :=
            scan_append_of_cuts h
          rw [joinTexts_text_text, hj, hj, scanLexemes_text, scanLexemes_text, List.append_assoc,
            hcut, List.map_append, List.append_assoc]

theorem scanLexemes_text_append {xs ys : List Lexeme} {u : Bytes}
    (h : ∀ x ∈ xs.foldl endByte u.getLast?, ∀ y ∈ firstByte? ys, l.Cuts x y) :
    l.scanLexemes (joinTexts (.text u :: (xs ++ ys))) =
      l.scanLexemes (joinTexts (.text u :: xs)) ++ l.scanLexemes (joinTexts ys) := by
  induction xs generalizing u with
  | nil =>
    rw [List.nil_append, scanLexemes_singleton_text]
    exact scanLexemes_text_cons h
  | cons x xs ih =>
    cases x with
    | named c v =>
      -- a lexeme that is no text starts anew, without a text before the rest
      have hanew := ih (u := []) h
      rw [scanLexemes_text_nil, scanLexemes_text_nil] at hanew
      rw [List.cons_append, scanLexemes_text_named, scanLexemes_text_named, hanew]
      simp
    | kept t =>
      cases t with
      | key k =>
        have hanew := ih (u := []) h
        rw [scanLexemes_text_nil, scanLexemes_text_nil] at hanew
        rw [List.cons_append, joinTexts_text_cons rfl, joinTexts_text_cons rfl]
        simp [hanew]
      | text t =>
        rw [List.cons_append, joinTexts_text_text, joinTexts_text_text]
        refine ih ?_
        rw [List.getLast?_append]
        exact h

/-- **Lexemes that are apart are scanned by themselves.** -/
theorem scanLexemes_append {xs ys : List Lexeme} (h : l.Apart xs ys) :
    l.scanLexemes (joinTexts (xs ++ ys)) =
      l.scanLexemes (joinTexts xs) ++ l.scanLexemes (joinTexts ys) := by
  have happend := scanLexemes_text_append (u := []) h
  rwa [scanLexemes_text_nil, scanLexemes_text_nil] at happend

/-- What stands on both sides of a byte that is part of one delimiter only is apart. -/
theorem scanLexemes_append_alone (hb : l.Alone b) (xs ys : List Lexeme) :
    l.scanLexemes (joinTexts (xs ++ .text [b] :: ys)) =
      l.scanLexemes (joinTexts xs) ++
        ((l.scan [b]).map .text ++ l.scanLexemes (joinTexts ys)) := by
  have hleft : l.Apart xs (.text [b] :: ys) := by
    intro x _ y hy
    obtain rfl : b = y := by simpa [firstByte?] using hy
    exact hb.cuts_left x
  have hright : l.scanLexemes (joinTexts (.text [b] :: ys)) = _ :=
    scanLexemes_text_cons fun x hx y _ => by
      obtain rfl : b = x := by simpa using hx
      exact hb.cuts_right y
  rw [scanLexemes_append hleft, hright]

/-- A separating byte adds no token, and what stands on both sides of it is apart. -/
theorem scanLexemes_append_separator (hb : l.Separates b) (xs ys : List Lexeme) :
    l.scanLexemes (joinTexts (xs ++ .text [b] :: ys)) =
      l.scanLexemes (joinTexts xs) ++ l.scanLexemes (joinTexts ys) := by
  rw [scanLexemes_append_alone hb.alone, scan_separating hb]
  rfl

end Language

namespace Registry

/-- **Literals and comments may be named after scanning.** -/
theorem scan_eq_assign (r : Registry) (l : Language) (keep : Keep) (text : Bytes) :
    r.scan l keep text = r.assign (l.scanLexemes (strippedLexemes keep text)) := by
  show (l.scanTokens (r.assign _).1, (r.assign _).2) = _
  generalize strippedLexemes keep text = xs
  induction xs generalizing r with
  | nil => rfl
  | cons x xs ih =>
    cases x with
    | named c v =>
      rw [Language.scanLexemes_named, assign_named, assign_named, ← ih]
      rfl
    | kept t =>
      cases t with
      | key k =>
        rw [Language.scanLexemes_key, assign_kept, assign_kept, ← ih]
        rfl
      | text t =>
        have htexts : (l.scan t).map Lexeme.text = ((l.scan t).map Token.text).map .kept := by
          rw [List.map_map]
          rfl
        rw [Language.scanLexemes_text, assign_kept, htexts, assign_kept_append, ← ih]
        rfl

end Registry

/-! ### Kept and removed -/

namespace Fragment

variable {l : Language}

/-- What a fragment leaves if comments are removed and the newline of a line comment is not. -/
def spaced (literals : Bool) : Fragment → List Lexeme
  | .lineComment _ true => [.text [Byte.newline]]
  | f => f.stripped ⟨literals, false⟩

/-- A text and what follows it, without the keys of comments. -/
theorem filter_scanLexemes_text_named (l : Language) (u : Bytes) (c : Category) (v : Bytes)
    (xs : List Lexeme) :
    (l.scanLexemes (Lexeme.joinTexts (.text u :: .named c v :: xs))).filter
        (fun x => !x.isComment) =
      (l.scan u).map .text ++ (if c = .comment then [] else [.named c v]) ++
        (l.scanLexemes (Lexeme.joinTexts xs)).filter fun x => !x.isComment := by
  rw [Language.scanLexemes_text_named, List.filter_append, Lexeme.filter_map_text,
    List.append_assoc]
  cases c <;> rfl

/-- One fragment adds the same tokens, its comment apart, to what stands before it. -/
theorem filter_scanLexemes_step (hl : l.Separates Byte.newline) (literals : Bool) {f : Fragment}
    {kept removed : List Lexeme} (hf : f.mode = .code ∨ (kept = [] ∧ removed = []))
    (h : ∀ u, (l.scanLexemes (Lexeme.joinTexts (.text u :: kept))).filter
      (fun x => !x.isComment) = l.scanLexemes (Lexeme.joinTexts (.text u :: removed))) (u : Bytes) :
    (l.scanLexemes (Lexeme.joinTexts (.text u :: (f.stripped ⟨literals, true⟩ ++ kept)))).filter
        (fun x => !x.isComment) =
      l.scanLexemes (Lexeme.joinTexts (.text u :: (f.spaced literals ++ removed))) := by
  have hanew := h []
  rw [Language.scanLexemes_text_nil, Language.scanLexemes_text_nil] at hanew
  have hseam := Language.scanLexemes_append_separator hl [.text u] removed
  rw [Language.scanLexemes_singleton_text, List.singleton_append] at hseam
  cases f with
  | code t =>
    show (l.scanLexemes (Lexeme.joinTexts (.text u :: .text t :: kept))).filter _ =
      l.scanLexemes (Lexeme.joinTexts (.text u :: .text t :: removed))
    rw [Lexeme.joinTexts_text_text, Lexeme.joinTexts_text_text]
    exact h (u ++ t)
  | literal q body =>
    cases literals with
    | false =>
      show (l.scanLexemes (Lexeme.joinTexts (.text u :: .text [q.byte, q.byte] :: kept))).filter _ =
        l.scanLexemes (Lexeme.joinTexts (.text u :: .text [q.byte, q.byte] :: removed))
      rw [Lexeme.joinTexts_text_text, Lexeme.joinTexts_text_text]
      exact h (u ++ [q.byte, q.byte])
    | true =>
      show (l.scanLexemes (Lexeme.joinTexts (.text u :: .named .literal _ :: kept))).filter _ =
        l.scanLexemes (Lexeme.joinTexts (.text u :: .named .literal _ :: removed))
      rw [filter_scanLexemes_text_named, Language.scanLexemes_text_named, hanew]
      simp
  | lineComment body ended =>
    cases ended with
    | true =>
      show (l.scanLexemes (Lexeme.joinTexts
          (.text u :: .named .comment _ :: .text [Byte.newline] :: kept))).filter _ =
        l.scanLexemes (Lexeme.joinTexts (.text u :: .text [Byte.newline] :: removed))
      have hnewline := Language.scanLexemes_append_separator hl [] removed
      rw [filter_scanLexemes_text_named, h, hseam]
      simpa using hnewline
    | false =>
      -- a line comment that no newline ends is the last fragment
      obtain ⟨rfl, rfl⟩ : kept = [] ∧ removed = [] := by simpa [mode] using hf
      show (l.scanLexemes (Lexeme.joinTexts [.text u, .named .comment _])).filter _ =
        l.scanLexemes (Lexeme.joinTexts [.text u])
      rw [filter_scanLexemes_text_named, Language.scanLexemes_singleton_text]
      simp
  | blockComment body =>
    show (l.scanLexemes (Lexeme.joinTexts (.text u :: .named .comment _ :: kept))).filter _ =
      l.scanLexemes (Lexeme.joinTexts (.text u :: .text [Byte.newline] :: removed))
    rw [filter_scanLexemes_text_named, hanew, hseam]
    simp
  | openLiteral q body => exact h u
  | openComment body => exact h u

/-- **The keys of comments add nothing to the tokens around them**, as long as the newline of a line
comment stays. -/
theorem filter_scanLexemes_stripped (hl : l.Separates Byte.newline) (literals : Bool)
    {fs : List Fragment} (hfs : ∀ f ∈ fs.dropLast, f.mode = .code) (u : Bytes) :
    (l.scanLexemes (Lexeme.joinTexts (.text u :: fs.flatMap (stripped ⟨literals, true⟩)))).filter
        (fun x => !x.isComment) =
      l.scanLexemes (Lexeme.joinTexts (.text u :: fs.flatMap (spaced literals))) := by
  induction fs generalizing u with
  | nil =>
    rw [List.flatMap_nil, List.flatMap_nil, Language.scanLexemes_singleton_text,
      Lexeme.filter_map_text]
  | cons f fs ih =>
    rw [List.flatMap_cons, List.flatMap_cons]
    cases fs with
    | nil => exact filter_scanLexemes_step hl literals (.inr ⟨rfl, rfl⟩) (ih (by simp)) u
    | cons g fs =>
      have hmode := List.forall_mem_cons.mp hfs
      exact filter_scanLexemes_step hl literals (.inl hmode.1) (ih hmode.2) u

/-! ### A newline more -/

/-- The text that a fragment came from, with the newline at the end of a line comment written
twice. -/
def respacedSource : Fragment → Bytes
  | .lineComment body true => (lineComment body true).source ++ [Byte.newline]
  | f => f.source

theorem spaced_ofEnd (literals : Bool) (m : Mode) (seen : Bytes) :
    (ofEnd m seen).flatMap (spaced literals) =
      (ofEnd m seen).flatMap (stripped ⟨literals, false⟩) := by
  cases m with
  | code => cases seen <;> rfl
  | _ => rfl

theorem respacedSource_ofEnd (m : Mode) (seen : Bytes) :
    (ofEnd m seen).flatMap respacedSource = (ofEnd m seen).flatMap source := by
  cases m with
  | code => cases seen <;> rfl
  | _ => rfl

/-- Only a line comment leaves more if its newline stays. -/
theorem spaced_ofClosing (literals : Bool) {m : Mode} (hm : m ≠ .lineComment) (seen : Bytes) :
    (ofClosing m seen).flatMap (spaced literals) =
      (ofClosing m seen).flatMap (stripped ⟨literals, false⟩) := by
  cases m with
  | lineComment => exact absurd rfl hm
  | _ => rfl

theorem respacedSource_ofClosing {m : Mode} (hm : m ≠ .lineComment) (seen : Bytes) :
    (ofClosing m seen).flatMap respacedSource = (ofClosing m seen).flatMap source := by
  cases m with
  | lineComment => exact absurd rfl hm
  | _ => rfl

/-- Code that starts with a newline leaves the newline. -/
theorem joinTexts_splitFrom_newline (keep : Keep) (rest : Bytes) :
    Lexeme.joinTexts ((splitFrom .code [] (Byte.newline :: rest)).flatMap (stripped keep)) =
      Lexeme.joinTexts
        (.text [Byte.newline] :: (splitFrom .code [] rest).flatMap (stripped keep)) := by
  have hcode : Forward.lexemes keep .code (Byte.newline :: rest) =
      .text [Byte.newline] :: Forward.lexemes keep .code rest := by
    cases rest <;> rfl
  have hrest := joinTexts_splitFrom keep .code [] rest
  refine (joinTexts_splitFrom keep .code [] (Byte.newline :: rest)).trans ?_
  rw [Forward.ofMode, hcode]
  exact (Lexeme.joinTexts_append_congr [.text [Byte.newline]] hrest).symm

/-- **A newline more is one that stays**: from every place on, the text with the newlines of line
comments written twice leaves what the text does if they stay. -/
theorem exists_respaced (literals : Bool) (m : Mode) (seen rest : Bytes) :
    ∃ rest', (splitFrom m seen rest).flatMap respacedSource = m.opening ++ seen.reverse ++ rest' ∧
      rest'.take 1 = rest.take 1 ∧
      Lexeme.joinTexts ((splitFrom m seen rest').flatMap (stripped ⟨literals, false⟩)) =
        Lexeme.joinTexts ((splitFrom m seen rest).flatMap (spaced literals)) := by
  induction m, seen, rest using reader_induction with
  | done m seen =>
    refine ⟨[], ?_, rfl, ?_⟩
    · rw [splitFrom_nil, respacedSource_ofEnd, flatMap_source_ofEnd, List.append_nil]
    · rw [splitFrom_nil, spaced_ofEnd]
  | opens m seen rest hm ih =>
    obtain ⟨rest', hsource, -, hjoin⟩ := ih
    have htake : (m.opening ++ rest').take 1 = (m.opening ++ rest).take 1 := by
      have hpos := length_opening_pos hm
      rw [List.take_append_of_le_length hpos, List.take_append_of_le_length hpos]
    refine ⟨m.opening ++ rest', ?_, htake, ?_⟩
    · rw [splitFrom_opening hm, List.flatMap_append, respacedSource_ofEnd, flatMap_source_ofEnd,
        hsource]
      simp
    · rw [splitFrom_opening hm, splitFrom_opening hm, List.flatMap_append, List.flatMap_append,
        spaced_ofEnd]
      exact Lexeme.joinTexts_append_congr _ hjoin
  | closes m seen rest hm hc ih =>
    obtain ⟨rest', hsource, -, hjoin⟩ := ih
    have htake : ∀ more, (m.closing ++ more).take 1 = (m.closing ++ rest).take 1 := by
      intro more
      have hpos := length_closing_pos hm
      rw [List.take_append_of_le_length hpos, List.take_append_of_le_length hpos]
    by_cases hline : m = .lineComment
    · subst hline
      -- of the two newlines, one ends the comment
      refine ⟨[Byte.newline] ++ Byte.newline :: rest', ?_, htake _, ?_⟩
      · rw [splitFrom_closing hm hc, List.flatMap_append, hsource]
        simp [ofClosing, respacedSource, source, Mode.opening]
      · have hclosed : splitFrom .lineComment seen ([Byte.newline] ++ Byte.newline :: rest') = _ :=
          splitFrom_closing hm hc (Byte.newline :: rest')
        rw [splitFrom_closing hm hc, hclosed]
        show Lexeme.joinTexts ((splitFrom .code [] (Byte.newline :: rest')).flatMap _) =
          Lexeme.joinTexts (.text [Byte.newline] :: (splitFrom .code [] rest).flatMap _)
        rw [joinTexts_splitFrom_newline]
        exact Lexeme.joinTexts_append_congr [.text [Byte.newline]] hjoin
    · refine ⟨m.closing ++ rest', ?_, htake _, ?_⟩
      · rw [splitFrom_closing hm hc, List.flatMap_append, hsource, respacedSource_ofClosing hline,
          flatMap_source_ofClosing hm]
        simp [Mode.opening]
      · rw [splitFrom_closing hm hc, splitFrom_closing hm hc, List.flatMap_append,
          List.flatMap_append, spaced_ofClosing literals hline]
        exact Lexeme.joinTexts_append_congr _ hjoin
  | reads m seen b rest hcont ih =>
    obtain ⟨rest', hsource, htake, hjoin⟩ := ih
    refine ⟨b :: rest', ?_, rfl, ?_⟩
    · rw [splitFrom_reading hcont, hsource]
      simp
    · rw [splitFrom_reading hcont, splitFrom_reading (hcont.of_take_one htake), hjoin]

/-- The text with the newline at the end of each line comment written twice. -/
def respaced (text : Bytes) : Bytes := (split text).flatMap respacedSource

theorem strippedLexemes_respaced (literals : Bool) (text : Bytes) :
    strippedLexemes ⟨literals, false⟩ (respaced text) =
      Lexeme.joinTexts ((split text).flatMap (spaced literals)) := by
  obtain ⟨rest', hsource, -, hjoin⟩ := exists_respaced literals .code [] text
  have hrest : respaced text = rest' := hsource
  rw [strippedLexemes, hrest, split_eq_splitFrom, split_eq_splitFrom]
  exact hjoin

/-- **A newline that goes with its comment is not missed** if what stands on both sides of it is
apart anyway. -/
theorem scanLexemes_spaced (hl : l.Separates Byte.newline) (literals : Bool) {fs : List Fragment}
    {xs : List Lexeme}
    (h : ∀ before body after, fs = before ++ .lineComment body true :: after →
      l.Apart (xs ++ before.flatMap (stripped ⟨literals, false⟩))
        (after.flatMap (stripped ⟨literals, false⟩))) :
    l.scanLexemes (Lexeme.joinTexts (xs ++ fs.flatMap (spaced literals))) =
      l.scanLexemes (Lexeme.joinTexts (xs ++ fs.flatMap (stripped ⟨literals, false⟩))) := by
  induction fs generalizing xs with
  | nil => rfl
  | cons f fs ih =>
    rw [List.flatMap_cons, List.flatMap_cons]
    by_cases hf : ∃ body, f = .lineComment body true
    · obtain ⟨body, rfl⟩ := hf
      have hseam : l.Apart xs (fs.flatMap (stripped ⟨literals, false⟩)) := by
        simpa using h [] body fs rfl
      have hafter : ∀ before body' after, fs = before ++ .lineComment body' true :: after →
          l.Apart ([] ++ before.flatMap (stripped ⟨literals, false⟩))
            (after.flatMap (stripped ⟨literals, false⟩)) := by
        intro before body' after heq
        have hapart := h (.lineComment body true :: before) body' after (by rw [heq]; rfl)
        exact hapart.of_append
      show l.scanLexemes (Lexeme.joinTexts (xs ++ .text [Byte.newline] :: _)) =
        l.scanLexemes (Lexeme.joinTexts (xs ++ fs.flatMap _))
      rw [Language.scanLexemes_append_separator hl, Language.scanLexemes_append hseam]
      exact congrArg _ (ih hafter)
    · have hsame : f.spaced literals = f.stripped ⟨literals, false⟩ := by
        unfold spaced
        split
        · next body => exact absurd ⟨body, rfl⟩ hf
        · rfl
      rw [hsame, ← List.append_assoc, ← List.append_assoc]
      refine ih fun before body after heq => ?_
      have hseam := h (f :: before) body after (by rw [heq]; rfl)
      rwa [List.flatMap_cons, ← List.append_assoc] at hseam

end Fragment

namespace Registry

variable {l : Language}

/-- **Keeping comments or removing them gives the same tokens**, up to the newlines of line
comments: from one registry, the tokens around the keys of comments are those of the text with
comments removed and the newline at the end of each line comment written twice.  They are those of
the text itself if what stands on both sides of each such comment is apart without a newline. -/
theorem dropComments_scan (hl : l.Separates Byte.newline) (r : Registry) (literals : Bool)
    (text : Bytes) :
    dropComments (r.scan l ⟨literals, true⟩ text).1 =
        (r.scan l ⟨literals, false⟩ (Fragment.respaced text)).1 ∧
      ((∀ before body after,
          Fragment.split text = before ++ .lineComment body true :: after →
          l.Apart (before.flatMap (Fragment.stripped ⟨literals, false⟩))
            (after.flatMap (Fragment.stripped ⟨literals, false⟩))) →
        dropComments (r.scan l ⟨literals, true⟩ text).1 =
          (r.scan l ⟨literals, false⟩ text).1) := by
  have hmode : ∀ f ∈ (Fragment.split text).dropLast, f.mode = .code := by
    rw [Fragment.split_eq_splitFrom]
    exact fun f hf => Fragment.mode_of_mem_dropLast_splitFrom hf
  have hkept := Fragment.filter_scanLexemes_stripped hl literals hmode []
  rw [Language.scanLexemes_text_nil, Language.scanLexemes_text_nil] at hkept
  have hdrop : dropComments (r.scan l ⟨literals, true⟩ text).1 =
      (r.assign (l.scanLexemes (Lexeme.joinTexts
        ((Fragment.split text).flatMap (Fragment.spaced literals))))).1 := by
    rw [scan_eq_assign, filter_assign fun c _ => rfl, strippedLexemes, hkept]
  refine ⟨?_, fun h => ?_⟩
  · rw [hdrop, scan_eq_assign, Fragment.strippedLexemes_respaced]
  · have hseams : l.scanLexemes (Lexeme.joinTexts ([] ++ _)) =
        l.scanLexemes (Lexeme.joinTexts ([] ++ _)) :=
      Fragment.scanLexemes_spaced hl literals h
    rw [List.nil_append, List.nil_append] at hseams
    rw [hdrop, scan_eq_assign, strippedLexemes, hseams]

/-- In Java a token ends between `=` and a name, so that a line comment between them may take its
newline along. -/
theorem dropComments_scan_equals :
    Language.java.Separates Byte.newline ∧
      dropComments (empty.scan .java ⟨true, true⟩ (ascii "a=//x\nb")).1 =
        (empty.scan .java ⟨true, false⟩ (ascii "a=//x\nb")).1 := by
  have hl : Language.java.Separates Byte.newline := by decide +kernel
  refine ⟨hl, (dropComments_scan hl .empty true (ascii "a=//x\nb")).2 ?_⟩
  have hsplit : Fragment.split (ascii "a=//x\nb") =
      [.code (ascii "a="), .lineComment (ascii "x") true, .code (ascii "b")] := by
    decide +kernel
  intro before body after heq
  rw [hsplit] at heq
  -- the only line comment that a newline ends stands between the two texts
  obtain ⟨rfl, rfl⟩ : before = [.code (ascii "a=")] ∧ after = [.code (ascii "b")] := by
    rcases before with _ | ⟨f, _ | ⟨g, _ | ⟨e, before⟩⟩⟩
    · simp at heq
    · simp only [List.cons_append, List.nil_append, List.cons.injEq] at heq
      exact ⟨by rw [heq.1], heq.2.2.symm⟩
    · simp at heq
    · simp at heq
  decide +kernel

/-- A line comment takes its newline along, and the names on both sides of it become one. -/
theorem dropComments_scan_joined :
    Language.java.Separates Byte.newline ∧
      dropComments (empty.scan .java ⟨false, true⟩ (ascii "a//x\nb")).1 =
        [.text (ascii "a"), .text (ascii "b")] ∧
      (empty.scan .java ⟨false, false⟩ (ascii "a//x\nb")).1 = [.text (ascii "ab")] := by
  decide +kernel

end Registry

end Lexicon
