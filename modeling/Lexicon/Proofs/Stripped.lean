import Lexicon.Stripped
import Lexicon.Proofs.Fragment
import Lexicon.Proofs.Naming
import Mathlib.Data.List.Chain

/-!
# What stripping leaves

The lexemes that stripping leaves of a source text are texts, none of them empty and no two of them
next to each other, literals and comments.  Its tokens stand for these lexemes, one by one, so that
a fact about the lexemes of a source text is a fact about its stripped text.

## Main definitions

* `Lexeme.OfSource x` — `x` is a text that is not empty, a literal or a comment.
* `Keep.names keep c` — whether stripping names values of category `c`.
* `Registry.lexemeOf s t` — the lexeme that the token `t` stands for in `s`.

## Main results

* `Lexeme.isChain_joinTexts` — no two texts touch.
* `named_notMem_strippedLexemes` — nothing is named that is not kept.
* `Registry.map_lexemeOf_strip` — **stripped text stands for the stripped lexemes of its source.**
* `Registry.strip_plain` — with nothing kept, stripping leaves one text at most, and names nothing.
-/

namespace Lexicon

/-- Literals and comments are kept. -/
abbrev Keep.all : Keep := ⟨true, true⟩

/-! ### Lexemes of stripped text -/

namespace Lexeme

/-- The text of a lexeme that is one. -/
def text? : Lexeme → Option Bytes
  | .kept (.text t) => some t
  | _ => none

/-- The lexemes that fragments of a source text leave. -/
inductive OfSource : Lexeme → Prop
  | text {t : Bytes} (ht : t ≠ []) : OfSource (.text t)
  | literal (v : Bytes) : OfSource (.named .literal v)
  | comment (v : Bytes) : OfSource (.named .comment v)

/-- A text is joined with the text after it, if there is one. -/
theorem joinTexts_text (t : Bytes) (rest : List Lexeme) :
    (∃ u rest', joinTexts rest = .text u :: rest' ∧
        joinTexts (.text t :: rest) = .text (t ++ u) :: rest') ∨
      (∀ x ∈ (joinTexts rest).head?, x.text? = none) ∧
        joinTexts (.text t :: rest) = .text t :: joinTexts rest := by
  rw [joinTexts]
  split
  · next u rest' h => exact .inl ⟨u, rest', h, rfl⟩
  · next joined hno =>
    refine .inr ⟨?_, rfl⟩
    intro x hx
    obtain ⟨rest', hrest⟩ := List.head?_eq_some_iff.mp hx
    cases x with
    | named c v => rfl
    | kept t =>
      cases t with
      | key k => rfl
      | text u => exact absurd hrest (hno u rest')

/-- What is joined with a text at the head does not depend on the text. -/
theorem exists_joinTexts_text (xs : List Lexeme) :
    ∃ u ys, ∀ t, joinTexts (.text t :: xs) = .text (t ++ u) :: ys := by
  rcases joinTexts_text [] xs with ⟨u, ys, h, -⟩ | ⟨hno, -⟩
  · exact ⟨u, ys, fun t => by rw [joinTexts, h]⟩
  · refine ⟨[], joinTexts xs, fun t => ?_⟩
    rcases joinTexts_text t xs with ⟨u, ys, h, -⟩ | ⟨-, hj⟩
    · have hhead := hno (.text u) (by rw [h]; rfl)
      simp [text?] at hhead
    · rw [hj, List.append_nil]

/-- A text is joined with nothing but texts. -/
theorem joinTexts_text_cons {x : Lexeme} (hx : x.text? = none) (t : Bytes) (rest : List Lexeme) :
    joinTexts (.text t :: x :: rest) = .text t :: joinTexts (x :: rest) := by
  cases x with
  | named c v => rfl
  | kept t =>
    cases t with
    | key k => rfl
    | text t => simp [text?] at hx

/-- Two texts at the head are joined as one. -/
theorem joinTexts_text_text (t u : Bytes) (rest : List Lexeme) :
    joinTexts (.text t :: .text u :: rest) = joinTexts (.text (t ++ u) :: rest) := by
  simp only [joinTexts]
  match joinTexts rest with
  | [] => rfl
  | .kept (.text v) :: rest' => simp
  | .kept (.key k) :: rest' => rfl
  | .named c v :: rest' => rfl

/-- Joining looks at what follows only after joining it. -/
theorem joinTexts_append_congr {xs ys : List Lexeme} (zs : List Lexeme)
    (h : joinTexts xs = joinTexts ys) : joinTexts (zs ++ xs) = joinTexts (zs ++ ys) := by
  induction zs with
  | nil => exact h
  | cons z zs ih =>
    cases z with
    | named c v => rw [List.cons_append, List.cons_append, joinTexts_named, joinTexts_named, ih]
    | kept t =>
      cases t with
      | key k => rw [List.cons_append, List.cons_append, joinTexts_key, joinTexts_key, ih]
      | text t => rw [List.cons_append, List.cons_append, joinTexts, joinTexts, ih]

/-- Joining texts leaves their bytes. -/
theorem flatMap_text?_joinTexts (xs : List Lexeme) :
    (joinTexts xs).flatMap (fun x => x.text?.getD []) = xs.flatMap fun x => x.text?.getD [] := by
  induction xs with
  | nil => rfl
  | cons x xs ih =>
    cases x with
    | named c v => exact ih
    | kept t =>
      cases t with
      | key k => exact ih
      | text t =>
        rw [List.flatMap_cons, ← ih]
        rcases joinTexts_text t xs with ⟨u, ys, h, hj⟩ | ⟨-, hj⟩
        · rw [hj, h, List.flatMap_cons, List.flatMap_cons, ← List.append_assoc]
          rfl
        · rw [hj, List.flatMap_cons]

/-- Joining texts adds no value that is to be named. -/
theorem named_mem_of_mem_joinTexts {xs : List Lexeme} {c : Category} {v : Bytes}
    (h : .named c v ∈ joinTexts xs) : .named c v ∈ xs := by
  induction xs with
  | nil => exact h
  | cons x xs ih =>
    cases x with
    | named d w =>
      rw [joinTexts_named] at h
      exact List.mem_cons.mpr ((List.mem_cons.mp h).imp_right ih)
    | kept t =>
      cases t with
      | key k =>
        rw [joinTexts_key] at h
        exact List.mem_cons.mpr ((List.mem_cons.mp h).imp_right ih)
      | text t =>
        apply List.mem_cons_of_mem
        apply ih
        rcases joinTexts_text t xs with ⟨u, ys, hxs, hj⟩ | ⟨-, hj⟩
        · rw [hj] at h
          rw [hxs]
          exact List.mem_cons_of_mem _ (List.mem_of_ne_of_mem (by simp) h)
        · rw [hj] at h
          exact List.mem_of_ne_of_mem (by simp) h

theorem ofSource_joinTexts {xs : List Lexeme} (h : ∀ x ∈ xs, x.OfSource) :
    ∀ x ∈ joinTexts xs, x.OfSource := by
  induction xs with
  | nil => simp
  | cons x rest ih =>
    obtain ⟨hx, hrest⟩ := List.forall_mem_cons.mp h
    have hjoined := ih hrest
    cases hx with
    | literal v => exact List.forall_mem_cons.mpr ⟨.literal v, hjoined⟩
    | comment v => exact List.forall_mem_cons.mpr ⟨.comment v, hjoined⟩
    | @text t ht =>
      rcases joinTexts_text t rest with ⟨u, rest', hr, hj⟩ | ⟨-, hj⟩
      · rw [hr] at hjoined
        rw [hj]
        exact List.forall_mem_cons.mpr
          ⟨.text (by simp [ht]), (List.forall_mem_cons.mp hjoined).2⟩
      · rw [hj]
        exact List.forall_mem_cons.mpr ⟨.text ht, hjoined⟩

/-- No two texts touch after joining. -/
theorem isChain_joinTexts {xs : List Lexeme} (h : ∀ x ∈ xs, x.OfSource) :
    (joinTexts xs).IsChain fun x y => x.text? = none ∨ y.text? = none := by
  induction xs with
  | nil => exact .nil
  | cons x rest ih =>
    obtain ⟨hx, hrest⟩ := List.forall_mem_cons.mp h
    have hjoined := ih hrest
    cases hx with
    | literal v => exact List.isChain_cons.mpr ⟨fun _ _ => .inl rfl, hjoined⟩
    | comment v => exact List.isChain_cons.mpr ⟨fun _ _ => .inl rfl, hjoined⟩
    | @text t ht =>
      rcases joinTexts_text t rest with ⟨u, rest', hr, hj⟩ | ⟨hno, hj⟩
      · rw [hr, List.isChain_cons] at hjoined
        rw [hj, List.isChain_cons]
        refine ⟨fun y hy => (hjoined.1 y hy).imp_left fun hu => ?_, hjoined.2⟩
        simp [text?] at hu
      · rw [hj]
        exact List.isChain_cons.mpr ⟨fun y hy => .inr (hno y hy), hjoined⟩

/-- Nothing but texts is joined to one text. -/
theorem joinTexts_of_texts {xs : List Lexeme} (h : ∀ x ∈ xs, ∃ t, x = .text t) :
    joinTexts xs = [] ∨ ∃ t, joinTexts xs = [.text t] := by
  induction xs with
  | nil => exact .inl rfl
  | cons x rest ih =>
    obtain ⟨⟨t, rfl⟩, hrest⟩ := List.forall_mem_cons.mp h
    right
    rcases joinTexts_text t rest with ⟨u, rest', hr, hj⟩ | ⟨hno, hj⟩
    · rcases ih hrest with hnil | ⟨t', ht'⟩
      · simp [hnil] at hr
      · obtain ⟨-, rfl⟩ : t' = u ∧ rest' = [] := by simpa [ht', eq_comm] using hr
        exact ⟨_, hj⟩
    · rcases ih hrest with hnil | ⟨t', ht'⟩
      · exact ⟨t, by rw [hj, hnil]⟩
      · -- a text at the head of the rest would have been joined
        have hhead := hno (.text t') (by rw [ht']; rfl)
        simp [text?] at hhead

end Lexeme

/-- Fragments leave texts, literals and comments. -/
theorem Fragment.ofSource_stripped {keep : Keep} {text : Bytes} {f : Fragment} (hf : f ∈ split text) :
    ∀ x ∈ f.stripped keep, x.OfSource := by
  intro x hx
  cases f with
  | code t =>
    rw [stripped, List.mem_singleton] at hx
    rw [hx]
    rw [split_eq_splitFrom] at hf
    exact .text (ne_nil_of_code_mem_splitFrom hf)
  | literal q body =>
    rw [stripped] at hx
    split at hx
    · rw [List.mem_singleton.mp hx]
      exact .literal _
    · rw [List.mem_singleton.mp hx]
      exact .text (by simp)
  | lineComment body ended =>
    rw [stripped] at hx
    split at hx
    · split at hx
      · rcases List.mem_cons.mp hx with rfl | hx
        · exact .comment _
        · rw [List.mem_singleton.mp hx]
          exact .text (by simp)
      · rw [List.mem_singleton.mp hx]
        exact .comment _
    · simp at hx
  | blockComment body =>
    rw [stripped] at hx
    split at hx
    · rw [List.mem_singleton.mp hx]
      exact .comment _
    · rw [List.mem_singleton.mp hx]
      exact .text (by simp)
  | openLiteral q body => simp [stripped] at hx
  | openComment body => simp [stripped] at hx

theorem Fragment.ofSource_flatMap_stripped (keep : Keep) (text : Bytes) :
    ∀ x ∈ (split text).flatMap (stripped keep), x.OfSource := by
  intro x hx
  obtain ⟨f, hf, hxf⟩ := List.mem_flatMap.mp hx
  exact ofSource_stripped hf x hxf

theorem ofSource_strippedLexemes (keep : Keep) (text : Bytes) :
    ∀ x ∈ strippedLexemes keep text, x.OfSource :=
  Lexeme.ofSource_joinTexts (Fragment.ofSource_flatMap_stripped keep text)

/-- The values of a category are named in stripping, if it is one of literals or comments that are
kept. -/
def Keep.names (keep : Keep) : Category → Bool
  | .literal => keep.literals
  | .comment => keep.comments
  | _ => false

/-- Fragments leave no values but those of the categories that are kept. -/
theorem Fragment.names_of_mem_stripped {keep : Keep} {f : Fragment} {c : Category} {v : Bytes}
    (h : .named c v ∈ f.stripped keep) : keep.names c := by
  cases f with
  | code t => simp [stripped] at h
  | literal q body =>
    rw [stripped] at h
    split at h
    · next hkeep =>
      obtain ⟨rfl, -⟩ := Lexeme.named.inj (List.mem_singleton.mp h)
      exact hkeep
    · simp at h
  | lineComment body ended =>
    rw [stripped] at h
    split at h
    · next hkeep =>
      obtain rfl : c = .comment := by
        cases ended with
        | false => exact (Lexeme.named.inj (List.mem_singleton.mp h)).1
        | true =>
          rw [if_pos rfl] at h
          rcases List.mem_cons.mp h with h | h
          · exact (Lexeme.named.inj h).1
          · simp at h
      exact hkeep
    · simp at h
  | blockComment body =>
    rw [stripped] at h
    split at h
    · next hkeep =>
      obtain ⟨rfl, -⟩ := Lexeme.named.inj (List.mem_singleton.mp h)
      exact hkeep
    · simp at h
  | openLiteral q body => simp [stripped] at h
  | openComment body => simp [stripped] at h

/-- Stripping names no values of a category that is not kept. -/
theorem named_notMem_strippedLexemes {keep : Keep} {c : Category} (h : keep.names c = false)
    (text v : Bytes) : .named c v ∉ strippedLexemes keep text := by
  intro hv
  obtain ⟨f, -, hf⟩ := List.mem_flatMap.mp (Lexeme.named_mem_of_mem_joinTexts hv)
  have hnames := Fragment.names_of_mem_stripped hf
  rw [h] at hnames
  cases hnames

/-- No two texts of a stripped text touch. -/
theorem isChain_strippedLexemes (keep : Keep) (text : Bytes) :
    (strippedLexemes keep text).IsChain fun x y => x.text? = none ∨ y.text? = none :=
  Lexeme.isChain_joinTexts (Fragment.ofSource_flatMap_stripped keep text)

/-! ### What tokens stand for -/

namespace Registry

variable {r s : Registry}

/-- The lexeme that a token stands for: a text itself, and the category and text of a key. -/
def lexemeOf (s : Registry) : Token → Lexeme
  | .text t => .text t
  | .key k => .named k.category (s.restore (.key k))

theorem lexemeOf_of_get? {k : Key} {v : Bytes} (h : s.get? k = some v) :
    s.lexemeOf (.key k) = .named k.category v := by
  rw [lexemeOf, restore, h, Option.getD_some]

theorem map_lexemeOf_of_names {xs : List Lexeme} {ts : List Token}
    (h : List.Forall₂ s.Names xs ts) (hx : ∀ x ∈ xs, x.OfSource) : ts.map s.lexemeOf = xs := by
  induction h with
  | nil => rfl
  | @cons x t xs ts hxt _ ih =>
    obtain ⟨hx, hxs⟩ := List.forall_mem_cons.mp hx
    rw [List.map_cons, ih hxs]
    cases hxt with
    | named hk => rw [lexemeOf_of_get? hk]
    | kept t => cases hx; rfl

/-- **Stripped text stands for the stripped lexemes of its source.** -/
theorem map_lexemeOf_strip {keep : Keep} {text : Bytes} (h : r.Grows (r.strip keep text).2) :
    (r.strip keep text).1.map (r.strip keep text).2.lexemeOf = strippedLexemes keep text :=
  map_lexemeOf_of_names (names_assign h) (ofSource_strippedLexemes keep text)

theorem adds_strip (r : Registry) (keep : Keep) (text : Bytes) : r.Adds (r.strip keep text).2 :=
  adds_assign r _

/-- All keys of stripped text are live. -/
theorem live_strip {keep : Keep} {text : Bytes} (h : r.Grows (r.strip keep text).2) :
    (r.strip keep text).2.Live (r.strip keep text).1 := by
  refine live_of_names (names_assign h) fun k hk => ?_
  cases ofSource_strippedLexemes keep text _ hk

/-- The keys of stripped text are those of literals and comments. -/
theorem category_of_mem_strip {keep : Keep} {text : Bytes} (h : r.Grows (r.strip keep text).2)
    {k : Key} (hk : .key k ∈ (r.strip keep text).1) :
    k.category = .literal ∨ k.category = .comment := by
  have hmem := List.mem_map_of_mem (f := (r.strip keep text).2.lexemeOf) hk
  rw [map_lexemeOf_strip h] at hmem
  have hof := ofSource_strippedLexemes keep text _ hmem
  rw [lexemeOf] at hof
  generalize k.category = c at hof
  cases hof with
  | literal => exact .inl rfl
  | comment => exact .inr rfl

end Registry

/-! ### Stripping with nothing kept -/

/-- With nothing kept, a source text leaves one text at most. -/
theorem strippedLexemes_plain (text : Bytes) :
    strippedLexemes {} text = [] ∨ ∃ t, strippedLexemes {} text = [.text t] := by
  refine Lexeme.joinTexts_of_texts fun x hx => ?_
  obtain ⟨f, -, hxf⟩ := List.mem_flatMap.mp hx
  cases f <;> simp [Fragment.stripped] at hxf <;> exact ⟨_, hxf⟩

/-- **With nothing kept, stripping leaves one text at most, and names nothing.** -/
theorem Registry.strip_plain (r : Registry) (text : Bytes) :
    r.strip {} text = ([], r) ∨ ∃ t, r.strip {} text = ([.text t], r) := by
  rcases strippedLexemes_plain text with h | ⟨t, h⟩
  · left
    rw [strip, h, assign_nil]
  · right
    exact ⟨t, by rw [strip, h, assign_kept, assign_nil]⟩

end Lexicon
