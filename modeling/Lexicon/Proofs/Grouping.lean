import Lexicon.Grouping
import Lexicon.Proofs.Naming

/-!
# Groups of tokens

A pass cuts its list of tokens into consecutive groups.  A group of one token may be kept; any
other group consists of texts, and their concatenation is named.  Which texts may form a group
depends on the category of the value alone.

## Main definitions

* `Language.IsGroup c g` — the texts `g` are joined into a value of category `c`.
* `Language.Covers xs ts` — the lexemes `xs` stand for consecutive groups of the tokens `ts`.

## Main results

* `Language.covers_lexemes` — **every pass covers its tokens**: none is lost, doubled or moved.
* `Registry.Live.group`, `Registry.Live.groupAll` — passes leave live tokens live.
* `Registry.groupAll_eq_of_extends` — grouping the same tokens again later gives the same keys.
-/

namespace Lexicon

/-! ### Groups -/

namespace Language

variable {l : Language}

/-- `l.IsGroup c g` says that a pass may join the texts `g` into one value of category `c`. -/
inductive IsGroup (l : Language) : Category → List Bytes → Prop
  /-- A number without a point. -/
  | digits {d : Bytes} (hd : isDigitRun d) : IsGroup l .primitive [d]
  /-- A number that ends in its point. -/
  | digitsPoint {d : Bytes} (hd : isDigitRun d) : IsGroup l .primitive [d, point]
  /-- A number with digits on both sides of its point. -/
  | decimal {d e : Bytes} (hd : isDigitRun d) (he : isDigitRun e) :
      IsGroup l .primitive [d, point, e]
  /-- A number that starts with its point. -/
  | fraction {e : Bytes} (he : isDigitRun e) : IsGroup l .primitive [point, e]
  /-- A single name. -/
  | name {m : Bytes} (hm : l.isObjectName m) : IsGroup l .object [m]
  /-- A name that is joined to a chain of names. -/
  | call {m d : Bytes} {g : List Bytes} (hm : l.isObjectName m) (hd : l.isCall d)
      (hg : IsGroup l .object g) : IsGroup l .object (m :: d :: g)
  | keyword {k : Bytes} (hk : l.isKeyword k) : IsGroup l .keyword [k]
  | delimiter {d : Bytes} (hd : l.isDelimiter d) : IsGroup l .delimiter [d]

theorem IsGroup.ne_nil {c : Category} {g : List Bytes} (h : l.IsGroup c g) : g ≠ [] := by
  cases h <;> exact List.cons_ne_nil _ _

/-- `l.Covers xs ts` says that the lexemes `xs` stand, one by one, for consecutive groups of the
tokens `ts`. -/
inductive Covers (l : Language) : List Lexeme → List Token → Prop
  | nil : Covers l [] []
  | kept (t : Token) {xs : List Lexeme} {ts : List Token} :
      Covers l xs ts → Covers l (.kept t :: xs) (t :: ts)
  | named {c : Category} {g : List Bytes} (hg : l.IsGroup c g) {xs : List Lexeme}
      {ts : List Token} :
      Covers l xs ts → Covers l (.named c g.flatten :: xs) (g.map .text ++ ts)

/-- A value that starts with the text `t` and goes on with a part `u` of the texts after it. -/
theorem Covers.named_cons {c : Category} {t u : Bytes} {g : List Bytes} {xs : List Lexeme}
    {rest rest' : List Token} (hg : l.IsGroup c (t :: g)) (hu : u = g.flatten)
    (hrest : rest = g.map .text ++ rest') (h : l.Covers xs rest') :
    l.Covers (.named c (t ++ u) :: xs) (.text t :: rest) := by
  rw [hu, hrest]
  exact .named hg h

/-- A token that is kept is one of those covered. -/
theorem Covers.mem_of_kept {xs : List Lexeme} {ts : List Token} (h : l.Covers xs ts) {t : Token}
    (ht : .kept t ∈ xs) : t ∈ ts := by
  induction h with
  | nil => simp at ht
  | kept u _ ih =>
    rcases List.mem_cons.mp ht with heq | ht
    · rw [Lexeme.kept.inj heq]
      exact List.mem_cons_self
    · exact List.mem_cons_of_mem _ (ih ht)
  | named hg _ ih =>
    rcases List.mem_cons.mp ht with heq | ht
    · simp at heq
    · exact List.mem_append_right _ (ih ht)

end Language

/-! ### Numbers -/

/-- Digits are taken from the head of a list of tokens, or nothing is. -/
theorem digitsOf_cases (tokens : List Token) :
    digitsOf tokens = ([], tokens) ∨
      ∃ d rest, isDigitRun d ∧ tokens = .text d :: rest ∧ digitsOf tokens = (d, rest) := by
  unfold digitsOf
  split
  · next t rest =>
    split
    · next ht => exact .inr ⟨t, rest, ht, rfl, rfl⟩
    · exact .inl rfl
  · exact .inl rfl

/-- A fraction is a point with digits after it, or the point alone, or nothing. -/
theorem fractionOf_cases (tokens : List Token) :
    fractionOf tokens = ([], tokens) ∨
      ∃ rest, tokens = .text point :: rest ∧
        fractionOf tokens = (point ++ (digitsOf rest).1, (digitsOf rest).2) := by
  unfold fractionOf
  split
  · next t rest =>
    split
    · next ht => exact .inr ⟨rest, by rw [ht], rfl⟩
    · exact .inl rfl
  · exact .inl rfl

namespace Language

variable {l : Language}

/-- The fraction after some digits continues their group. -/
theorem exists_group_fractionOf {d : Bytes} (hd : isDigitRun d) (rest : List Token) :
    ∃ g, l.IsGroup .primitive (d :: g) ∧ (fractionOf rest).1 = g.flatten ∧
      rest = g.map .text ++ (fractionOf rest).2 := by
  rcases fractionOf_cases rest with hf | ⟨rest', rfl, hf⟩
  · exact ⟨[], .digits hd, by rw [hf]; rfl, by rw [hf]; rfl⟩
  · rcases digitsOf_cases rest' with he | ⟨e, rest'', hrun, rfl, he⟩
    · exact ⟨[point], .digitsPoint hd, by rw [hf, he]; rfl, by rw [hf, he]; rfl⟩
    · refine ⟨[point, e], .decimal hd hrun, ?_, by rw [hf, he]; rfl⟩
      rw [hf, he]
      simp

theorem covers_nameNumbers (l : Language) (tokens : List Token) :
    l.Covers (nameNumbers tokens) tokens := by
  fun_induction nameNumbers tokens with
  | case1 => exact .nil
  | case2 k rest ih => exact .kept _ ih
  | case3 t rest ht _ ih =>
    -- digits, and the fraction after them
    obtain ⟨g, hg, hu, hrest⟩ := exists_group_fractionOf ht rest
    exact .named_cons hg hu hrest ih
  | case4 t rest _ ht _ ih =>
    -- a point that digits follow
    obtain ⟨rfl, hne⟩ := ht
    rcases digitsOf_cases rest with he | ⟨e, rest', hrun, rfl, he⟩
    · rw [he] at hne
      exact absurd rfl hne
    · exact .named_cons (.fraction hrun) (by rw [he]; simp) (by rw [he]; rfl) ih
  | case5 t rest _ _ ih => exact .kept _ ih

/-! ### Chains of names -/

/-- The calls after a name continue its group. -/
theorem exists_group_callsOf (rest : List Token) {m : Bytes} (hm : l.isObjectName m) :
    ∃ g, l.IsGroup .object (m :: g) ∧ (l.callsOf rest).1 = g.flatten ∧
      rest = g.map .text ++ (l.callsOf rest).2 := by
  fun_induction callsOf l rest generalizing m with
  | case1 d m' rest h ih =>
    rw [Bool.and_eq_true] at h
    obtain ⟨g, hg, hu, hrest⟩ := ih h.2
    refine ⟨d :: m' :: g, .call hm h.1 hg, ?_, ?_⟩
    · rw [hu]
      simp
    · simpa using hrest
  | case2 d m' rest h => exact ⟨[], .name hm, rfl, rfl⟩
  | case3 tokens h => exact ⟨[], .name hm, rfl, rfl⟩

theorem covers_nameObjects (l : Language) (tokens : List Token) :
    l.Covers (l.nameObjects tokens) tokens := by
  fun_induction nameObjects l tokens with
  | case1 => exact .nil
  | case2 k rest ih => exact .kept _ ih
  | case3 t rest ht _ ih =>
    obtain ⟨g, hg, hu, hrest⟩ := exists_group_callsOf rest ht
    exact .named_cons hg hu hrest ih
  | case4 t rest _ ih => exact .kept _ ih

/-! ### Keywords, delimiters, and all passes -/

@[simp] theorem nameTexts_text (c : Category) (p : Bytes → Bool) (t : Bytes) (rest : List Token) :
    nameTexts c p (.text t :: rest) =
      (if p t then .named c t else .text t) :: nameTexts c p rest := rfl

@[simp] theorem nameTexts_key (c : Category) (p : Bytes → Bool) (k : Key) (rest : List Token) :
    nameTexts c p (.key k :: rest) = .kept (.key k) :: nameTexts c p rest := rfl

theorem covers_nameTexts {c : Category} {p : Bytes → Bool}
    (hp : ∀ t, p t → l.IsGroup c [t]) (tokens : List Token) :
    l.Covers (nameTexts c p tokens) tokens := by
  induction tokens with
  | nil => exact .nil
  | cons t rest ih =>
    cases t with
    | key k => exact .kept _ ih
    | text t =>
      rw [nameTexts_text]
      split
      · next ht => simpa using Covers.named (hp t ht) ih
      · exact .kept _ ih

/-- **Every pass covers its tokens.** -/
theorem covers_lexemes (l : Language) (p : Pass) (tokens : List Token) :
    l.Covers (p.lexemes l tokens) tokens := by
  cases p with
  | numbers => exact covers_nameNumbers l tokens
  | objects => exact covers_nameObjects l tokens
  | keywords => exact covers_nameTexts (fun _ h => .keyword h) tokens
  | delimiters => exact covers_nameTexts (fun _ h => .delimiter h) tokens

end Language

/-! ### Passes over a registry -/

namespace Registry

variable {r s : Registry} {l : Language}

theorem adds_groupAll (r : Registry) (l : Language) (ts : List Token) (ps : List Pass) :
    r.Adds (r.groupAll l ts ps).2 := by
  induction ps generalizing r ts with
  | nil => exact .refl r
  | cons p ps ih => exact (adds_assign r _).trans (ih _ _)

/-- The first pass of some, and the others after it. -/
theorem Grows.group {p : Pass} {ps : List Pass} {ts : List Token}
    (h : r.Grows (r.groupAll l ts (p :: ps)).2) :
    r.Grows (r.group l p ts).2 ∧
      (r.group l p ts).2.Grows (r.groupAll l ts (p :: ps)).2 :=
  h.split (adds_assign r _) (adds_groupAll _ l _ ps)

/-- The tokens that a pass returns stand for its lexemes from then on. -/
theorem names_group {p : Pass} {ts : List Token} (h : r.Grows (r.group l p ts).2)
    (he : (r.group l p ts).2.Extends s) :
    List.Forall₂ s.Names (p.lexemes l ts) (r.group l p ts).1 :=
  (names_assign h).imp fun _ _ hx => hx.mono he

/-- A pass leaves live tokens live. -/
theorem Live.group {p : Pass} {ts : List Token} (hl : r.Live ts)
    (h : r.Grows (r.group l p ts).2) : (r.group l p ts).2.Live (r.group l p ts).1 := by
  have hlive := hl.mono h.extends
  refine live_of_names (names_group h (.refl _)) fun k hk => ?_
  exact hlive k ((Language.covers_lexemes l p ts).mem_of_kept hk)

/-- Passes leave live tokens live. -/
theorem Live.groupAll {ps : List Pass} {ts : List Token} (hl : r.Live ts)
    (h : r.Grows (r.groupAll l ts ps).2) : (r.groupAll l ts ps).2.Live (r.groupAll l ts ps).1 := by
  induction ps generalizing r ts with
  | nil => exact hl
  | cons p ps ih =>
    obtain ⟨h₁, h₂⟩ := h.group
    exact ih (hl.group h₁) h₂

/-- **Grouping the same tokens again later gives the same keys**, and nothing is named anew. -/
theorem groupAll_eq_of_extends (hs : s.Sound) {ps : List Pass} {ts : List Token}
    (h : r.Grows (r.groupAll l ts ps).2) (he : (r.groupAll l ts ps).2.Extends s) :
    s.groupAll l ts ps = ((r.groupAll l ts ps).1, s) := by
  induction ps generalizing r ts with
  | nil => rfl
  | cons p ps ih =>
    obtain ⟨h₁, h₂⟩ := h.group
    -- every value of the first pass is live in `s`, so that the pass names nothing there
    have hnames := names_group h₁ (h₂.extends.trans he)
    have hfirst : s.group l p ts = ((r.group l p ts).1, s) := assign_eq_of_names hs hnames
    rw [Registry.groupAll, hfirst]
    exact ih h₂ he

end Registry
end Lexicon
