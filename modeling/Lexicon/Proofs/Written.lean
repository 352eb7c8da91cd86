import Lexicon.Definition
import Mathlib.Data.List.Perm.Basic

/-!
# Written values

A definition is read from left to right, one byte ahead at most, so that every part of it is read
just as if nothing stood behind it.  The written forms of the values are given here apart from the
readers, with all the freedom of layout that there is, and every reader is shown to read the written
forms of its values and nothing else.

## Main definitions

* `Definition.IsBlank p g` — `g` is white space and comments, and the comments are in `p`.
* `Definition.StringText v t`, `Definition.ListText p vs t` — `t` is a written form of the string
  `v`, and of the list `vs`.
* `Field.Writes p f l t` — `t` is a written form of the field `f` of the language `l`.
* `Field.copy f source l` — the language `l`, with the field `f` taken from `source`.

## Main results

* `Definition.readString_iff`, `Definition.readList_iff`, `Field.read_iff` — **the readers of values
  read their written forms, and nothing else.**
* `Field.exists_writes` — every value can be written.
* `Field.foldl_copy` — the fields can be copied in any order.
-/

namespace Lexicon

namespace Definition

/-! ### White space and comments -/

/-- A text of white space. -/
def IsSpaces (t : Bytes) : Prop := ∀ b ∈ t, Byte.isSpace b = true

instance (t : Bytes) : Decidable (IsSpaces t) := List.decidableBAll _ t

/-- A byte that is neither white space nor the start of a comment. -/
def IsVisible (b : UInt8) : Prop := Byte.isSpace b = false ∧ b ≠ Byte.hash

/-- `IsBlank p g` says that `g` consists of white space and of comments, each ended by a newline,
with texts in `p`. -/
inductive IsBlank (p : Bytes → Prop) : Bytes → Prop
  | nil : IsBlank p []
  | space {b : UInt8} {g : Bytes} (hb : Byte.isSpace b) : IsBlank p g → IsBlank p (b :: g)
  | comment {c g : Bytes} (hc : Byte.newline ∉ c) (hp : p c) :
      IsBlank p g → IsBlank p (Byte.hash :: c ++ Byte.newline :: g)

/-- Any white space and comments. -/
abbrev Blank (g : Bytes) : Prop := IsBlank (fun _ => True) g

variable {p : Bytes → Prop}

/-- White space is passed over up to a byte that is none. -/
theorem skipSpace_append {s t : Bytes} (hs : IsSpaces s)
    (ht : ∀ b ∈ t.head?, Byte.isSpace b = false) : skipSpace (s ++ t) = t := by
  rw [skipSpace, List.dropWhile_append_of_pos hs]
  cases t with
  | nil => rfl
  | cons b t => rw [List.dropWhile_cons_of_neg (by simp [ht b rfl])]

theorem skipBlank_comment {c : Bytes} (hc : Byte.newline ∉ c) (t : Bytes) :
    skipBlank true (c ++ Byte.newline :: t) = skipBlank false t := by
  induction c with
  | nil => rfl
  | cons b c ih =>
    rw [List.mem_cons, not_or] at hc
    have hgo : (b != Byte.newline) = true := by simpa using Ne.symm hc.1
    rw [List.cons_append, skipBlank, if_pos rfl, hgo, ih hc.2]

/-- White space and comments are passed over. -/
theorem skipBlank_append {g : Bytes} (h : IsBlank p g) (t : Bytes) :
    skipBlank false (g ++ t) = skipBlank false t := by
  induction h with
  | nil => rfl
  | @space b g hb _ ih => rw [List.cons_append, skipBlank, if_neg (by simp), if_pos hb, ih]
  | @comment c g hc _ _ ih =>
    rw [List.append_assoc, List.cons_append, skipBlank, if_neg (by simp), if_neg (by decide),
      if_pos rfl, List.cons_append, skipBlank_comment hc, ih]

theorem skipBlank_of_visible {b : UInt8} (h : IsVisible b) (t : Bytes) :
    skipBlank false (b :: t) = b :: t := by
  rw [skipBlank, if_neg (by simp), if_neg (by simp [h.1]), if_neg h.2]

/-- What is passed over in front of a byte is white space and comments, and the byte is visible. -/
theorem exists_blank_of_skipBlank {inComment : Bool} {t rest : Bytes} {b : UInt8}
    (h : skipBlank inComment t = b :: rest) :
    ∃ g, t = g ++ b :: rest ∧ IsVisible b ∧
      if inComment then ∃ c g', Byte.newline ∉ c ∧ Blank g' ∧ g = c ++ Byte.newline :: g'
      else Blank g := by
  fun_induction skipBlank inComment t with
  | case1 => simp at h
  | case2 d t ih =>
    -- in a comment, which the newline ends
    obtain ⟨g, rfl, hb, hg⟩ := ih h
    refine ⟨d :: g, rfl, hb, ?_⟩
    rw [if_pos rfl]
    by_cases hd : d = Byte.newline
    · rw [if_neg (by simp [hd])] at hg
      exact ⟨[], g, List.not_mem_nil, hg, by rw [hd]; rfl⟩
    · rw [if_pos (by simp [hd])] at hg
      obtain ⟨c, g', hc, hg', rfl⟩ := hg
      exact ⟨d :: c, g', List.not_mem_cons_of_ne_of_not_mem (Ne.symm hd) hc, hg', rfl⟩
  | case3 inComment d t hin hd ih =>
    obtain ⟨g, rfl, hb, hg⟩ := ih h
    rw [if_neg (by simp)] at hg
    exact ⟨d :: g, rfl, hb, by rw [if_neg hin]; exact .space hd hg⟩
  | case4 inComment t hin hd ih =>
    obtain ⟨g, rfl, hb, hg⟩ := ih h
    rw [if_pos rfl] at hg
    obtain ⟨c, g', hc, hg', rfl⟩ := hg
    exact ⟨_, rfl, hb, by rw [if_neg hin]; exact .comment hc trivial hg'⟩
  | case5 inComment d t hin hs hd =>
    obtain ⟨rfl, rfl⟩ := List.cons.inj h
    exact ⟨[], rfl, ⟨by simpa using hs, hd⟩, by rw [if_neg hin]; exact .nil⟩

/-! ### Names -/

/-- A name that is not empty. -/
def IsName (k : Bytes) : Prop := k ≠ [] ∧ ∀ b ∈ k, isNameByte b = true

instance (k : Bytes) : Decidable (IsName k) := inferInstanceAs (Decidable (_ ∧ _))

/-- A name ends where a byte follows that is not part of one. -/
theorem readName_append {k t : Bytes} (hk : ∀ b ∈ k, isNameByte b = true)
    (ht : ∀ b ∈ t.head?, isNameByte b = false) : readName (k ++ t) = (k, t) := by
  rw [readName, List.takeWhile_append_of_pos hk, List.dropWhile_append_of_pos hk]
  cases t with
  | nil => simp
  | cons b t =>
    have hb : ¬isNameByte b = true := by simp [ht b rfl]
    rw [List.takeWhile_cons_of_neg hb, List.dropWhile_cons_of_neg hb, List.append_nil]

/-- A byte of a name is visible, and opens no bracket. -/
theorem isVisible_of_isNameByte {b : UInt8} (h : isNameByte b) :
    IsVisible b ∧ b ≠ Byte.openBracket := by
  simp [isNameByte, IsVisible, Byte.isLetter, Byte.isUpper, Byte.isLower, Byte.isDigit,
    Byte.isSpace] at h ⊢
  grind

/-- Neither white space nor an equals sign is part of a name. -/
theorem not_isNameByte {b : UInt8} (h : Byte.isSpace b ∨ b = Byte.equals) :
    isNameByte b = false := by
  simp [isNameByte, Byte.isLetter, Byte.isUpper, Byte.isLower, Byte.isDigit, Byte.isSpace] at h ⊢
  grind

/-! ### Strings -/

/-- `StringBody v t` says that the string `v` can be written as `t` between its quotes.  A byte is
written as it is, or behind a backslash; a quote, a newline and a backslash take the backslash. -/
inductive StringBody : Bytes → Bytes → Prop
  | nil : StringBody [] []
  | raw {b : UInt8} {v t : Bytes} (hquote : b ≠ Byte.doubleQuote) (hline : b ≠ Byte.newline)
      (hescape : b ≠ Byte.backslash) : StringBody v t → StringBody (b :: v) (b :: t)
  | escaped (e : UInt8) {v t : Bytes} :
      StringBody v t → StringBody (unescape e :: v) (Byte.backslash :: e :: t)

/-- `StringText v t` says that `t` is a written form of the string `v`. -/
def StringText (v t : Bytes) : Prop :=
  ∃ body, StringBody v body ∧ t = Byte.doubleQuote :: body ++ [Byte.doubleQuote]

theorem readStringBody_quote (rest : Bytes) :
    readStringBody (Byte.doubleQuote :: rest) = .ok ([], rest) := by
  rw [readStringBody.eq_def]
  rfl

theorem readStringBody_raw {b : UInt8} (hquote : b ≠ Byte.doubleQuote) (hline : b ≠ Byte.newline)
    (hescape : b ≠ Byte.backslash) (t : Bytes) :
    readStringBody (b :: t) = withFirst b (readStringBody t) := by
  rw [readStringBody.eq_def]
  simp only [if_neg hquote, if_neg hline, if_neg hescape]

theorem readStringBody_escaped (e : UInt8) (t : Bytes) :
    readStringBody (Byte.backslash :: e :: t) = withFirst (unescape e) (readStringBody t) := by
  rw [readStringBody.eq_def]
  rfl

theorem readStringBody_append {v t : Bytes} (h : StringBody v t) (rest : Bytes) :
    readStringBody (t ++ Byte.doubleQuote :: rest) = .ok (v, rest) := by
  induction h with
  | nil => exact readStringBody_quote rest
  | raw hquote hline hescape _ ih =>
    rw [List.cons_append, readStringBody_raw hquote hline hescape, ih]
    rfl
  | escaped e _ ih =>
    rw [List.cons_append, List.cons_append, readStringBody_escaped, ih]
    rfl

theorem exists_body_of_readStringBody {v t rest : Bytes} (h : readStringBody t = .ok (v, rest)) :
    ∃ body, StringBody v body ∧ t = body ++ Byte.doubleQuote :: rest := by
  fun_induction readStringBody t generalizing v with
  | case1 => cases h
  | case2 =>
    cases h
    exact ⟨[], .nil, rfl⟩
  | case3 => cases h
  | case4 => cases h
  | case5 e t _ _ ih =>
    obtain ⟨u, rfl, hu⟩ := withFirst_eq_ok h
    obtain ⟨body, hbody, rfl⟩ := ih hu
    exact ⟨_, .escaped e hbody, rfl⟩
  | case6 b t hquote hline hescape ih =>
    obtain ⟨u, rfl, hu⟩ := withFirst_eq_ok h
    obtain ⟨body, hbody, rfl⟩ := ih hu
    exact ⟨_, .raw hquote hline hescape hbody, rfl⟩

/-- **The reader of strings reads their written forms, and nothing else.** -/
theorem readString_iff {v t rest : Bytes} :
    readString t = .ok (v, rest) ↔ ∃ w, StringText v w ∧ t = w ++ rest := by
  constructor
  · intro h
    cases t with
    | nil => cases h
    | cons b t =>
      rw [readString] at h
      split at h
      · next hb =>
        obtain ⟨body, hbody, rfl⟩ := exists_body_of_readStringBody h
        exact ⟨_, ⟨body, hbody, rfl⟩, by simp [hb]⟩
      · cases h
  · rintro ⟨w, ⟨body, hbody, rfl⟩, rfl⟩
    rw [List.append_assoc, List.cons_append, readString, if_pos rfl]
    exact readStringBody_append hbody rest

/-! ### Lists -/

/-- `ItemsText p vs t` says that the list `vs` can be written as `t` from its first item on, up to
its closing bracket.  Commas separate the items, and one may follow the last. -/
inductive ItemsText (p : Bytes → Prop) : List Bytes → Bytes → Prop
  | nil : ItemsText p [] [Byte.closeBracket]
  | last {v w g : Bytes} (hv : StringText v w) (hg : IsBlank p g) :
      ItemsText p [v] (w ++ g ++ [Byte.closeBracket])
  | cons {v w g g' t : Bytes} {vs : List Bytes} (hv : StringText v w) (hg : IsBlank p g)
      (hg' : IsBlank p g') :
      ItemsText p vs t → ItemsText p (v :: vs) (w ++ g ++ Byte.comma :: (g' ++ t))

/-- `ListText p vs t` says that `t` is a written form of the list `vs`, with comments in `p`. -/
def ListText (p : Bytes → Prop) (vs : List Bytes) (t : Bytes) : Prop :=
  ∃ g items, IsBlank p g ∧ ItemsText p vs items ∧ t = Byte.openBracket :: (g ++ items)

/-- What a list is written as starts at a byte that is visible. -/
theorem ItemsText.exists_cons {vs : List Bytes} {t : Bytes} (h : ItemsText p vs t) :
    ∃ b t', t = b :: t' ∧ IsVisible b := by
  cases h with
  | nil => exact ⟨_, _, rfl, by decide, by decide⟩
  | last hv _ =>
    obtain ⟨body, -, rfl⟩ := hv
    exact ⟨_, _, rfl, by decide, by decide⟩
  | cons hv _ _ _ =>
    obtain ⟨body, -, rfl⟩ := hv
    exact ⟨_, _, rfl, by decide, by decide⟩

theorem ItemsText.skipBlank_append {vs : List Bytes} {g t : Bytes} (h : ItemsText p vs t)
    (hg : IsBlank p g) (rest : Bytes) : skipBlank false (g ++ t ++ rest) = t ++ rest := by
  obtain ⟨b, t', rfl, hb⟩ := h.exists_cons
  rw [List.append_assoc, Definition.skipBlank_append hg, List.cons_append, skipBlank_of_visible hb]

/-- The first item, and what stands behind it. -/
theorem readItems_string {v w : Bytes} (hv : StringText v w) {rest after : Bytes} {c : UInt8}
    (h : skipBlank false rest = c :: after) :
    readItems (w ++ rest) =
      if c = Byte.comma then withFirst v (readItems (skipBlank false after))
      else if c = Byte.closeBracket then .ok ([v], after)
      else .error ⟨.noCommaInList, c :: after⟩ := by
  obtain ⟨body, hbody, rfl⟩ := hv
  have hread := readStringBody_append hbody rest
  rw [List.append_assoc, List.cons_append, readItems]
  rw [if_neg (by decide), if_pos rfl]
  split
  · next heq =>
    rw [List.singleton_append, hread] at heq
    cases heq
  · next item rest' heq =>
    rw [List.singleton_append, hread] at heq
    cases heq
    split
    · next hnil =>
      rw [h] at hnil
      cases hnil
    · next hcons =>
      rw [h] at hcons
      cases hcons
      rfl

theorem readItems_append {vs : List Bytes} {t : Bytes} (h : ItemsText p vs t) (rest : Bytes) :
    readItems (t ++ rest) = .ok (vs, rest) := by
  induction h with
  | nil =>
    rw [List.singleton_append, readItems]
    rfl
  | last hv hg =>
    have hskip := skipBlank_append hg (Byte.closeBracket :: rest)
    rw [skipBlank_of_visible ⟨by decide, by decide⟩] at hskip
    rw [List.append_assoc, List.append_assoc, List.singleton_append, readItems_string hv hskip]
    rfl
  | @cons v w g g' t vs hv hg hg' hitems ih =>
    have hskip := skipBlank_append hg (Byte.comma :: (g' ++ t ++ rest))
    rw [skipBlank_of_visible ⟨by decide, by decide⟩] at hskip
    rw [List.append_assoc, List.append_assoc, List.cons_append, readItems_string hv hskip,
      if_pos rfl, hitems.skipBlank_append hg', ih]
    rfl

theorem exists_items_of_readItems {vs : List Bytes} {t rest : Bytes}
    (h : readItems t = .ok (vs, rest)) :
    ∃ items, ItemsText (fun _ => True) vs items ∧ t = items ++ rest := by
  fun_induction readItems t generalizing vs with
  | case1 => cases h
  | case2 =>
    cases h
    exact ⟨_, .nil, rfl⟩
  | case3 => cases h
  | case4 => cases h
  | case5 t item rest' hitem after _ hafter hlt ih =>
    obtain ⟨u, rfl, hu⟩ := withFirst_eq_ok h
    obtain ⟨body, hbody, rfl⟩ := exists_body_of_readStringBody hitem
    obtain ⟨g, rfl, -, hg⟩ := exists_blank_of_skipBlank hafter
    obtain ⟨items, hitems, heq⟩ := ih hu
    -- the next item, or the closing bracket, is what the white space after the comma ends at
    obtain ⟨b, items', rfl, -⟩ := hitems.exists_cons
    obtain ⟨g', rfl, -, hg'⟩ := exists_blank_of_skipBlank heq
    exact ⟨_, .cons ⟨body, hbody, rfl⟩ hg hg' hitems, by simp⟩
  | case6 t item rest' hitem after _ hafter =>
    cases h
    obtain ⟨body, hbody, rfl⟩ := exists_body_of_readStringBody hitem
    obtain ⟨g, rfl, -, hg⟩ := exists_blank_of_skipBlank hafter
    exact ⟨_, .last ⟨body, hbody, rfl⟩ hg, by simp⟩
  | case7 => cases h
  | case8 => cases h

theorem readList_append {vs : List Bytes} {t : Bytes} (h : ListText p vs t) (rest : Bytes) :
    readList (t ++ rest) = .ok (vs, rest) := by
  obtain ⟨g, items, hg, hitems, rfl⟩ := h
  rw [List.cons_append, readList, if_pos rfl, hitems.skipBlank_append hg, readItems_append hitems]

/-- **The reader of lists reads their written forms, and nothing else.** -/
theorem readList_iff {vs : List Bytes} {t rest : Bytes} :
    readList t = .ok (vs, rest) ↔ ∃ w, ListText (fun _ => True) vs w ∧ t = w ++ rest := by
  constructor
  · intro h
    cases t with
    | nil => cases h
    | cons b t =>
      rw [readList] at h
      split at h
      · next hb =>
        obtain ⟨items, hitems, heq⟩ := exists_items_of_readItems h
        obtain ⟨c, items', rfl, -⟩ := hitems.exists_cons
        obtain ⟨g, rfl, -, hg⟩ := exists_blank_of_skipBlank heq
        exact ⟨_, ⟨g, _, hg, hitems, rfl⟩, by simp [hb]⟩
      · cases h
  · rintro ⟨w, hw, rfl⟩
    exact readList_append hw rest

/-! ### Every value can be written -/

theorem exists_stringText (v : Bytes) : ∃ t, StringText v t := by
  suffices h : ∃ body, StringBody v body by
    obtain ⟨body, hbody⟩ := h
    exact ⟨_, body, hbody, rfl⟩
  induction v with
  | nil => exact ⟨[], .nil⟩
  | cons b v ih =>
    obtain ⟨body, hbody⟩ := ih
    by_cases hline : b = Byte.newline
    · subst hline
      exact ⟨_, .escaped 110 hbody⟩
    by_cases hquote : b = Byte.doubleQuote
    · subst hquote
      exact ⟨_, .escaped Byte.doubleQuote hbody⟩
    by_cases hescape : b = Byte.backslash
    · subst hescape
      exact ⟨_, .escaped Byte.backslash hbody⟩
    · exact ⟨_, .raw hquote hline hescape hbody⟩

theorem exists_listText (vs : List Bytes) : ∃ t, ListText p vs t := by
  suffices h : ∃ items, ItemsText p vs items by
    obtain ⟨items, hitems⟩ := h
    exact ⟨_, [], items, .nil, hitems, rfl⟩
  induction vs with
  | nil => exact ⟨_, .nil⟩
  | cons v vs ih =>
    obtain ⟨items, hitems⟩ := ih
    obtain ⟨w, hw⟩ := exists_stringText v
    exact ⟨_, .cons hw .nil .nil hitems⟩

end Definition

/-! ### Fields -/

namespace Field

open Definition

variable {p : Bytes → Prop}

/-- `f.Writes p l t` says that `t` is a written form of the field `f` of the language `l`, with
comments in `p`. -/
def Writes (p : Bytes → Prop) (f : Field) (l : Language) (t : Bytes) : Prop :=
  match f with
  | name => StringText l.name t
  | keywords => ListText p l.keywords t
  | punctuation => ListText p l.punctuation t
  | spaces => ListText p l.spaces t
  | calls => ListText p l.calls t

/-- The language `l`, with the field `f` taken from `source`. -/
def copy (f : Field) (source l : Language) : Language :=
  match f with
  | name => { l with name := source.name }
  | keywords => { l with keywords := source.keywords }
  | punctuation => { l with punctuation := source.punctuation }
  | spaces => { l with spaces := source.spaces }
  | calls => { l with calls := source.calls }

theorem exists_writes (f : Field) (l : Language) : ∃ t, f.Writes p l t := by
  cases f with
  | name => exact exists_stringText l.name
  | keywords | punctuation | spaces | calls => exact exists_listText _

/-- What a field is written as starts with a quote or with a bracket. -/
theorem Writes.exists_cons {f : Field} {l : Language} {t : Bytes} (h : f.Writes p l t) :
    ∃ b t', t = b :: t' ∧ Byte.isSpace b = false := by
  cases f with
  | name =>
    obtain ⟨body, -, rfl⟩ := h
    exact ⟨_, _, rfl, by decide⟩
  | keywords | punctuation | spaces | calls =>
    obtain ⟨g, items, -, -, rfl⟩ := h
    exact ⟨_, _, rfl, by decide⟩

theorem read_append {f : Field} {source : Language} {t : Bytes} (h : f.Writes p source t)
    (l : Language) (rest : Bytes) : f.read l (t ++ rest) = .ok (f.copy source l, rest) := by
  cases f with
  | name => rw [read, readString_iff.mpr ⟨t, h, rfl⟩]; rfl
  | keywords | punctuation | spaces | calls => rw [read, readList_append h]; rfl

theorem exists_of_map_eq_ok {α β : Type} {e : Except Fault α} {g : α → β} {b : β}
    (h : e.map g = .ok b) : ∃ a, e = .ok a ∧ g a = b := by
  cases e with
  | error f => cases h
  | ok a =>
    cases h
    exact ⟨a, rfl, rfl⟩

/-- **The reader of a field reads its written forms, and nothing else.** -/
theorem read_iff {f : Field} {l l' : Language} {t rest : Bytes} :
    f.read l t = .ok (l', rest) ↔
      ∃ source w, f.Writes (fun _ => True) source w ∧ l' = f.copy source l ∧ t = w ++ rest := by
  constructor
  · intro h
    -- the language that was read holds the value
    refine ⟨l', ?_⟩
    cases f with
    | name =>
      rw [read] at h
      obtain ⟨⟨v, rest'⟩, hv, heq⟩ := exists_of_map_eq_ok h
      cases heq
      obtain ⟨w, hw, rfl⟩ := readString_iff.mp hv
      exact ⟨w, hw, rfl, rfl⟩
    | keywords | punctuation | spaces | calls =>
      rw [read] at h
      obtain ⟨⟨vs, rest'⟩, hvs, heq⟩ := exists_of_map_eq_ok h
      cases heq
      obtain ⟨w, hw, rfl⟩ := readList_iff.mp hvs
      exact ⟨w, hw, rfl, rfl⟩
  · rintro ⟨source, w, hw, rfl, rfl⟩
    exact read_append hw l rest

/-- Fields are copied independently of each other. -/
theorem copy_copy_comm (f g : Field) (source l : Language) :
    f.copy source (g.copy source l) = g.copy source (f.copy source l) := by
  cases f <;> cases g <;> rfl

/-- With all its fields, in any order, a language is copied. -/
theorem foldl_copy {fs : List Field} (h : fs.Perm all) (source l : Language) :
    fs.foldl (fun l f => f.copy source l) l = source := by
  have hcomm : RightCommutative fun (l : Language) (f : Field) => f.copy source l :=
    ⟨fun l f g => copy_copy_comm g f source l⟩
  rw [h.foldl_eq]
  rfl

theorem ofKey?_key (f : Field) : ofKey? f.key = some f := by
  cases f <;> decide +kernel

theorem isName_key (f : Field) : IsName f.key := by
  cases f <;> decide +kernel

end Field

end Lexicon
