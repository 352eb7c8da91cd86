import Lexicon.Proofs.Definition

/-!
# Skipped values

The value of an unknown key is not read but skipped, and the skipping only knows quotes and
brackets.  It ends with the line on which all brackets are closed.  The readers know comments as
well, and so both agree on where a value ends as long as the comments are balanced texts, too.  A
quote or a bracket left alone in a comment makes them differ.

## Main definitions

* `Definition.Balanced inner t` — in `t` all quotes and brackets are closed; unless it is `inner`,
  it has no newline outside its brackets.
* `Definition.Entry.EndsLine` — what stands behind the value is balanced up to the end of its line.

## Main results

* `Definition.Balanced.skipValue` — a balanced text is skipped in one piece.
* `Field.Writes.balanced` — a value with balanced comments is balanced.
* `Language.read_unknown` — **the entry of an unknown key is read as if it were not there.**
* `Language.read_unknown_unbalanced` — a comment that is not balanced, for which this fails.
-/

namespace Lexicon

namespace Definition

/-! ### Balanced texts -/

/-- `Balanced inner t` says that all quotes and brackets in `t` are closed, a quote by what makes it
a string and on its own line.  Newlines stand inside of brackets, and also outside of them if the
text is an `inner` one. -/
inductive Balanced : Bool → Bytes → Prop
  | nil {inner : Bool} : Balanced inner []
  | byte {inner : Bool} {b : UInt8} {t : Bytes} (hquote : b ≠ Byte.doubleQuote)
      (hopen : b ≠ Byte.openBracket) (hclose : b ≠ Byte.closeBracket)
      (hline : b = Byte.newline → inner) : Balanced inner t → Balanced inner (b :: t)
  | string {inner : Bool} {v w t : Bytes} (hv : StringText v w) :
      Balanced inner t → Balanced inner (w ++ t)
  | brackets {inner : Bool} {u t : Bytes} :
      Balanced true u → Balanced inner t →
        Balanced inner (Byte.openBracket :: (u ++ Byte.closeBracket :: t))

variable {inner : Bool}

theorem Balanced.append {t u : Bytes} (ht : Balanced inner t) (hu : Balanced inner u) :
    Balanced inner (t ++ u) := by
  induction ht with
  | nil => exact hu
  | byte hquote hopen hclose hline _ ih => exact .byte hquote hopen hclose hline (ih hu)
  | string hv _ ih =>
    rw [List.append_assoc]
    exact .string hv (ih hu)
  | brackets hinner _ _ ih =>
    rw [List.cons_append, List.append_assoc, List.cons_append]
    exact .brackets hinner (ih hu)

/-- What is balanced outside of brackets is so inside. -/
theorem Balanced.inside {t : Bytes} (h : Balanced inner t) : Balanced true t := by
  induction h with
  | nil => exact .nil
  | byte hquote hopen hclose _ _ ih => exact .byte hquote hopen hclose (fun _ => rfl) ih
  | string hv _ ih => exact .string hv ih
  | brackets hinner _ _ ih => exact .brackets hinner ih

/-! ### What is skipped -/

theorem skipValue_open (depth : Int) (rest : Bytes) :
    skipValue false depth (Byte.openBracket :: rest) = skipValue false (depth + 1) rest := by
  rw [skipValue.eq_def]
  rfl

theorem skipValue_close (depth : Int) (rest : Bytes) :
    skipValue false depth (Byte.closeBracket :: rest) = skipValue false (depth - 1) rest := by
  rw [skipValue.eq_def]
  rfl

theorem skipValue_byte {b : UInt8} (hquote : b ≠ Byte.doubleQuote) (hopen : b ≠ Byte.openBracket)
    (hclose : b ≠ Byte.closeBracket) {depth : Int} (hline : b = Byte.newline → 0 < depth)
    (rest : Bytes) : skipValue false depth (b :: rest) = skipValue false depth rest := by
  have hgo : ¬(b = Byte.newline && depth ≤ 0) = true := by
    simp only [Bool.and_eq_true, decide_eq_true_eq, not_and, Int.not_le]
    exact hline
  rw [skipValue.eq_def]
  simp only [Bool.false_eq_true, if_false, if_neg hquote, if_neg hopen, if_neg hclose, if_neg hgo]

/-- Outside of brackets, what is skipped ends before a newline. -/
theorem skipValue_newline (rest : Bytes) :
    skipValue false 0 (Byte.newline :: rest) = Byte.newline :: rest := by
  rw [skipValue.eq_def]
  rfl

/-- A string is skipped up to the quote that closes it. -/
theorem skipValue_body {v body : Bytes} (h : StringBody v body) (depth : Int) (rest : Bytes) :
    skipValue true depth (body ++ Byte.doubleQuote :: rest) = skipValue false depth rest := by
  induction h with
  | nil =>
    rw [List.nil_append, skipValue.eq_def]
    rfl
  | @raw b v t hquote hline hescape _ ih =>
    have hgo : (b != Byte.doubleQuote) = true := by simpa using hquote
    rw [List.cons_append, skipValue.eq_def]
    simp only [if_true, if_neg hescape, if_neg hline, hgo, ih]
  | escaped e _ ih =>
    rw [List.cons_append, List.cons_append, skipValue.eq_def]
    simp only [if_true, ih]

theorem skipValue_string {v w : Bytes} (h : StringText v w) (depth : Int) (rest : Bytes) :
    skipValue false depth (w ++ rest) = skipValue false depth rest := by
  obtain ⟨body, hbody, rfl⟩ := h
  rw [List.append_assoc, List.cons_append, skipValue.eq_def]
  exact skipValue_body hbody depth rest

/-- **A balanced text is skipped in one piece.**  Inside of brackets it may span lines. -/
theorem Balanced.skipValue {t : Bytes} (h : Balanced inner t) {depth : Int} (hdepth : 0 ≤ depth)
    (hinner : inner → 0 < depth) (rest : Bytes) :
    skipValue false depth (t ++ rest) = skipValue false depth rest := by
  induction h generalizing depth rest with
  | nil => rfl
  | byte hquote hopen hclose hline _ ih =>
    rw [List.cons_append, skipValue_byte hquote hopen hclose fun hb => hinner (hline hb),
      ih hdepth hinner]
  | string hv _ ih => rw [List.append_assoc, skipValue_string hv, ih hdepth hinner]
  | brackets _ _ ihinner ih =>
    -- between the brackets the depth is one more
    rw [List.cons_append, List.append_assoc, List.cons_append, skipValue_open,
      ihinner (by omega) (fun _ => by omega), skipValue_close, Int.add_sub_cancel,
      ih hdepth hinner]

/-! ### Values -/

theorem IsBlank.balanced {g : Bytes} (h : IsBlank (Balanced false) g) : Balanced true g := by
  induction h with
  | nil => exact .nil
  | @space b g hb _ ih =>
    refine .byte ?_ ?_ ?_ (fun _ => rfl) ih
    all_goals
      rintro rfl
      exact absurd hb (by decide)
  | comment _ hc _ ih =>
    exact .byte (by decide) (by decide) (by decide) (fun _ => rfl)
      (hc.inside.append (.byte (by decide) (by decide) (by decide) (fun _ => rfl) ih))

/-- What stands between the brackets of a list is balanced. -/
theorem ItemsText.balanced {vs : List Bytes} {t : Bytes} (h : ItemsText (Balanced false) vs t) :
    ∃ u, Balanced true u ∧ t = u ++ [Byte.closeBracket] := by
  induction h with
  | nil => exact ⟨[], .nil, rfl⟩
  | @last v w g hv hg => exact ⟨w ++ g, .string hv hg.balanced, rfl⟩
  | @cons v w g g' t vs hv hg hg' _ ih =>
    obtain ⟨u, hu, rfl⟩ := ih
    have hrest : Balanced true (Byte.comma :: (g' ++ u)) :=
      .byte (by decide) (by decide) (by decide) (fun _ => rfl) (hg'.balanced.append hu)
    exact ⟨w ++ (g ++ Byte.comma :: (g' ++ u)), .string hv (hg.balanced.append hrest), by simp⟩

end Definition

open Definition in
/-- **A value with balanced comments is balanced.** -/
theorem Field.Writes.balanced {f : Field} {l : Language} {t : Bytes}
    (h : f.Writes (Balanced false) l t) : Balanced false t := by
  have hlist : ∀ {vs : List Bytes}, ListText (Balanced false) vs t → Balanced false t := by
    rintro vs ⟨g, items, hg, hitems, rfl⟩
    obtain ⟨u, hu, rfl⟩ := hitems.balanced
    rw [← List.append_assoc]
    exact .brackets (hg.balanced.append hu) .nil
  cases f with
  | name =>
    rw [← List.append_nil t]
    exact .string h .nil
  | keywords | punctuation | spaces | calls => exact hlist h

/-! ### Entries with unknown keys -/

namespace Definition

/-- What stands behind the value is balanced up to the end of its line, and blank from there on. -/
def Entry.EndsLine (e : Entry) : Prop :=
  ∃ s g, e.after = s ++ Byte.newline :: g ∧ Balanced false s ∧ Blank g

theorem Entry.EndsLine.exists_blank {e : Entry} (h : e.EndsLine) (rest : Bytes) :
    ∃ g, Blank g ∧ skipValue false 0 (e.after ++ rest) = g ++ rest := by
  obtain ⟨s, g, hafter, hs, hg⟩ := h
  refine ⟨Byte.newline :: g, .space rfl hg, ?_⟩
  rw [hafter, List.append_assoc, hs.skipValue (Int.le_refl 0) (by simp), List.cons_append,
    skipValue_newline]

/-- At the end of a text, the last line need not be ended. -/
theorem exists_blank_of_balanced {t : Bytes} (h : Balanced false t) :
    ∃ g, Blank g ∧ skipValue false 0 (t ++ []) = g ++ [] :=
  ⟨[], .nil, h.skipValue (Int.le_refl 0) (by simp) []⟩

end Definition

open Definition

/-- The entry of an unknown key is noted, and what stands behind it is read. -/
theorem Draft.readAll_unknown {e : Entry} {f : Field} {l : Language}
    (he : e.Writes f l) (hvalue : Balanced false e.value) {k : Bytes} (hk : IsName k)
    (hunknown : Field.ofKey? k = none) {d : Draft} (hd : d.inside) {rest : Bytes}
    (hafter : ∃ g, Blank g ∧ skipValue false 0 (e.after ++ rest) = g ++ rest) :
    d.readAll ({ e with key := k }.text ++ rest) =
      { d with unknown := d.unknown ++ [(k, e.value ++ (e.after ++ rest))] }.readAll rest := by
  obtain ⟨g, hg, hskip⟩ := hafter
  have hread : d.readValue k (e.value ++ (e.after ++ rest))
      = .ok ({ d with unknown := d.unknown ++ [(k, e.value ++ (e.after ++ rest))] },
        g ++ rest) := by
    rw [readValue, if_pos hd, hunknown, hvalue.skipValue (Int.le_refl 0) (by simp), hskip]
  rw [readAll_of_readValue (e := { e with key := k }) hk he.left he.right he.value.exists_cons
    hread, readAll_append_of_blank hg]

namespace Language

/-- **The entry of an unknown key is read as if it were not there.**  The comments in its value and
on the rest of its line are balanced. -/
theorem read_unknown {lead gap : Bytes} (hlead : Blank lead) (hgap : Blank gap)
    (before after : List Setting) (s : Setting)
    (hvalue : s.field.Writes (Balanced false) s.source s.entry.value)
    (hend : s.entry.EndsLine ∨ after = [] ∧ Balanced false s.entry.after)
    {k : Bytes} (hk : IsName k) (hunknown : Field.ofKey? k = none) :
    ∃ l, read (fileText lead gap (before.map Setting.entry ++
        { s.entry with key := k } :: after.map Setting.entry)) = .ok l ∧
      read (fileText lead gap ((before ++ after).map Setting.entry)) = .ok l := by
  refine ⟨_, ?_, read_settings hlead hgap (before ++ after)⟩
  have hnames : ∀ e ∈ before.map Setting.entry ++ { s.entry with key := k } ::
      after.map Setting.entry, IsName e.key := by
    intro e he
    rw [List.mem_append, List.mem_cons, List.mem_map, List.mem_map] at he
    obtain ⟨s', -, rfl⟩ | rfl | ⟨s', -, rfl⟩ := he
    · exact s'.writes.isName
    · exact hk
    · exact s'.writes.isName
  have hafter : ∃ g, Blank g ∧
      skipValue false 0 (s.entry.after ++ (after.map Setting.entry).flatMap Entry.text) =
        g ++ (after.map Setting.entry).flatMap Entry.text := by
    obtain hline | ⟨rfl, hlast⟩ := hend
    · exact hline.exists_blank _
    · exact exists_blank_of_balanced hlast
  rw [read, readAll_fileText hlead hgap hnames, List.flatMap_append, Draft.readAll_settings _ rfl,
    List.flatMap_cons, Draft.readAll_unknown s.writes hvalue.balanced hk hunknown rfl hafter,
    ← List.append_nil (List.flatMap _ _), Draft.readAll_settings _ rfl,
    Draft.readAll_of_blank .nil rfl, List.foldl_append]

/-- A comment with brackets and with a string in it. -/
theorem read_unknown_comment :
    ∃ l, read (ascii "[language]\nwords = [\"a\", # []\"\"\n\"b\"]\nname = \"c\"") = .ok l ∧
      read (ascii "[language]\nname = \"c\"") = .ok l := by
  have hletter : ∀ b : UInt8, 93 < b → StringText [b] [34, b, 34] := by
    intro b hb
    refine ⟨[b], .raw ?_ ?_ ?_ .nil, rfl⟩
    all_goals
      rintro rfl
      exact absurd hb (by decide)
  have hcomment : Balanced false [32, 91, 93, 34, 34] :=
    .byte (by decide) (by decide) (by decide) (by decide)
      (.brackets .nil (.string ⟨[], .nil, rfl⟩ .nil))
  have hvalue : ∀ {p : Bytes → Prop}, p [32, 91, 93, 34, 34] →
      ListText p [[97], [98]] (ascii "[\"a\", # []\"\"\n\"b\"]") := by
    intro p hp
    have hgap : IsBlank p [32, 35, 32, 91, 93, 34, 34, 10] :=
      .space rfl (.comment (by decide) hp .nil)
    exact ⟨[], _, .nil, .cons (hletter 97 (by decide)) .nil hgap
      (.last (hletter 98 (by decide)) .nil), by decide +kernel⟩
  let words : Setting :=
    { entry := ⟨ascii "keywords", [32], [32], ascii "[\"a\", # []\"\"\n\"b\"]", [10]⟩
      field := .keywords
      source := { keywords := [[97], [98]] }
      writes := ⟨rfl, by decide, by decide, hvalue trivial, .space rfl .nil⟩ }
  let name : Setting :=
    { entry := ⟨ascii "name", [32], [32], ascii "\"c\"", []⟩
      field := .name
      source := { name := [99] }
      writes := ⟨rfl, by decide, by decide, hletter 99 (by decide), .nil⟩ }
  have hline : Blank [10] := .space rfl .nil
  have hname : IsName (ascii "words") := by decide +kernel
  exact read_unknown (IsBlank.nil : Blank []) hline [] [name] words (hvalue hcomment)
    (.inl ⟨[], [], rfl, .nil, .nil⟩) hname (by decide +kernel)

/-- A quote alone in a comment: the entry is read under its own key, and under an unknown one it
takes a part of its value for the next entry. -/
theorem read_unknown_unbalanced :
    read (ascii "[language]\nkeywords = [\"a\", # a \" b\n\"c\"]\nname = \"x\"") =
        .ok { name := ascii "x", keywords := [ascii "a", ascii "c"] } ∧
      read (ascii "[language]\nname = \"x\"") = .ok { name := ascii "x" } ∧
      read (ascii "[language]\nwords = [\"a\", # a \" b\n\"c\"]\nname = \"x\"") =
        .error ⟨.unexpectedByte Byte.doubleQuote, ascii "\"c\"]\nname = \"x\""⟩ := by
  decide +kernel

end Language

end Lexicon
