import Lexicon.Proofs.Written
import Mathlib.Tactic.Choose

/-!
# Definition files

A definition file has the head of the section `language` and entries for the fields, in any order
and with free layout.  Reading goes entry by entry: each gives its field to the language that was
read so far, and the fields do not depend on each other.

## Main definitions

* `Definition.Entry` — a key and its value as they stand in a file, and `Entry.Writes`, what they
  give.
* `Definition.fileText lead gap es` — the text of a file.
* `Language.Writes l text` — `text` is a definition file for the language `l`.

## Main results

* `Draft.readAll_entry`, `Draft.readAll_settings` — what one entry does to a draft, and what a list
  of them does.
* `Language.exists_writes` — every language has a definition file.
* `Language.read_settings` — a file is read entry by entry, and each entry gives its field.
* `Language.read_written` — **what is written is read back.**
-/

namespace Lexicon

/-! ### Entries -/

namespace Definition

/-- A key and its value as they stand in a definition, with what stands to the left and to the
right of the equals sign, and what comes before the next entry. -/
structure Entry where
  key : Bytes
  left : Bytes := []
  right : Bytes := []
  value : Bytes
  after : Bytes := []

namespace Entry

/-- The text of an entry. -/
def text (e : Entry) : Bytes :=
  e.key ++ (e.left ++ Byte.equals :: (e.right ++ (e.value ++ e.after)))

/-- `e.Writes f l` says that the entry gives the field `f` of the language `l`. -/
structure Writes (e : Entry) (f : Field) (l : Language) : Prop where
  key : e.key = f.key
  left : IsSpaces e.left
  right : IsSpaces e.right
  value : f.Writes (fun _ => True) l e.value
  after : Blank e.after

theorem Writes.isName {e : Entry} {f : Field} {l : Language} (h : e.Writes f l) : IsName e.key :=
  h.key ▸ f.isName_key

end Entry

/-- An entry for a field, with a language that has the value that is given. -/
structure Setting where
  entry : Entry
  field : Field
  source : Language
  writes : entry.Writes field source

end Definition

namespace Draft

open Definition

/-! ### Reading entry by entry -/

/-- The next head or entry is read, and then what remains. -/
theorem readAll_eq (d : Draft) (t : Bytes) :
    d.readAll t =
      match skipBlank false t with
      | [] => (d, if d.found then none else some ⟨.noLanguage, []⟩)
      | b :: rest =>
        match d.readNext b rest with
        | .error f => (d, some f)
        | .ok (d', rest') => d'.readAll rest' := by
  rw [readAll.eq_def]
  split
  · next hnil => rw [hnil]
  · next hcons =>
    split
    · next herr => simp only [hcons, herr]
    · next hok => simp only [hcons, hok]

/-- White space and comments in front of a text make no difference. -/
theorem readAll_append_of_blank {g : Bytes} (hg : Blank g) (d : Draft) (t : Bytes) :
    d.readAll (g ++ t) = d.readAll t := by
  rw [readAll_eq, readAll_eq d t, skipBlank_append hg]

/-- A text of white space and comments is read to its end. -/
theorem readAll_of_blank {g : Bytes} (hg : Blank g) {d : Draft} (hd : d.found) :
    d.readAll g = (d, none) := by
  rw [← List.append_nil g, readAll_append_of_blank hg, readAll_eq]
  simp [skipBlank, hd]

/-- The head of the section `language`. -/
theorem readAll_head (d : Draft) {t : Bytes} (ht : ∀ b ∈ t.head?, b ≠ Byte.closeBracket) :
    d.readAll (ascii "[language]" ++ t) = { d with found := true, inside := true }.readAll t := by
  have hsection : readSection (ascii "[language]" ++ t) = .ok (ascii "language", t) := by
    have hdrop : t.dropWhile (· == Byte.closeBracket) = t := by
      cases t with
      | nil => rfl
      | cons b t => rw [List.dropWhile_cons_of_neg (by simpa using ht b rfl)]
    calc readSection (ascii "[language]" ++ t)
        = .ok (ascii "language", t.dropWhile (· == Byte.closeBracket)) := rfl
      _ = .ok (ascii "language", t) := by rw [hdrop]
  have hnext : d.readNext Byte.openBracket (ascii "language]" ++ t)
      = .ok ({ d with found := true, inside := true }, t) := by
    rw [readNext, if_pos rfl, readHead]
    simp only [show Byte.openBracket :: (ascii "language]" ++ t) = ascii "[language]" ++ t from rfl,
      hsection, decide_true, Bool.or_true]
  rw [readAll_eq, show skipBlank false (ascii "[language]" ++ t)
    = Byte.openBracket :: (ascii "language]" ++ t) from rfl]
  simp only [hnext]

/-- An entry is read as far as its value, and then the value is. -/
theorem readAll_of_readValue {e : Entry} (hkey : IsName e.key) (hleft : IsSpaces e.left)
    (hright : IsSpaces e.right) (hvalue : ∃ b t, e.value = b :: t ∧ Byte.isSpace b = false)
    {d d' : Draft} {rest rest' : Bytes}
    (h : d.readValue e.key (e.value ++ (e.after ++ rest)) = .ok (d', rest')) :
    d.readAll (e.text ++ rest) = d'.readAll rest' := by
  obtain ⟨b, k, hk⟩ := List.exists_cons_of_ne_nil hkey.1
  obtain ⟨hb, hbracket⟩ := isVisible_of_isNameByte (hkey.2 b (by simp [hk]))
  obtain ⟨c, w, hw, hc⟩ := hvalue
  let tail := e.left ++ Byte.equals :: (e.right ++ (e.value ++ (e.after ++ rest)))
  have htext : e.text ++ rest = b :: (k ++ tail) := by simp [Entry.text, tail, hk]
  have hname : readName (b :: (k ++ tail)) = (e.key, tail) := by
    rw [← List.cons_append, ← hk]
    refine readName_append hkey.2 fun a ha => not_isNameByte ?_
    -- the key ends at white space or at the equals sign
    match hl : e.left with
    | [] => exact .inr (by simpa [tail, hl, eq_comm] using ha)
    | a' :: l =>
      obtain rfl : a' = a := by simpa [tail, hl] using ha
      exact .inl (hleft a' (by simp [hl]))
  have hafter : d.readAfterKey e.key tail = .ok (d', rest') := by
    rw [readAfterKey, skipSpace_append hleft (by simp; decide)]
    dsimp only
    rw [if_pos rfl, skipSpace_append hright (by simpa [hw] using hc), h]
  have hnext : d.readNext b (k ++ tail) = .ok (d', rest') := by
    rw [readNext, if_neg hbracket, hname, if_neg (by simpa using hkey.1), hafter]
  rw [readAll_eq, htext, skipBlank_of_visible hb]
  simp only [hnext]

/-- An entry for a field gives that field. -/
theorem readAll_entry {e : Entry} {f : Field} {l : Language} (he : e.Writes f l) {d : Draft}
    (hd : d.inside) (rest : Bytes) :
    d.readAll (e.text ++ rest) = { d with language := f.copy l d.language }.readAll rest := by
  have hvalue : d.readValue e.key (e.value ++ (e.after ++ rest))
      = .ok ({ d with language := f.copy l d.language }, e.after ++ rest) := by
    rw [readValue, if_pos hd, he.key, Field.ofKey?_key]
    simp only [Field.read_append he.value]
  rw [readAll_of_readValue he.isName he.left he.right he.value.exists_cons hvalue,
    readAll_append_of_blank he.after]

/-- Entries for fields, perhaps of different languages, give these fields one after the other. -/
theorem readAll_settings (ss : List Setting) {d : Draft} (hd : d.inside) (rest : Bytes) :
    d.readAll ((ss.map Setting.entry).flatMap Entry.text ++ rest) =
      { d with
        language := ss.foldl (fun l (s : Setting) => s.field.copy s.source l) d.language }.readAll
        rest := by
  induction ss generalizing d with
  | nil => rfl
  | cons s ss ih =>
    rw [List.map_cons, List.flatMap_cons, List.append_assoc, readAll_entry s.writes hd]
    exact ih hd

end Draft

/-! ### Definition files -/

namespace Definition

/-- The text of a definition file: white space and comments, the head of the section `language`,
white space and comments again, and entries. -/
def fileText (lead gap : Bytes) (es : List Entry) : Bytes :=
  lead ++ (ascii "[language]" ++ (gap ++ es.flatMap Entry.text))

theorem IsBlank.head?_ne {p : Bytes → Prop} {g : Bytes} (h : IsBlank p g) :
    ∀ b ∈ g.head?, b ≠ Byte.closeBracket := by
  cases h with
  | nil => simp
  | space hb _ =>
    rintro _ ⟨⟩ rfl
    exact absurd hb (by decide)
  | comment _ _ _ =>
    rintro _ ⟨⟩
    decide

/-- The entries of a file are read into an empty language. -/
theorem readAll_fileText {lead gap : Bytes} (hlead : Blank lead) (hgap : Blank gap)
    {es : List Entry} (hes : ∀ e ∈ es, IsName e.key) :
    Draft.readAll {} (fileText lead gap es) =
      Draft.readAll { found := true, inside := true } (es.flatMap Entry.text) := by
  rw [fileText, Draft.readAll_append_of_blank hlead, Draft.readAll_head,
    Draft.readAll_append_of_blank hgap]
  intro b hb
  rw [List.head?_append, Option.mem_def, Option.or_eq_some_iff] at hb
  obtain hb | ⟨-, hb⟩ := hb
  · exact hgap.head?_ne b hb
  cases es with
  | nil => simp at hb
  | cons e es =>
    obtain ⟨hne, hname⟩ := hes e List.mem_cons_self
    obtain ⟨c, k, hk⟩ := List.exists_cons_of_ne_nil hne
    obtain rfl : c = b := by simpa [Entry.text, hk] using hb
    rintro rfl
    exact absurd (hname Byte.closeBracket (by simp [hk])) (by decide)

end Definition

namespace Language

open Definition

/-- `l.Writes text` says that `text` is a definition file for the language `l`: an entry for each
of its fields, in any order. -/
def Writes (l : Language) (text : Bytes) : Prop :=
  ∃ (lead gap : Bytes) (entry : Field → Entry) (fs : List Field),
    Blank lead ∧ Blank gap ∧ (∀ f, (entry f).Writes f l) ∧ fs.Perm Field.all ∧
      text = fileText lead gap (fs.map entry)

/-- Every language can be written. -/
theorem exists_writes (l : Language) : ∃ text, l.Writes text := by
  choose value hvalue using fun f : Field => f.exists_writes (p := fun _ => True) l
  refine ⟨_, [], [], fun f => { key := f.key, value := value f }, Field.all, .nil, .nil,
    fun f => ?_, List.Perm.refl _, rfl⟩
  exact ⟨rfl, List.forall_mem_nil _, List.forall_mem_nil _, hvalue f, .nil⟩

/-- A file of entries for fields is read, and each of them has its effect. -/
theorem read_settings {lead gap : Bytes} (hlead : Blank lead) (hgap : Blank gap)
    (ss : List Setting) :
    read (fileText lead gap (ss.map Setting.entry)) =
      .ok (ss.foldl (fun l (s : Setting) => s.field.copy s.source l) {}) := by
  have hnames : ∀ e ∈ ss.map Setting.entry, IsName e.key := by
    intro e he
    obtain ⟨s, -, rfl⟩ := List.mem_map.mp he
    exact s.writes.isName
  have hentries := Draft.readAll_settings ss (d := { found := true, inside := true }) rfl []
  rw [List.append_nil, Draft.readAll_of_blank .nil rfl] at hentries
  rw [read, readAll_fileText hlead hgap hnames, hentries]

/-- **What is written is read back.** -/
theorem read_written {l : Language} {text : Bytes} (h : l.Writes text) : read text = .ok l := by
  obtain ⟨lead, gap, entry, fs, hlead, hgap, hentry, hfs, rfl⟩ := h
  let settings := fs.map fun f => (⟨entry f, f, l, hentry f⟩ : Setting)
  have hentries : fs.map entry = settings.map Setting.entry := by simp [settings]
  rw [hentries, read_settings hlead hgap, List.foldl_map]
  exact congrArg Except.ok (Field.foldl_copy hfs l {})

/-- Entries with a comment in a list, escapes and a zero byte. -/
def commentedEntry : Field → Entry
  | .name => ⟨ascii "name", [], [], ascii "\"\\\\\x00\"", ascii " # ]\n"⟩
  | .keywords => ⟨ascii "keywords", [32], [10], ascii "[ \"if\", # [\n \"\\n\", ]", [10]⟩
  | .punctuation => ⟨ascii "delimiters", [], [], ascii "[]", []⟩
  | .spaces => ⟨ascii "space-delimiters", [], [], ascii "[\" \" ]", []⟩
  | .calls => ⟨ascii "method-call-delimiters", [], [], ascii "[\".\"]", []⟩

/-- The commented entries are read, with the keys in an order of their own. -/
theorem read_written_layout :
    read (ascii "# \"\n[language] keywords =\n[ \"if\", # [\n \"\\n\", ]\n" ++
        ascii "name=\"\\\\\x00\" # ]\nspace-delimiters=[\" \" ]delimiters=[]" ++
        ascii "method-call-delimiters=[\".\"]") =
      .ok { name := [92, 0], keywords := [ascii "if", [10]], spaces := [[32]],
            calls := [[46]] } := by
  have hspace : Blank [32] := .space rfl .nil
  have hline : Blank [10] := .space rfl .nil
  refine read_written ⟨ascii "# \"\n", [32], commentedEntry,
    [.keywords, .name, .spaces, .punctuation, .calls], ?_, hspace, ?_, ?_, ?_⟩
  · exact .comment (c := ascii " \"") (by decide) trivial .nil
  · intro f
    cases f with
    | name =>
      have hbody : StringBody [92, 0] [92, 92, 0] :=
        .escaped 92 (.raw (by decide) (by decide) (by decide) .nil)
      exact ⟨rfl, by decide, by decide, ⟨_, hbody, by decide +kernel⟩,
        .space rfl (.comment (c := ascii " ]") (by decide) trivial .nil)⟩
    | keywords =>
      have hif : StringText (ascii "if") (ascii "\"if\"") :=
        ⟨ascii "if", .raw (by decide) (by decide) (by decide)
          (.raw (by decide) (by decide) (by decide) .nil), by decide +kernel⟩
      have hnewline : StringText [10] (ascii "\"\\n\"") :=
        ⟨[92, 110], .escaped 110 .nil, by decide +kernel⟩
      have hgap : Blank (ascii " # [\n ") :=
        .space rfl (.comment (c := ascii " [") (by decide) trivial hspace)
      exact ⟨rfl, by decide, by decide,
        ⟨_, _, hspace, .cons hif .nil hgap (.cons hnewline .nil hspace .nil), by decide +kernel⟩,
        hline⟩
    | punctuation =>
      exact ⟨rfl, by decide, by decide, ⟨[], _, .nil, .nil, by decide +kernel⟩, .nil⟩
    | spaces =>
      exact ⟨rfl, by decide, by decide, ⟨[], _, .nil, .last ⟨[32],
        .raw (by decide) (by decide) (by decide) .nil, rfl⟩ hspace, by decide +kernel⟩, .nil⟩
    | calls =>
      exact ⟨rfl, by decide, by decide, ⟨[], _, .nil, .last ⟨[46],
        .raw (by decide) (by decide) (by decide) .nil, rfl⟩ .nil, by decide +kernel⟩, .nil⟩
  · decide
  · decide +kernel

end Language
end Lexicon
