import Lexicon.Proofs.Definition

/-!
# Faults are exact and local

Where a definition cannot be read, the fault stands at a position of the text, and its message
gives the line of that position.  No reader looks further than one byte behind what it takes: all
of them are *local*, and local readers compose to local readers.  So the fault depends on nothing
behind the byte at which it was found.

## Main definitions

* `Definition.Reader` — what takes a part of a text, and `Reader.andThen`, one reader after another.
* `Definition.LocalAt R text` — `R` reads every text as it reads `text` if they agree up to the
  byte behind what is taken.
* `Draft.whole` — reading to the end, as a reader.
* `Draft.readFor n` — reading at most `n` heads and entries.

## Main results

* `Definition.LocalAt.andThen` — readers that are local one after the other are local.
* `Definition.localAt_readSection`, `localAt_readString`, `localAt_readList`, `localAt_skipValue`,
  `Draft.localAt_next` — the readers of a definition are local.
* `Draft.entries_induction` — induction along the heads and entries of a text.
* `Draft.localAt_whole` — **reading to the end is local.**
* `Draft.readFor_eq_readAll` — there are no more heads and entries than bytes.
* `Language.exists_of_mem_unknownKeys` — the line of a key without a meaning.
* `Language.read_fails_locally` — **a fault is exact and local.**
-/

namespace Lexicon

namespace Definition

variable {α β : Type}

/-! ### Readers -/

/-- A reader takes the head of a text and gives what remains of it. -/
abbrev Reader (α : Type) := Bytes → Except Fault (α × Bytes)

/-- What remains of the text: where a reader fails, the text from the fault on. -/
def remainder : Except Fault (α × Bytes) → Bytes
  | .error f => f.rest
  | .ok r => r.2

/-- The same outcome with another text that remains. -/
def withRest (t : Bytes) : Except Fault (α × Bytes) → Except Fault (α × Bytes)
  | .error f => .error { f with rest := t }
  | .ok r => .ok (r.1, t)

@[simp] theorem remainder_withRest (t : Bytes) (r : Except Fault (α × Bytes)) :
    remainder (withRest t r) = t := by
  cases r <;> rfl

@[simp] theorem withRest_withRest (s t : Bytes) (r : Except Fault (α × Bytes)) :
    withRest t (withRest s r) = withRest t r := by
  cases r <;> rfl

/-- Neither text is at its end, and both go on with the same byte. -/
def SameHead (s t : Bytes) : Prop := ∃ b v w, s = b :: v ∧ t = b :: w

theorem SameHead.append {s t : Bytes} (h : SameHead s t) (u : Bytes) :
    SameHead (u ++ s) (u ++ t) := by
  cases u with
  | nil => exact h
  | cons b u => exact ⟨b, u ++ s, u ++ t, rfl, rfl⟩

/-- A reader that takes nothing out of the text but passes over a part of it. -/
def Reader.skip (k : Bytes → Bytes) : Reader Unit := fun t => .ok ((), k t)

/-- A reader that takes nothing. -/
def Reader.done (a : α) : Reader α := fun t => .ok (a, t)

/-- What is read, changed by a function. -/
def Reader.map (g : α → β) (R : Reader α) : Reader β := fun t => (R t).map fun r => (g r.1, r.2)

/-- One reader after another, which may depend on what was read. -/
def Reader.andThen (R : Reader α) (S : α → Reader β) : Reader β := fun t =>
  match R t with
  | .error f => .error f
  | .ok r => S r.1 r.2

/-- A byte that has to stand here, and a reader of what follows it. -/
def Reader.expect (c : UInt8) (p : Problem) (R : Reader α) : Reader α
  | [] => .error ⟨p, []⟩
  | b :: rest => if b = c then R rest else .error ⟨p, b :: rest⟩

/-! ### Local readers -/

/-- `LocalAt R text` says that `R` takes the head of `text`, or of the part in front of a fault, and
that the outcome is the same for every text with this head and then the same byte. -/
def LocalAt (R : Reader α) (text : Bytes) : Prop :=
  ∃ u, text = u ++ remainder (R text) ∧
    ∀ t, SameHead (remainder (R text)) t → R (u ++ t) = withRest t (R text)

namespace LocalAt

variable {R : Reader α} {text rest : Bytes} {b : UInt8}

theorem nil (h : remainder (R []) = []) : LocalAt R [] := by
  refine ⟨[], by rw [h]; rfl, ?_⟩
  rintro t ⟨b, v, w, hs, -⟩
  rw [h] at hs
  cases hs

theorem done (a : α) (text : Bytes) : LocalAt (Reader.done a) text :=
  ⟨[], rfl, fun _ _ => rfl⟩

/-- What remains is the end of the text. -/
theorem suffix (h : LocalAt R text) : remainder (R text) <:+ text := by
  obtain ⟨u, hu, -⟩ := h
  exact ⟨u, hu.symm⟩

/-- A reader that looks at the first byte only and stops in front of it is local. -/
theorem stop (r : Except Fault (α × Bytes)) (h : ∀ t, R (b :: t) = withRest (b :: t) r) :
    LocalAt R (b :: rest) := by
  refine ⟨[], by rw [h, remainder_withRest, List.nil_append], ?_⟩
  rintro t ⟨c, v, w, hs, rfl⟩
  rw [h, remainder_withRest] at hs
  obtain ⟨rfl, -⟩ := List.cons.inj hs
  rw [List.nil_append, h, h, withRest_withRest]

/-- A reader that takes the first byte is local if it is so behind that byte. -/
theorem cons {S : Reader α} (hS : LocalAt S rest) (h : ∀ t, R (b :: t) = S t) :
    LocalAt R (b :: rest) := by
  obtain ⟨u, hu, hlocal⟩ := hS
  refine ⟨b :: u, ?_, fun t ht => ?_⟩
  · rw [h, List.cons_append, ← hu]
  · rw [h] at ht ⊢
    rw [List.cons_append, h, hlocal t ht]

/-- Being local depends on nothing but the texts with the same first byte. -/
theorem congr {S : Reader α} (hS : LocalAt S (b :: rest)) (h : ∀ t, R (b :: t) = S (b :: t)) :
    LocalAt R (b :: rest) := by
  obtain ⟨u, hu, hlocal⟩ := hS
  refine ⟨u, by rw [h, ← hu], fun t ht => ?_⟩
  rw [h] at ht ⊢
  have hhead := ht.append u
  rw [← hu] at hhead
  obtain ⟨c, v, w, hc, ht'⟩ := hhead
  obtain ⟨rfl, -⟩ := List.cons.inj hc
  rw [ht', h, ← ht', hlocal t ht]

theorem map (g : α → β) (h : LocalAt R text) : LocalAt (R.map g) text := by
  have hrem : remainder (R.map g text) = remainder (R text) := by
    unfold Reader.map
    cases R text <;> rfl
  obtain ⟨u, hu, hlocal⟩ := h
  refine ⟨u, by rw [hrem, ← hu], fun t ht => ?_⟩
  rw [hrem] at ht
  rw [Reader.map, hlocal t ht, Reader.map]
  cases R text <;> rfl

/-- **Local readers compose.** -/
theorem andThen {S : α → Reader β} (hR : LocalAt R text)
    (hS : ∀ a rest, R text = .ok (a, rest) → LocalAt (S a) rest) :
    LocalAt (R.andThen S) text := by
  obtain ⟨u, hu, hlocal⟩ := hR
  match hout : R text with
  | .error f =>
    rw [hout] at hu hlocal
    have hthen : R.andThen S text = .error f := by rw [Reader.andThen, hout]
    rw [LocalAt, hthen]
    refine ⟨u, hu, fun t ht => ?_⟩
    rw [Reader.andThen, hlocal t ht]
    rfl
  | .ok (a, rest) =>
    rw [hout] at hu hlocal
    obtain ⟨u', hu', hlocal'⟩ := hS a rest hout
    have hthen : R.andThen S text = S a rest := by rw [Reader.andThen, hout]
    rw [LocalAt, hthen]
    refine ⟨u ++ u', ?_, fun t ht => ?_⟩
    · rw [List.append_assoc, ← hu']
      exact hu
    · -- the second reader goes on at a text that starts like the one it went on at before
      have hhead : SameHead rest (u' ++ t) := by
        rw [hu']
        exact ht.append u'
      rw [List.append_assoc, Reader.andThen, hlocal (u' ++ t) hhead]
      exact hlocal' t ht

/-- A reader behind a part that is passed over. -/
theorem comp {k : Bytes → Bytes} (hk : LocalAt (Reader.skip k) text) (hR : LocalAt R (k text)) :
    LocalAt (fun t => R (k t)) text :=
  hk.andThen (S := fun _ => R) fun _ _ h => (Prod.mk.inj (Except.ok.inj h)).2 ▸ hR

/-- A reader behind a byte that has to stand here. -/
theorem expect {c : UInt8} {p : Problem} (hR : ∀ t, LocalAt R t) (text : Bytes) :
    LocalAt (R.expect c p) text := by
  cases text with
  | nil => exact .nil rfl
  | cons b rest =>
    by_cases hb : b = c
    · exact (hR rest).cons fun t => by rw [Reader.expect, if_pos hb]
    · exact .stop (.error ⟨p, []⟩) fun t => by rw [Reader.expect, if_neg hb]; rfl

/-- A byte is passed over, and then what remains. -/
theorem skip_cons {k l : Bytes → Bytes} (hl : LocalAt (Reader.skip l) rest)
    (h : ∀ t, k (b :: t) = l t) : LocalAt (Reader.skip k) (b :: rest) :=
  hl.cons fun t => by rw [Reader.skip, h, Reader.skip]

/-- Nothing is passed over in front of a byte. -/
theorem skip_stop {k : Bytes → Bytes} (h : ∀ t, k (b :: t) = b :: t) :
    LocalAt (Reader.skip k) (b :: rest) :=
  .stop (.ok ((), [])) fun t => by rw [Reader.skip, h, withRest]

end LocalAt

/-! ### White space and names -/

theorem localAt_dropWhile (p : UInt8 → Bool) (text : Bytes) :
    LocalAt (Reader.skip (List.dropWhile p)) text := by
  induction text with
  | nil => exact .nil rfl
  | cons b rest ih =>
    by_cases hb : p b
    · exact ih.skip_cons fun t => List.dropWhile_cons_of_pos hb
    · exact .skip_stop fun t => List.dropWhile_cons_of_neg hb

theorem localAt_skipBlank (inComment : Bool) (text : Bytes) :
    LocalAt (Reader.skip (skipBlank inComment)) text := by
  fun_induction skipBlank inComment text with
  | case1 => exact .nil rfl
  | case2 b rest ih => exact ih.skip_cons fun t => by rw [skipBlank, if_pos rfl]
  | case3 inComment b rest h hb ih =>
    exact ih.skip_cons fun t => by rw [skipBlank, if_neg h, if_pos hb]
  | case4 inComment rest h hb ih =>
    exact ih.skip_cons fun t => by rw [skipBlank, if_neg h, if_neg hb, if_pos rfl]
  | case5 inComment b rest h hb hb' =>
    exact .skip_stop fun t => by rw [skipBlank, if_neg h, if_neg hb, if_neg hb']

theorem localAt_readName (text : Bytes) : LocalAt (fun t => .ok (readName t)) text := by
  induction text with
  | nil => exact .nil rfl
  | cons b rest ih =>
    by_cases hb : isNameByte b
    · exact (ih.map (b :: ·)).cons fun t => by simp [Reader.map, Except.map, readName, hb]
    · exact .stop (.ok ([], [])) fun t => by simp [readName, withRest, hb]

/-- Reads the brackets that close a section, behind its name. -/
def readClose (name : Bytes) : Reader Bytes :=
  Reader.expect Byte.closeBracket .sectionNotClosed fun t =>
    .ok (name, t.dropWhile (· == Byte.closeBracket))

theorem localAt_readClose (name text : Bytes) : LocalAt (readClose name) text :=
  .expect (fun t => (localAt_dropWhile (· == Byte.closeBracket) t).comp (.done name _)) text

theorem localAt_readSection (text : Bytes) : LocalAt readSection text :=
  (localAt_dropWhile (· == Byte.openBracket) text).comp <|
    (localAt_dropWhile Byte.isSpace _).comp <|
      (localAt_readName _).andThen (S := fun name t => readClose name (skipSpace t))
        fun name rest _ => (localAt_dropWhile Byte.isSpace rest).comp (localAt_readClose name _)

/-! ### Values -/

theorem withFirst_eq_map (a : α) (R : Reader (List α)) :
    (fun t => withFirst a (R t)) = R.map (a :: ·) := by
  funext t
  unfold Reader.map
  cases R t <;> rfl

/-- What is read behind a byte that gives the first of a list. -/
theorem LocalAt.first {R S : Reader (List α)} {a : α} {b : UInt8} {rest : Bytes}
    (hS : LocalAt S rest) (h : ∀ t, R (b :: t) = withFirst a (S t)) : LocalAt R (b :: rest) :=
  (hS.map (a :: ·)).cons fun t => (h t).trans (congrFun (withFirst_eq_map a S) t)

theorem localAt_readStringBody (text : Bytes) : LocalAt readStringBody text := by
  fun_induction readStringBody text with
  | case1 => exact .nil rfl
  | case2 rest => exact (LocalAt.done [] rest).cons readStringBody_quote
  | case3 rest =>
    exact .stop (.error ⟨.stringNotClosed, []⟩) fun t => by rw [readStringBody.eq_def]; rfl
  | case4 =>
    exact .cons (S := fun t => readStringBody (Byte.backslash :: t)) (.nil rfl) fun _ => rfl
  | case5 e rest _ _ ih =>
    exact .cons (.first ih (readStringBody_escaped e)) fun _ => rfl
  | case6 b rest hquote hline hescape ih =>
    exact .first ih (readStringBody_raw hquote hline hescape)

theorem localAt_readString (text : Bytes) : LocalAt readString text := by
  have heq : readString = Reader.expect Byte.doubleQuote .noString readStringBody := by
    funext t
    cases t <;> rfl
  rw [heq]
  exact .expect localAt_readStringBody text

/-- Reads what separates an item of a list from the next, and the items behind it. -/
def readSeparator (item : Bytes) : Reader (List Bytes)
  | [] => .error ⟨.noCommaInList, []⟩
  | c :: after =>
    if c = Byte.comma then withFirst item (readItems (skipBlank false after))
    else if c = Byte.closeBracket then .ok ([item], after)
    else .error ⟨.noCommaInList, c :: after⟩

/-- An item is a string, and white space may follow. -/
theorem readItems_quote (t : Bytes) :
    readItems (Byte.doubleQuote :: t) =
      Reader.andThen readStringBody (fun item t => readSeparator item (skipBlank false t)) t := by
  rw [readItems, if_neg (by decide), if_pos rfl]
  unfold Reader.andThen readSeparator
  split
  · next h => simp only [h]
  · next h =>
    simp only [h]
    split <;> next h' => simp only [h']

theorem localAt_readSeparator (item : Bytes) {text : Bytes}
    (h : ∀ after, text = Byte.comma :: after → LocalAt readItems (skipBlank false after)) :
    LocalAt (readSeparator item) text := by
  match text with
  | [] => exact .nil rfl
  | c :: after =>
    by_cases hcomma : c = Byte.comma
    · subst hcomma
      exact .first ((localAt_skipBlank false after).comp (h after rfl)) fun t => by
        rw [readSeparator, if_pos rfl]
    by_cases hclose : c = Byte.closeBracket
    · exact (LocalAt.done [item] after).cons fun t => by
        rw [readSeparator, if_neg hcomma, if_pos hclose]
        rfl
    · exact .stop (.error ⟨.noCommaInList, []⟩) fun t => by
        rw [readSeparator, if_neg hcomma, if_neg hclose]
        rfl

theorem localAt_readItems (text : Bytes) : LocalAt readItems text := by
  induction hn : text.length using Nat.strongRecOn generalizing text with
  | _ n ih =>
  subst hn
  match text with
  | [] => exact .nil (by rw [readItems]; rfl)
  | b :: rest =>
    by_cases hclose : b = Byte.closeBracket
    · exact (LocalAt.done [] rest).cons fun t => by rw [readItems, if_pos hclose]; rfl
    by_cases hquote : b = Byte.doubleQuote
    · subst hquote
      refine .cons (.andThen (localAt_readStringBody rest) fun item rest' hitem => ?_)
        readItems_quote
      refine (localAt_skipBlank false rest').comp ?_
      refine localAt_readSeparator item fun after hafter => ?_
      exact ih _ (Nat.lt_succ_of_lt (nextItem_length_lt hitem hafter)) _ rfl
    · exact .stop (.error ⟨.noStringInList, []⟩) fun t => by
        rw [readItems, if_neg hclose, if_neg hquote]
        rfl

theorem localAt_readList (text : Bytes) : LocalAt readList text := by
  have heq : readList =
      Reader.expect Byte.openBracket .noList fun t => readItems (skipBlank false t) := by
    funext t
    cases t <;> rfl
  rw [heq]
  exact .expect (fun t => (localAt_skipBlank false t).comp (localAt_readItems _)) text

theorem localAt_skipValue (inString : Bool) (depth : Int) (text : Bytes) :
    LocalAt (Reader.skip (skipValue inString depth)) text := by
  fun_induction skipValue inString depth text with
  | case1 => exact .nil rfl
  | case2 depth =>
    exact .skip_cons (l := fun t => skipValue true depth (Byte.backslash :: t)) (.nil rfl)
      fun _ => rfl
  | case3 depth e rest ih =>
    refine .skip_cons (l := fun t => skipValue true depth (Byte.backslash :: t)) ?_ fun _ => rfl
    exact ih.skip_cons fun t => by rw [skipValue.eq_def]; rfl
  | case4 depth rest => exact .skip_stop fun t => by rw [skipValue.eq_def]; rfl
  | case5 depth b rest hescape hline ih =>
    exact ih.skip_cons fun t => by
      rw [skipValue.eq_def]
      simp only [if_true, if_neg hescape, if_neg hline]
  | case6 inString depth rest h ih =>
    exact ih.skip_cons fun t => by rw [skipValue.eq_def]; simp only [if_neg h, if_true]
  | case7 inString depth rest h _ ih =>
    exact ih.skip_cons fun t => by
      rw [skipValue.eq_def]
      simp only [if_neg h]
      rfl
  | case8 inString depth rest h _ _ ih =>
    exact ih.skip_cons fun t => by
      rw [skipValue.eq_def]
      simp only [if_neg h]
      rfl
  | case9 inString depth b rest h hquote hopen hclose hstop =>
    exact .skip_stop fun t => by
      rw [skipValue.eq_def]
      simp only [if_neg h, if_neg hquote, if_neg hopen, if_neg hclose, if_pos hstop]
  | case10 inString depth b rest h hquote hopen hclose hgo ih =>
    exact ih.skip_cons fun t => by
      rw [skipValue.eq_def]
      simp only [if_neg h, if_neg hquote, if_neg hopen, if_neg hclose, if_neg hgo]

end Definition

namespace Field

open Definition

theorem localAt_read (f : Field) (l : Language) (text : Bytes) : LocalAt (f.read l) text := by
  cases f with
  | name => exact (localAt_readString text).map fun t => { l with name := t }
  | keywords => exact (localAt_readList text).map fun ts => { l with keywords := ts }
  | punctuation => exact (localAt_readList text).map fun ts => { l with punctuation := ts }
  | spaces => exact (localAt_readList text).map fun ts => { l with spaces := ts }
  | calls => exact (localAt_readList text).map fun ts => { l with calls := ts }

end Field

namespace Draft

open Definition

/-! ### Heads and entries

The text that is kept with a key without a meaning goes to the end of the definition, so it is not
local.  It is never read again, and the readers are local without it. -/

/-- A draft without the keys that have no meaning. -/
def bare (d : Draft) : Draft := { d with unknown := [] }

theorem map_bare_readHead (d : Draft) :
    Reader.map bare d.readHead = Reader.map (fun name =>
      { d.bare with
        found := d.found || name = ascii "language", inside := name = ascii "language" })
      readSection := by
  funext t
  unfold Reader.map readHead
  cases readSection t <;> rfl

theorem localAt_readHead (d : Draft) (text : Bytes) :
    LocalAt (Reader.map bare d.readHead) text := by
  rw [map_bare_readHead]
  exact (localAt_readSection text).map _

/-- The value of a field is read, and every other value is passed over. -/
theorem map_bare_readValue (d : Draft) (key : Bytes) :
    Reader.map bare (d.readValue key) =
      match if d.inside then Field.ofKey? key else none with
      | some f => Reader.map (fun l => { d.bare with language := l }) (f.read d.language)
      | none => Reader.map (fun _ => d.bare) (Reader.skip (skipValue false 0)) := by
  funext t
  unfold Reader.map readValue
  by_cases hd : d.inside
  · simp only [if_pos hd]
    cases Field.ofKey? key with
    | none => rfl
    | some f =>
      dsimp only
      cases f.read d.language t <;> rfl
  · simp only [if_neg hd]
    rfl

theorem localAt_readValue (d : Draft) (key text : Bytes) :
    LocalAt (Reader.map bare (d.readValue key)) text := by
  rw [map_bare_readValue]
  split
  · next f _ => exact (f.localAt_read d.language text).map _
  · exact (localAt_skipValue false 0 text).map _

theorem map_bare_readAfterKey (d : Draft) (key : Bytes) :
    Reader.map bare (d.readAfterKey key) = fun t =>
      Reader.expect Byte.equals .noEqualsSign
        (fun t => Reader.map bare (d.readValue key) (skipSpace t)) (skipSpace t) := by
  funext t
  unfold Reader.map readAfterKey Reader.expect
  cases skipSpace t with
  | nil => rfl
  | cons b rest => by_cases hb : b = Byte.equals <;> simp only [hb] <;> rfl

theorem localAt_readAfterKey (d : Draft) (key text : Bytes) :
    LocalAt (Reader.map bare (d.readAfterKey key)) text := by
  rw [map_bare_readAfterKey]
  refine (localAt_dropWhile Byte.isSpace text).comp (.expect (fun t => ?_) _)
  exact (localAt_dropWhile Byte.isSpace t).comp (d.localAt_readValue key _)

/-- Reads the next head or entry, if there is one. -/
def next (d : Draft) : Reader Draft
  | [] => .ok (d, [])
  | b :: rest => d.readNext b rest

theorem localAt_next (d : Draft) (text : Bytes) : LocalAt (Reader.map bare d.next) text := by
  match text with
  | [] => exact .nil rfl
  | b :: rest =>
    by_cases hhead : b = Byte.openBracket
    · exact (d.localAt_readHead (b :: rest)).congr fun t => by
        rw [Reader.map, next, readNext, if_pos hhead, Reader.map]
    by_cases hname : isNameByte b
    · have hkey := (localAt_readName (b :: rest)).andThen fun key rest _ =>
        d.localAt_readAfterKey key rest
      exact hkey.congr fun t => by
        rw [Reader.map, next, readNext, if_neg hhead]
        simp [readName, hname, Reader.andThen, Reader.map]
    · exact .stop (.error ⟨.unexpectedByte b, []⟩) fun t => by
        rw [Reader.map, next, readNext, if_neg hhead]
        simp [readName, hname, withRest, Except.map]

/-- What is read next does not depend on the keys without a meaning. -/
theorem map_bare_next_bare (d : Draft) : Reader.map bare d.bare.next = Reader.map bare d.next := by
  have hhead : Reader.map bare d.bare.readHead = Reader.map bare d.readHead := by
    rw [map_bare_readHead, map_bare_readHead d]
    rfl
  have hkey (key : Bytes) :
      Reader.map bare (d.bare.readAfterKey key) = Reader.map bare (d.readAfterKey key) := by
    rw [map_bare_readAfterKey, map_bare_readAfterKey d, map_bare_readValue, map_bare_readValue d]
    rfl
  funext t
  match t with
  | [] => rfl
  | b :: rest =>
    rw [Reader.map, Reader.map, next, next, readNext, readNext]
    split
    · exact congrFun hhead _
    · split
      · rfl
      · exact congrFun (hkey _) _

/-- **Induction along the heads and entries of a text**: something holds of a text if it holds of
what remains behind the first of them. -/
theorem entries_induction {P : Bytes → Prop}
    (entry : ∀ t, (∀ (d d' : Draft) (b : UInt8) (rest rest' : Bytes),
      skipBlank false t = b :: rest → d.next (b :: rest) = .ok (d', rest') → P rest') → P t)
    (t : Bytes) : P t := by
  induction hn : t.length using Nat.strongRecOn generalizing t with
  | _ n ih =>
  subst hn
  refine entry t fun d d' b rest rest' hskip hnext => ih _ ?_ rest' rfl
  have hle := skipBlank_length_le false t
  rw [hskip] at hle
  exact Nat.lt_of_le_of_lt (readNext_length_le hnext) hle

/-! ### The whole definition -/

/-- Reads to the end, where nothing remains. -/
def whole (d : Draft) : Reader Draft := fun text =>
  match d.readAll text with
  | (d', none) => .ok (d'.bare, [])
  | (_, some f) => .error f

/-- Reads what starts at a byte that is not blank, to the end. -/
def ahead (d : Draft) : Reader Draft
  | [] => if d.found then .ok (d.bare, []) else .error ⟨.noLanguage, []⟩
  | b :: rest => d.next.andThen whole (b :: rest)

theorem whole_eq (d : Draft) (t : Bytes) : d.whole t = d.ahead (skipBlank false t) := by
  rw [whole, readAll_eq]
  cases skipBlank false t with
  | nil => by_cases hd : d.found <;> simp [ahead, hd]
  | cons b rest =>
    rw [ahead, Reader.andThen, next]
    dsimp only
    cases d.readNext b rest <;> rfl

/-- One head or entry after the other: a bare draft is passed on. -/
theorem ahead_cons {d : Draft} {b : UInt8} {rest : Bytes}
    (h : ∀ d' rest', d.next (b :: rest) = .ok (d', rest') → d'.whole rest' = d'.bare.whole rest') :
    d.ahead (b :: rest) = (Reader.map bare d.next).andThen whole (b :: rest) := by
  rw [ahead, Reader.andThen, Reader.andThen, Reader.map]
  cases hnext : d.next (b :: rest) with
  | error f => rfl
  | ok r => exact h r.1 r.2 hnext

theorem whole_bare (d : Draft) (t : Bytes) : d.whole t = d.bare.whole t := by
  induction t using entries_induction generalizing d with
  | entry t ih =>
  rw [whole_eq, whole_eq d.bare]
  match hskip : skipBlank false t with
  | [] => rfl
  | b :: rest =>
    have hpass (d₀ : Draft) : ∀ d' rest', d₀.next (b :: rest) = .ok (d', rest') →
        d'.whole rest' = d'.bare.whole rest' :=
      fun d' rest' hnext => ih d₀ d' b rest rest' hskip hnext d'
    rw [ahead_cons (hpass d), ahead_cons (hpass d.bare), map_bare_next_bare]

/-- **Reading to the end is local**, as every step of it is. -/
theorem localAt_whole (d : Draft) (text : Bytes) : LocalAt d.whole text := by
  induction text using entries_induction generalizing d with
  | entry text ih =>
  have hahead : LocalAt d.ahead (skipBlank false text) := by
    match hskip : skipBlank false text with
    | [] => exact .nil (by by_cases hd : d.found <;> simp [ahead, hd, remainder])
    | b :: rest =>
      have hsteps : LocalAt ((Reader.map bare d.next).andThen whole) (b :: rest) := by
        refine (d.localAt_next (b :: rest)).andThen fun d' rest' h => ?_
        obtain ⟨⟨d₀, rest₀⟩, hnext, heq⟩ := Field.exists_of_map_eq_ok h
        obtain ⟨rfl, rfl⟩ := Prod.mk.inj heq
        exact ih d d₀ b rest rest₀ hskip hnext _
      exact hsteps.congr fun t => ahead_cons fun d' rest' _ => d'.whole_bare rest'
  rw [show d.whole = fun t => d.ahead (skipBlank false t) from funext d.whole_eq]
  exact (localAt_skipBlank false text).comp hahead

/-! ### The rounds -/

/-- Reads like `readAll`, but no more than `n` heads and entries. -/
def readFor : Nat → Draft → Bytes → Option (Draft × Option Fault)
  | 0, _, _ => none
  | n + 1, d, text =>
    match skipBlank false text with
    | [] => some (d, if d.found then none else some ⟨.noLanguage, []⟩)
    | b :: rest =>
      match d.readNext b rest with
      | .error f => some (d, some f)
      | .ok (d', rest') => readFor n d' rest'

/-- Every head and every entry takes some text, so there are no more of them than bytes. -/
theorem readFor_eq_readAll {n : Nat} (d : Draft) {text : Bytes} (h : text.length < n) :
    readFor n d text = some (d.readAll text) := by
  induction n generalizing d text with
  | zero => exact absurd h (Nat.not_lt_zero _)
  | succ n ih =>
    rw [readFor, readAll_eq]
    have hle := skipBlank_length_le false text
    match hskip : skipBlank false text with
    | [] => rfl
    | b :: rest =>
      rw [hskip] at hle
      dsimp only
      match hnext : d.readNext b rest with
      | .error f => rfl
      | .ok (d', rest') =>
        have hlt := readNext_length_le hnext
        rw [List.length_cons] at hle
        exact ih d' (by omega)

end Draft

/-! ### Keys without a meaning -/

namespace Draft

open Definition

variable {d d' : Draft} {key text rest : Bytes}

theorem unknown_readValue (h : d.readValue key text = .ok (d', rest)) :
    d'.unknown = d.unknown ∨ d'.unknown = d.unknown ++ [(key, text)] := by
  unfold readValue at h
  split at h
  · split at h
    · split at h
      · cases h
      · cases h
        exact .inl rfl
    · cases h
      exact .inr rfl
  · cases h
    exact .inl rfl

theorem unknown_readAfterKey (h : d.readAfterKey key text = .ok (d', rest)) :
    d'.unknown = d.unknown ∨
      ∃ value, value <:+ text ∧ d'.unknown = d.unknown ++ [(key, value)] := by
  unfold readAfterKey at h
  split at h
  · cases h
  · next b after hskip =>
    split at h
    · refine (unknown_readValue h).imp_right fun hvalue => ⟨_, ?_, hvalue⟩
      have hafter : b :: after <:+ text := hskip ▸ List.dropWhile_suffix Byte.isSpace
      exact (List.dropWhile_suffix _).trans ((List.suffix_cons b after).trans hafter)
    · cases h

theorem unknown_readHead (h : d.readHead text = .ok (d', rest)) : d'.unknown = d.unknown := by
  unfold readHead at h
  split at h
  · cases h
  · cases h
    rfl

/-- A head or an entry gives at most one key without a meaning, with a text that remained. -/
theorem unknown_readNext {b : UInt8} {rest' : Bytes} (h : d.readNext b rest = .ok (d', rest')) :
    d'.unknown = d.unknown ∨
      ∃ key value, value <:+ b :: rest ∧ d'.unknown = d.unknown ++ [(key, value)] := by
  unfold readNext at h
  split at h
  · exact .inl (unknown_readHead h)
  · split at h
    · cases h
    · refine (unknown_readAfterKey h).imp_right ?_
      rintro ⟨value, hvalue, heq⟩
      exact ⟨_, value, hvalue.trans (List.dropWhile_suffix _), heq⟩

/-- **What is kept with a key without a meaning remained of the text.** -/
theorem suffix_of_mem_unknown {value : Bytes}
    (h : (key, value) ∈ (d.readAll text).1.unknown) : (key, value) ∈ d.unknown ∨ value <:+ text := by
  induction text using entries_induction generalizing d with
  | entry text ih =>
  rw [readAll_eq] at h
  match hskip : skipBlank false text with
  | [] =>
    rw [hskip] at h
    exact .inl h
  | b :: rest =>
    have htext : b :: rest <:+ text := hskip ▸ (localAt_skipBlank false text).suffix
    simp only [hskip] at h
    match hnext : d.readNext b rest with
    | .error f =>
      rw [hnext] at h
      exact .inl h
    | .ok (d', rest') =>
      have hrest : rest' <:+ b :: rest := by
        have hsuffix := (d.localAt_next (b :: rest)).suffix
        rwa [Reader.map, next, hnext] at hsuffix
      rw [hnext] at h
      rcases ih d d' b rest rest' hskip hnext h with hmem | hvalue
      · rcases unknown_readNext hnext with heq | ⟨key', value', hsuffix, heq⟩
        · exact .inl (heq ▸ hmem)
        · rw [heq, List.mem_append, List.mem_singleton] at hmem
          refine hmem.imp_right fun hlast => ?_
          obtain ⟨rfl, rfl⟩ := Prod.mk.inj hlast
          exact hsuffix.trans htext
      · exact .inr (hvalue.trans (hrest.trans htext))

end Draft

/-- **The line of a key without a meaning** is that of the place where its value starts: the line
counter behind what was taken by then. -/
theorem Language.exists_of_mem_unknownKeys {text key : Bytes} {line : Nat}
    (h : (key, line) ∈ Language.unknownKeys text) :
    ∃ taken value, text = taken ++ value ∧
      (key, value) ∈ (Draft.readAll {} text).1.unknown ∧ line = taken.foldl nextLine 1 := by
  obtain ⟨⟨key', value⟩, hmem, heq⟩ := List.mem_map.mp h
  obtain ⟨rfl, rfl⟩ := Prod.mk.inj heq
  obtain ⟨taken, rfl⟩ := (Draft.suffix_of_mem_unknown hmem).resolve_left List.not_mem_nil
  exact ⟨taken, value, rfl, hmem, lineOf_append taken value⟩

/-! ### Faults -/

namespace Language

open Definition

/-- `FailsAt text p m` says that the definition cannot be read: a fault is found at the position
`p`, and `m` is its message. -/
def FailsAt (text : Bytes) (p : Nat) (m : Bytes) : Prop :=
  ∃ f, read text = .error f ∧ p ≤ text.length ∧ f.rest = text.drop p ∧ f.message text = m

theorem read_eq_error_iff {text : Bytes} {f : Fault} :
    read text = .error f ↔ Draft.whole {} text = .error f := by
  unfold read Draft.whole
  match Draft.readAll {} text with
  | (d, none) => simp
  | (d, some f') => simp

/-- A fault stands behind the part that was read, on the line that the counter has reached there. -/
theorem failsAt_append {u rest : Bytes} {p : Problem} (h : read (u ++ rest) = .error ⟨p, rest⟩) :
    FailsAt (u ++ rest) u.length
      (ascii "Line " ++ Bytes.decimal (u.foldl nextLine 1) ++ ascii ": " ++ p.message) := by
  refine ⟨⟨p, rest⟩, h, by simp, by simp, ?_⟩
  rw [Fault.message, lineOf_append]

/-- **A fault is exact and local.**  Reading ends, after no more heads and entries than the text has
bytes.  Where it fails, this is at a position of the text, and the message gives the line of that
position, which fits into a signed number of 32 bits unless the text has as many lines as that.  If
there is a byte at the position, then every text that is the same up to and with this byte fails
there, with the same message. -/
theorem read_fails_locally (text : Bytes) :
    Draft.readFor (text.length + 1) {} text = some (Draft.readAll {} text) ∧
    ∀ f, read text = .error f → ∃ p : Nat,
      let line := 1 + (text.take p).count Byte.newline
      let message := ascii "Line " ++ Bytes.decimal line ++ ascii ": " ++ f.problem.message
      FailsAt text p message ∧
      (text.count Byte.newline < 0x7fffffff → line ≤ 0x7fffffff) ∧
      (p < text.length → ∀ other : Bytes, other.take (p + 1) = text.take (p + 1) →
        FailsAt other p message) := by
  refine ⟨Draft.readFor_eq_readAll {} (Nat.lt_succ_self _), ?_⟩
  rintro ⟨problem, rest⟩ hread
  obtain ⟨u, hu, hlocal⟩ := Draft.localAt_whole {} text
  rw [read_eq_error_iff.1 hread] at hu hlocal
  obtain rfl : text = u ++ rest := hu
  refine ⟨u.length, ?_⟩
  rw [List.take_left, ← foldl_nextLine]
  refine ⟨failsAt_append hread, fun hlines => ?_, fun hp other hother => ?_⟩
  · rw [List.count_append] at hlines
    rw [foldl_nextLine]
    omega
  · obtain ⟨b, v, rfl⟩ : ∃ b v, rest = b :: v :=
      List.exists_cons_of_length_pos (by simpa using hp)
    let w := other.drop (u.length + 1)
    have hother' : other = u ++ b :: w := by
      rw [List.take_length_add_append, List.take_succ_cons, List.take_zero] at hother
      rw [← List.take_append_drop (u.length + 1) other, hother, List.append_assoc,
        List.singleton_append]
    have hfail : Draft.whole {} other = .error ⟨problem, b :: w⟩ := by
      rw [hother', hlocal _ ⟨b, v, w, rfl, rfl⟩, withRest]
    rw [hother'] at hfail ⊢
    exact failsAt_append (read_eq_error_iff.2 hfail)

/-- The item without quotes is found in every file that starts like this one, even if the list never
ends. -/
theorem read_fails_locally_unquoted :
    FailsAt (ascii "[language]\n\nkeywords = [\"if\", 3, \"do") 30
      (ascii "Line 3: Expected string in array") := by
  have hread : read (ascii "[language]\n\nkeywords = [\"if\", 3]\n") =
      .error ⟨.noStringInList, ascii "3]\n"⟩ := by decide +kernel
  obtain ⟨p, ⟨f, hf, -, hrest, -⟩, -, hlocal⟩ := (read_fails_locally _).2 _ hread
  obtain rfl := Except.error.inj (hread.symm.trans hf)
  have hlen := congrArg List.length hrest
  obtain rfl : p = 30 := by
    simp only [List.length_drop] at hlen
    have htext : (ascii "[language]\n\nkeywords = [\"if\", 3]\n").length = 33 := by decide
    have hthree : (ascii "3]\n").length = 3 := by decide
    omega
  have hfails := hlocal (by decide) (ascii "[language]\n\nkeywords = [\"if\", 3, \"do") (by decide)
  rwa [show ascii "Line " ++ Bytes.decimal _ ++ ascii ": " ++ Problem.message _ =
    ascii "Line 3: Expected string in array" by decide +kernel] at hfails

end Language

end Lexicon
