import Lexicon.Log.Record
import Lexicon.Proofs.Key

/-!
# JSON lines can be read back

A JSON line of a record is an object of four members, and a reader of JSON gets the four values out
of it as they were, byte by byte: what a message says stays inside of its string.  The reader here
takes objects whose values are integers and strings, with white space and with all the escapes that
stand for a byte.

## Main definitions

* `Json.Value`, `Json.Member` — a value, and a name with a value.
* `Json.read?` — the members of an object, read from a text.
* `Json.objectText ms` — the text of an object, without white space.

## Main results

* `Json.readChars_escape` — **an escaped text is read back.**
* `Json.read?_objectText` — an object is read back member by member.
* `Json.space_le_objectText` — the text of an object has no control bytes.
* `Record.json_eq` — the JSON line of a record is the text of an object.
* `Record.json_faithful` — **a JSON line gives back its record**, and is one line.
-/

namespace Lexicon.Log

/-! ### Reading objects -/

namespace Json

/-- A value of a member. -/
inductive Value
  | number (n : Int)
  | string (t : Bytes)
  deriving DecidableEq, Repr

/-- A name and its value. -/
abbrev Member := Bytes × Value

/-- The byte that opens an object. -/
abbrev openBrace : UInt8 := 123

/-- The byte that closes an object. -/
abbrev closeBrace : UInt8 := 125

/-- White space between the parts of an object. -/
def isBlank (b : UInt8) : Bool :=
  b = Byte.space || b = Byte.tab || b = Byte.newline || b = Byte.carriageReturn

/-- What follows the byte `b`, which may have white space in front of it. -/
def after? (b : UInt8) (text : Bytes) : Option Bytes :=
  match text.dropWhile isBlank with
  | [] => none
  | c :: rest => if c = b then some rest else none

/-- The value of a hexadecimal digit. -/
def hexValue? (b : UInt8) : Option Nat :=
  if Byte.isDigit b then some (b - 48).toNat
  else if 97 ≤ b && b ≤ 102 then some (b - 87).toNat
  else if 65 ≤ b && b ≤ 70 then some (b - 55).toNat
  else none

/-- The byte that a byte after a backslash stands for. -/
def unescape? (b : UInt8) : Option UInt8 :=
  [(Byte.doubleQuote, Byte.doubleQuote), (Byte.backslash, Byte.backslash), (Byte.slash, Byte.slash),
    (98, 8), (102, 12), (110, Byte.newline), (114, Byte.carriageReturn), (116, Byte.tab)].lookup b

/-- Reads the byte with the number that four hexadecimal digits make. -/
def readHex : Bytes → Option (UInt8 × Bytes)
  | a :: b :: c :: d :: rest => do
    let high ← hexValue? c
    let low ← hexValue? d
    if a = Byte.zero ∧ b = Byte.zero then some ((16 * high + low).toUInt8, rest) else none
  | _ => none

/-- Reads one byte of a string, which may be escaped.  Control bytes stand in no string. -/
def readChar : Bytes → Option (UInt8 × Bytes)
  | [] => none
  | b :: rest =>
    if b = Byte.backslash then
      match rest with
      | [] => none
      | e :: rest' => if e = 117 then readHex rest' else (unescape? e).map fun c => (c, rest')
    else if b < 32 then none
    else some (b, rest)

theorem readHex_length_lt {text rest : Bytes} {b : UInt8} (h : readHex text = some (b, rest)) :
    rest.length < text.length := by
  unfold readHex at h
  split at h
  · obtain ⟨high, -, h⟩ := Option.bind_eq_some_iff.mp h
    obtain ⟨low, -, h⟩ := Option.bind_eq_some_iff.mp h
    split at h
    · cases h
      simp only [List.length_cons]
      omega
    · cases h
  · cases h

theorem readChar_length_lt {text rest : Bytes} {b : UInt8} (h : readChar text = some (b, rest)) :
    rest.length < text.length := by
  unfold readChar at h
  split at h
  · cases h
  · split at h
    · split at h
      · cases h
      · split at h
        · exact Nat.lt_succ_of_lt (Nat.lt_succ_of_lt (readHex_length_lt h))
        · obtain ⟨c, -, h⟩ := Option.map_eq_some_iff.mp h
          cases h
          exact Nat.lt_succ_of_lt (Nat.lt_succ_self _)
    · split at h
      · cases h
      · cases h
        exact Nat.lt_succ_self _

/-- Reads the rest of a string, up to its closing quote. -/
def readChars (text : Bytes) : Option (Bytes × Bytes) :=
  if text.head? = some Byte.doubleQuote then some ([], text.tail)
  else
    match h : readChar text with
    | none => none
    | some (b, rest) =>
      have := readChar_length_lt h
      (readChars rest).map fun r => (b :: r.1, r.2)
termination_by text.length

instance (t : Bytes) : Decidable t.IsShortest := inferInstanceAs (Decidable (_ → _))

/-- Reads a number without a sign, which has no superfluous zeros. -/
def readNatural (text : Bytes) : Option (Nat × Bytes) :=
  if Bytes.IsShortest (text.takeWhile Byte.isDigit) then
    (Bytes.number? (text.takeWhile Byte.isDigit)).map fun n => (n, text.dropWhile Byte.isDigit)
  else none

/-- Reads an integer or a string. -/
def readValue : Bytes → Option (Value × Bytes)
  | [] => none
  | b :: rest =>
    if b = Byte.doubleQuote then (readChars rest).map fun r => (.string r.1, r.2)
    else if b = Byte.dash then (readNatural rest).map fun r => (.number (-r.1), r.2)
    else (readNatural (b :: rest)).map fun r => (.number r.1, r.2)

/-- Reads a name and a value. -/
def readMember (text : Bytes) : Option (Member × Bytes) := do
  let quoted ← after? Byte.doubleQuote text
  let name ← readChars quoted
  let rest ← after? Byte.colon name.2
  let value ← readValue (rest.dropWhile isBlank)
  return ((name.1, value.1), value.2)

theorem after?_length_lt {b : UInt8} {text rest : Bytes} (h : after? b text = some rest) :
    rest.length < text.length := by
  unfold after? at h
  have hle : (text.dropWhile isBlank).length ≤ text.length := (List.dropWhile_sublist _).length_le
  split at h
  · cases h
  · next hdrop =>
    rw [hdrop, List.length_cons] at hle
    split at h
    · cases h
      exact hle
    · cases h

theorem readChars_quote (rest : Bytes) :
    readChars (Byte.doubleQuote :: rest) = some ([], rest) := by
  rw [readChars, List.head?_cons, if_pos rfl, List.tail_cons]

theorem readChars_of_readChar {text rest : Bytes} {b : UInt8}
    (hhead : text.head? ≠ some Byte.doubleQuote) (h : readChar text = some (b, rest)) :
    readChars text = (readChars rest).map fun r => (b :: r.1, r.2) := by
  rw [readChars, if_neg hhead]
  split
  · next hnone => rw [h] at hnone; cases hnone
  · next hsome =>
    rw [h] at hsome
    cases hsome
    rfl

theorem readChars_length_lt {text t rest : Bytes} (h : readChars text = some (t, rest)) :
    rest.length < text.length := by
  fun_induction readChars text generalizing t with
  | case1 text hhead =>
    cases h
    obtain ⟨b, rest, rfl⟩ := List.exists_cons_of_ne_nil (l := text) (by rintro rfl; cases hhead)
    exact Nat.lt_succ_self _
  | case2 => cases h
  | case3 text hhead b rest' hchar hlt ih =>
    obtain ⟨⟨u, rest''⟩, hu, heq⟩ := Option.map_eq_some_iff.mp h
    obtain rfl : rest'' = rest := congrArg Prod.snd heq
    exact Nat.lt_trans (ih hu) hlt

theorem readNatural_length_le {text rest : Bytes} {n : Nat}
    (h : readNatural text = some (n, rest)) : rest.length ≤ text.length := by
  unfold readNatural at h
  split at h
  · obtain ⟨m, -, h⟩ := Option.map_eq_some_iff.mp h
    cases h
    exact (List.dropWhile_sublist _).length_le
  · cases h

theorem readValue_length_le {text rest : Bytes} {v : Value}
    (h : readValue text = some (v, rest)) : rest.length ≤ text.length := by
  unfold readValue at h
  split at h
  · cases h
  · split at h
    · obtain ⟨⟨t, rest'⟩, ht, heq⟩ := Option.map_eq_some_iff.mp h
      cases heq
      exact Nat.le_succ_of_le (Nat.le_of_lt (readChars_length_lt ht))
    · split at h
      · obtain ⟨⟨n, rest'⟩, hn, heq⟩ := Option.map_eq_some_iff.mp h
        cases heq
        exact Nat.le_succ_of_le (readNatural_length_le hn)
      · obtain ⟨⟨n, rest'⟩, hn, heq⟩ := Option.map_eq_some_iff.mp h
        cases heq
        exact readNatural_length_le hn

theorem readMember_length_lt {text rest : Bytes} {m : Member}
    (h : readMember text = some (m, rest)) : rest.length < text.length := by
  obtain ⟨quoted, hquoted, h⟩ := Option.bind_eq_some_iff.mp h
  obtain ⟨⟨name, rest₁⟩, hname, h⟩ := Option.bind_eq_some_iff.mp h
  obtain ⟨rest₂, hcolon, h⟩ := Option.bind_eq_some_iff.mp h
  obtain ⟨⟨value, rest₃⟩, hvalue, h⟩ := Option.bind_eq_some_iff.mp h
  cases h
  have h₁ := after?_length_lt hquoted
  have h₂ := readChars_length_lt hname
  have h₃ := after?_length_lt hcolon
  have h₄ := readValue_length_le hvalue
  have h₅ : (rest₂.dropWhile isBlank).length ≤ rest₂.length := (List.dropWhile_sublist _).length_le
  dsimp only at h₃ ⊢
  omega

/-- Reads members with commas between them, up to the end of their object. -/
def readMembers (text : Bytes) : Option (List Member × Bytes) :=
  match h : readMember text with
  | none => none
  | some (m, rest) =>
    match h' : after? Byte.comma rest with
    | none => (after? closeBrace rest).map fun rest' => ([m], rest')
    | some rest' =>
      have := Nat.lt_trans (after?_length_lt h') (readMember_length_lt h)
      (readMembers rest').map fun r => (m :: r.1, r.2)
termination_by text.length

/-- Reads the rest of an object, which may have no members. -/
def readObject (text : Bytes) : Option (List Member × Bytes) :=
  match after? closeBrace text with
  | some rest => some ([], rest)
  | none => readMembers text

/-- Reads a text that is an object. -/
def read? (text : Bytes) : Option (List Member) := do
  let rest ← after? openBrace text
  let object ← readObject rest
  if (object.2.dropWhile isBlank).isEmpty then some object.1 else none

/-! ### Written objects -/

/-- The text of a value. -/
def Value.text : Value → Bytes
  | .number n => Bytes.decimalInt n
  | .string t => Byte.doubleQuote :: (escape t ++ [Byte.doubleQuote])

/-- The text of a member. -/
def memberText (m : Member) : Bytes :=
  Byte.doubleQuote :: (escape m.1 ++ Byte.doubleQuote :: Byte.colon :: m.2.text)

/-- The text of members, with commas between them. -/
def membersText : List Member → Bytes
  | [] => []
  | [m] => memberText m
  | m :: ms => memberText m ++ Byte.comma :: membersText ms

/-- The text of an object, without white space. -/
def objectText (ms : List Member) : Bytes := openBrace :: (membersText ms ++ [closeBrace])

/-! ### Strings -/

theorem hexValue?_hexDigit {n : Nat} (h : n < 16) : hexValue? (hexDigit n) = some n := by
  have hall : ∀ m < 16, hexValue? (hexDigit m) = some m := by decide
  exact hall n h

/-- A control byte is read back from its number. -/
theorem readHex_number (b : UInt8) (rest : Bytes) :
    readHex (ascii "00" ++ [hexDigit (b.toNat / 16), hexDigit (b.toNat % 16)] ++ rest) =
      some (b, rest) := by
  have hlt := b.toNat_lt
  have hhigh := hexValue?_hexDigit (n := b.toNat / 16) (by omega)
  have hlow := hexValue?_hexDigit (n := b.toNat % 16) (by omega)
  have hbyte : (16 * (b.toNat / 16) + b.toNat % 16).toUInt8 = b := by
    rw [Nat.div_add_mod, Nat.toUInt8_eq, UInt8.ofNat_toNat]
  have htext : ascii "00" ++ [hexDigit (b.toNat / 16), hexDigit (b.toNat % 16)] ++ rest =
      Byte.zero :: Byte.zero :: hexDigit (b.toNat / 16) :: hexDigit (b.toNat % 16) :: rest := rfl
  rw [htext]
  simp only [readHex, hhigh, hlow, Option.bind_eq_bind, Option.bind_some, hbyte, and_self, if_true]

/-- A byte is written as a backslash and a byte that stands for it, as a backslash and its number,
or as it is. -/
theorem escapeByte_cases (b : UInt8) :
    (∃ e, escapeByte b = [Byte.backslash, e] ∧ unescape? e = some b ∧ e ≠ 117 ∧ Byte.space ≤ e) ∨
      escapeByte b = ascii "\\u00" ++ [hexDigit (b.toNat / 16), hexDigit (b.toNat % 16)] ∨
      escapeByte b = [b] ∧ b ≠ Byte.doubleQuote ∧ b ≠ Byte.backslash ∧ ¬b < 32 := by
  unfold escapeByte
  split
  · next h => exact .inl ⟨Byte.doubleQuote, rfl, by rw [h]; rfl, by decide, by decide⟩
  split
  · next h => exact .inl ⟨Byte.backslash, rfl, by rw [h]; rfl, by decide, by decide⟩
  split
  · next h => exact .inl ⟨110, rfl, by rw [h]; rfl, by decide, by decide⟩
  split
  · next h => exact .inl ⟨114, rfl, by rw [h]; rfl, by decide, by decide⟩
  split
  · next h => exact .inl ⟨116, rfl, by rw [h]; rfl, by decide, by decide⟩
  split
  · exact .inr (.inl rfl)
  · next hquote hbackslash _ _ _ hcontrol =>
    exact .inr (.inr ⟨rfl, hquote, hbackslash, hcontrol⟩)

/-- **A byte is read back from its form in a string**, whatever follows, and no form starts with the
quote that would end the string. -/
theorem readChar_escapeByte (b : UInt8) (rest : Bytes) :
    readChar (escapeByte b ++ rest) = some (b, rest) ∧
      (escapeByte b ++ rest).head? ≠ some Byte.doubleQuote := by
  have hhead : ∀ t : Bytes, (Byte.backslash :: t).head? ≠ some Byte.doubleQuote := by
    intro t
    rw [List.head?_cons]
    decide
  rcases escapeByte_cases b with ⟨e, h, he, hne, -⟩ | h | ⟨h, hquote, hbackslash, hcontrol⟩
  · have hread : readChar (Byte.backslash :: e :: rest) = (unescape? e).map fun c => (c, rest) := by
      rw [readChar, if_pos rfl]
      exact if_neg hne
    rw [h, List.cons_append, List.singleton_append, hread, he, Option.map_some]
    exact ⟨rfl, hhead _⟩
  · rw [h]
    exact ⟨readHex_number b rest, hhead _⟩
  · have hread : readChar (b :: rest) = some (b, rest) := by
      rw [readChar.eq_def]
      dsimp only
      rw [if_neg hbackslash, if_neg hcontrol]
    rw [h, List.singleton_append, hread, List.head?_cons]
    exact ⟨rfl, fun heq => hquote (Option.some.inj heq)⟩

/-- **An escaped text is read back**, up to the quote that ends its string. -/
theorem readChars_escape (t rest : Bytes) :
    readChars (escape t ++ Byte.doubleQuote :: rest) = some (t, rest) := by
  induction t with
  | nil => exact readChars_quote rest
  | cons b t ih =>
    obtain ⟨hchar, hhead⟩ := readChar_escapeByte b (escape t ++ Byte.doubleQuote :: rest)
    rw [escape, List.flatMap_cons, List.append_assoc, ← escape, readChars_of_readChar hhead hchar,
      ih, Option.map_some]

/-! ### Numbers -/

/-- A number is read back if no digit follows. -/
theorem readNatural_decimal (n : Nat) {rest : Bytes}
    (hrest : ∀ b ∈ rest.head?, Byte.isDigit b = false) :
    readNatural (Bytes.decimal n ++ rest) = some (n, rest) := by
  have hdigits : ∀ b ∈ Bytes.decimal n, Byte.isDigit b = true :=
    fun b hb => Bytes.isDigit_of_mem_decimal hb
  have hstop : rest.takeWhile Byte.isDigit = [] ∧ rest.dropWhile Byte.isDigit = rest := by
    cases rest with
    | nil => exact ⟨rfl, rfl⟩
    | cons b rest =>
      have hb := hrest b rfl
      exact ⟨List.takeWhile_cons_of_neg (by simp [hb]), List.dropWhile_cons_of_neg (by simp [hb])⟩
  rw [readNatural, List.takeWhile_append_of_pos hdigits, List.dropWhile_append_of_pos hdigits,
    hstop.1, hstop.2, List.append_nil, if_pos (Bytes.isShortest_decimal n), Bytes.number?_decimal,
    Option.map_some]

/-- A number starts with a digit. -/
theorem exists_cons_decimal (n : Nat) :
    ∃ b t, Bytes.decimal n = b :: t ∧ Byte.isDigit b = true := by
  obtain ⟨b, t, h⟩ := List.exists_cons_of_ne_nil (Bytes.decimal_ne_nil n)
  exact ⟨b, t, h, Bytes.isDigit_of_mem_decimal (h ▸ List.mem_cons_self)⟩

/-- A value is read back if no digit follows. -/
theorem readValue_text (v : Value) {rest : Bytes}
    (hrest : ∀ b ∈ rest.head?, Byte.isDigit b = false) :
    readValue (v.text ++ rest) = some (v, rest) := by
  cases v with
  | string t =>
    show readValue (Byte.doubleQuote :: (escape t ++ [Byte.doubleQuote] ++ rest)) = _
    rw [readValue, if_pos rfl, List.append_assoc, List.singleton_append, readChars_escape,
      Option.map_some]
  | number n =>
    cases n with
    | ofNat n =>
      obtain ⟨b, t, hdecimal, hb⟩ := exists_cons_decimal n
      have hquote : b ≠ Byte.doubleQuote := by
        rintro rfl
        exact absurd hb (by decide)
      have hdash : b ≠ Byte.dash := by
        rintro rfl
        exact absurd hb (by decide)
      have hread := readNatural_decimal n hrest
      rw [hdecimal, List.cons_append] at hread
      show readValue (Bytes.decimal n ++ rest) = _
      rw [hdecimal, List.cons_append, readValue, if_neg hquote, if_neg hdash, hread,
        Option.map_some]
      rfl
    | negSucc n =>
      show readValue (Byte.dash :: (Bytes.decimal (n + 1) ++ rest)) = _
      rw [readValue, if_neg (by decide), if_pos rfl, readNatural_decimal _ hrest, Option.map_some]
      rfl

/-! ### Objects -/

theorem after?_self {b : UInt8} (hb : isBlank b = false) (rest : Bytes) :
    after? b (b :: rest) = some rest := by
  rw [after?, List.dropWhile_cons_of_neg (by simp [hb])]
  simp

/-- No white space stands in front of a value. -/
theorem dropWhile_isBlank_text (v : Value) (rest : Bytes) :
    (v.text ++ rest).dropWhile isBlank = v.text ++ rest := by
  have hcons : ∃ b t, v.text = b :: t ∧ isBlank b = false := by
    cases v with
    | string t => exact ⟨_, _, rfl, by decide⟩
    | number n =>
      cases n with
      | ofNat n =>
        obtain ⟨b, t, hdecimal, hb⟩ := exists_cons_decimal n
        refine ⟨b, t, hdecimal, ?_⟩
        rw [← Bool.not_eq_true]
        intro hblank
        simp only [isBlank, Bool.or_eq_true, decide_eq_true_eq] at hblank
        obtain ((rfl | rfl) | rfl) | rfl := hblank
        all_goals exact absurd hb (by decide)
      | negSucc n => exact ⟨_, _, rfl, by decide⟩
  obtain ⟨b, t, htext, hb⟩ := hcons
  rw [htext, List.cons_append, List.dropWhile_cons_of_neg (by simp [hb])]

/-- A member is read back if no digit follows. -/
theorem readMember_text (m : Member) (rest : Bytes)
    (hrest : ∀ b ∈ rest.head?, Byte.isDigit b = false) :
    readMember (memberText m ++ rest) = some (m, rest) := by
  have htext : memberText m ++ rest = Byte.doubleQuote ::
      (escape m.1 ++ Byte.doubleQuote :: Byte.colon :: (m.2.text ++ rest)) := by
    simp [memberText]
  rw [htext, readMember, after?_self (by decide)]
  simp only [Option.bind_eq_bind, Option.bind_some, readChars_escape]
  rw [after?_self (by decide), Option.bind_some, dropWhile_isBlank_text, readValue_text _ hrest]
  rfl

theorem readMembers_eq {text rest : Bytes} {m : Member} (h : readMember text = some (m, rest)) :
    readMembers text =
      match after? Byte.comma rest with
      | none => (after? closeBrace rest).map fun rest' => ([m], rest')
      | some rest' => (readMembers rest').map fun r => (m :: r.1, r.2) := by
  rw [readMembers.eq_def]
  split
  · next hnone => rw [h] at hnone; cases hnone
  · next hsome =>
    rw [h] at hsome
    cases hsome
    split
    · next hcomma => simp only [hcomma]
    · next hcomma => simp only [hcomma]

/-- Members are read back up to the end of their object. -/
theorem readMembers_text {ms : List Member} (hne : ms ≠ []) (rest : Bytes) :
    readMembers (membersText ms ++ closeBrace :: rest) = some (ms, rest) := by
  induction ms with
  | nil => exact absurd rfl hne
  | cons m ms ih =>
    cases ms with
    | nil =>
      have hmember := readMember_text m (closeBrace :: rest) (by rintro _ ⟨⟩; decide)
      rw [membersText, readMembers_eq hmember]
      rfl
    | cons m' ms =>
      have hmember := readMember_text m
        (Byte.comma :: (membersText (m' :: ms) ++ closeBrace :: rest))
        (by rintro _ ⟨⟩; decide)
      rw [membersText, List.append_assoc, List.cons_append, readMembers_eq hmember,
        after?_self (by decide)]
      dsimp only
      rw [ih (List.cons_ne_nil _ _), Option.map_some]
      exact List.cons_ne_nil _ _

theorem readObject_text (ms : List Member) (rest : Bytes) :
    readObject (membersText ms ++ closeBrace :: rest) = some (ms, rest) := by
  cases ms with
  | nil => rfl
  | cons m ms =>
    obtain ⟨t, ht⟩ : ∃ t, membersText (m :: ms) = Byte.doubleQuote :: t := by
      cases ms <;> exact ⟨_, rfl⟩
    have hquote : after? closeBrace (membersText (m :: ms) ++ closeBrace :: rest) = none := by
      rw [ht]
      rfl
    rw [readObject, hquote]
    exact readMembers_text (List.cons_ne_nil m ms) rest

/-- **An object is read back member by member.** -/
theorem read?_objectText (ms : List Member) :
    read? (Bytes.line (objectText ms)) = some ms := by
  have hline : Bytes.line (objectText ms) =
      openBrace :: (membersText ms ++ closeBrace :: [Byte.newline]) := by
    simp [Bytes.line, objectText]
  rw [hline, read?, after?_self (by decide), Option.bind_eq_bind, Option.bind_some,
    readObject_text]
  rfl

/-! ### Control bytes -/

theorem space_le_hexDigit {n : Nat} (h : n < 16) : Byte.space ≤ hexDigit n := by
  have hall : ∀ m < 16, Byte.space ≤ hexDigit m := by decide
  exact hall n h

theorem space_le_escapeByte (b : UInt8) : ∀ c ∈ escapeByte b, Byte.space ≤ c := by
  rcases escapeByte_cases b with ⟨e, h, -, -, he⟩ | h | ⟨h, -, -, hcontrol⟩
  · rw [h, List.forall_mem_cons, List.forall_mem_singleton]
    exact ⟨by decide, he⟩
  · have hlt := b.toNat_lt
    have hprefix : (ascii "\\u00").all fun c => Byte.space ≤ c := by decide
    rw [h, List.forall_mem_append, List.forall_mem_cons, List.forall_mem_singleton]
    refine ⟨fun c hc => ?_, space_le_hexDigit (by omega), space_le_hexDigit (by omega)⟩
    exact of_decide_eq_true (List.all_eq_true.mp hprefix c hc)
  · rw [h, List.forall_mem_singleton]
    exact UInt8.not_lt.mp hcontrol

theorem space_le_escape (t : Bytes) : ∀ c ∈ escape t, Byte.space ≤ c := by
  intro c hc
  obtain ⟨b, -, hb⟩ := List.mem_flatMap.mp hc
  exact space_le_escapeByte b c hb

theorem space_le_decimal (n : Nat) : ∀ c ∈ Bytes.decimal n, Byte.space ≤ c := by
  intro c hc
  have hdigit : Byte.zero ≤ c ∧ c ≤ 57 := by
    simpa [Byte.isDigit] using Bytes.isDigit_of_mem_decimal hc
  have hspace : Byte.space ≤ Byte.zero := by decide
  exact UInt8.le_trans hspace hdigit.1

theorem space_le_valueText (v : Value) : ∀ c ∈ v.text, Byte.space ≤ c := by
  cases v with
  | string t =>
    rw [Value.text, List.forall_mem_cons, List.forall_mem_append, List.forall_mem_singleton]
    exact ⟨by decide, space_le_escape t, by decide⟩
  | number n =>
    cases n with
    | ofNat n => exact space_le_decimal n
    | negSucc n => exact List.forall_mem_cons.mpr ⟨by decide, space_le_decimal (n + 1)⟩

theorem space_le_memberText (m : Member) : ∀ c ∈ memberText m, Byte.space ≤ c := by
  rw [memberText, List.forall_mem_cons, List.forall_mem_append, List.forall_mem_cons,
    List.forall_mem_cons]
  exact ⟨by decide, space_le_escape m.1, by decide, by decide, space_le_valueText m.2⟩

theorem space_le_membersText (ms : List Member) : ∀ c ∈ membersText ms, Byte.space ≤ c := by
  fun_induction membersText ms with
  | case1 => simp
  | case2 m => exact space_le_memberText m
  | case3 m ms _ ih =>
    rw [List.forall_mem_append, List.forall_mem_cons]
    exact ⟨space_le_memberText m, by decide, ih⟩

/-- **The text of an object has no control bytes.** -/
theorem space_le_objectText (ms : List Member) : ∀ c ∈ objectText ms, Byte.space ≤ c := by
  rw [objectText, List.forall_mem_cons, List.forall_mem_append, List.forall_mem_singleton]
  exact ⟨by decide, space_le_membersText ms, by decide⟩

end Json

/-! ### Records -/

namespace Record

open Json

/-- The members of a JSON line. -/
def members (r : Record) : List Member :=
  [(ascii "ts", .number r.time), (ascii "level", .string r.level.name),
    (ascii "module", .string r.origin), (ascii "msg", .string r.message)]

/-- The name of a level needs no escapes. -/
theorem escape_levelName (l : Level) : escape l.name = l.name := by
  have hnames : ∀ n ∈ Level.names, escape n = n := by decide
  have hnone : escape (ascii "???") = ascii "???" := by decide
  unfold Level.name
  split
  · exact hnone
  · cases h : Level.names[l.rank.toNat]? with
    | none => exact hnone
    | some n => exact hnames n (List.mem_of_getElem? h)

/-- **The JSON line of a record is the text of an object.** -/
theorem json_eq (r : Record) : r.json = Bytes.line (objectText r.members) := by
  have htime : ascii "\x7b\"ts\":" =
      openBrace :: Byte.doubleQuote :: (escape (ascii "ts") ++ [Byte.doubleQuote, Byte.colon]) := by
    decide
  have hlevel : ascii ",\"level\":\"" = Byte.comma :: Byte.doubleQuote ::
      (escape (ascii "level") ++ [Byte.doubleQuote, Byte.colon, Byte.doubleQuote]) := by
    decide
  have hmodule : ascii "\",\"module\":\"" = Byte.doubleQuote :: Byte.comma :: Byte.doubleQuote ::
      (escape (ascii "module") ++ [Byte.doubleQuote, Byte.colon, Byte.doubleQuote]) := by
    decide
  have hmessage : ascii "\",\"msg\":\"" = Byte.doubleQuote :: Byte.comma :: Byte.doubleQuote ::
      (escape (ascii "msg") ++ [Byte.doubleQuote, Byte.colon, Byte.doubleQuote]) := by
    decide
  have hend : ascii "\"\x7d" = [Byte.doubleQuote, closeBrace] := by decide
  rw [json, htime, hlevel, hmodule, hmessage, hend]
  simp [objectText, members, membersText, memberText, Value.text, escape_levelName]

theorem read?_json (r : Record) : read? r.json = some r.members := by
  rw [json_eq, read?_objectText]

/-- **A JSON line gives back its record.**  It is one line: the newline at its end is its only
control byte.  A reader of JSON finds an object of four members in it, with the time, the name of
the level, the origin and the message as they were.  So two records have the same line only if they
agree in all four. -/
theorem json_faithful (r : Record) :
    (∃ body, r.format .json = Bytes.line body ∧ ∀ b ∈ body, Byte.space ≤ b) ∧
      read? (r.format .json) =
        some [(ascii "ts", .number r.time), (ascii "level", .string r.level.name),
          (ascii "module", .string r.origin), (ascii "msg", .string r.message)] ∧
      ∀ r' : Record, r'.format .json = r.format .json ↔
        r'.time = r.time ∧ r'.level.name = r.level.name ∧ r'.origin = r.origin ∧
          r'.message = r.message := by
  refine ⟨⟨_, r.json_eq, space_le_objectText _⟩, r.read?_json, ?_⟩
  intro r'
  constructor
  · intro h
    have hread := congrArg read? h
    change read? r'.json = read? r.json at hread
    rw [read?_json, read?_json] at hread
    simpa [members] using hread
  · rintro ⟨htime, hlevel, horigin, hmessage⟩
    show r'.json = r.json
    rw [json_eq, json_eq, members, members, htime, hlevel, horigin, hmessage]

/-- A message that ends its string and goes on with a level. -/
example :
    json ⟨⟨.debug, ascii "scan", ascii "\",\"level\":\"OFF"⟩, -5⟩ =
      ascii "\x7b\"ts\":-5,\"level\":\"DEBUG\",\"module\":\"scan\"," ++
        ascii "\"msg\":\"\\\",\\\"level\\\":\\\"OFF\"\x7d\n" := by
  decide +kernel

end Record
end Lexicon.Log
