import Lexicon.Definition.Fault

/-!
# Names and values in a definition

A name is made of letters, digits, underscores, dashes and dots.  A value is a string in double
quotes, or a list of strings in brackets.  A string stays on its line and knows escapes; a list
may span lines and hold comments.  Each reader returns what it read and the text that remains.

## Main definitions

* `Definition.skipBlank`, `Definition.skipSpace` — pass over white space, with comments or without.
* `Definition.readName`, `readSection`, `readString`, `readList` — the readers.
* `Definition.skipValue` — passes over a value that is not read.
-/

namespace Lexicon

namespace Definition

/-! ### White space and names -/

/-- A text without the white space at its head. -/
def skipSpace (text : Bytes) : Bytes := text.dropWhile Byte.isSpace

/-- A text without the white space and comments at its head.  In a comment, everything up to the
end of the line is dropped. -/
def skipBlank (inComment : Bool) : Bytes → Bytes
  | [] => []
  | b :: rest =>
    if inComment then skipBlank (b != Byte.newline) rest
    else if Byte.isSpace b then skipBlank false rest
    else if b = Byte.hash then skipBlank true rest
    else b :: rest

/-- A byte of the name of a section or of a key. -/
def isNameByte (b : UInt8) : Bool :=
  Byte.isLetter b || Byte.isDigit b || b == Byte.underscore || b == Byte.dash || b == Byte.dot

/-- The name at the head of a text, which may be empty, and what follows it. -/
def readName (text : Bytes) : Bytes × Bytes :=
  (text.takeWhile isNameByte, text.dropWhile isNameByte)

/-- Reads the head of a section: a name between brackets.  Brackets may be doubled. -/
def readSection (text : Bytes) : Except Fault (Bytes × Bytes) :=
  let name := readName (skipSpace (text.dropWhile (· == Byte.openBracket)))
  match skipSpace name.2 with
  | [] => .error ⟨.sectionNotClosed, []⟩
  | b :: rest =>
    if b = Byte.closeBracket then .ok (name.1, rest.dropWhile (· == Byte.closeBracket))
    else .error ⟨.sectionNotClosed, b :: rest⟩

/-! ### Values -/

/-- The byte that a byte after a backslash stands for. -/
def unescape (b : UInt8) : UInt8 :=
  if b = 110 then Byte.newline
  else if b = 116 then Byte.tab
  else if b = 114 then Byte.carriageReturn
  else b

/-- Puts something in front of what was read. -/
def withFirst {α : Type} (a : α) :
    Except Fault (List α × Bytes) → Except Fault (List α × Bytes)
  | .error f => .error f
  | .ok (read, rest) => .ok (a :: read, rest)

/-- Reads the rest of a string, up to its closing quote, on one line. -/
def readStringBody : Bytes → Except Fault (Bytes × Bytes)
  | [] => .error ⟨.stringNotClosed, []⟩
  | b :: rest =>
    if b = Byte.doubleQuote then .ok ([], rest)
    else if b = Byte.newline then .error ⟨.stringNotClosed, b :: rest⟩
    else if b = Byte.backslash then
      match rest with
      | [] => .error ⟨.stringNotClosed, []⟩
      | e :: rest' => withFirst (unescape e) (readStringBody rest')
    else withFirst b (readStringBody rest)

/-- Reads a string in quotes. -/
def readString : Bytes → Except Fault (Bytes × Bytes)
  | [] => .error ⟨.noString, []⟩
  | b :: rest =>
    if b = Byte.doubleQuote then readStringBody rest else .error ⟨.noString, b :: rest⟩

theorem withFirst_eq_ok {α : Type} {a : α} {r : Except Fault (List α × Bytes)} {v : List α}
    {rest : Bytes} (h : withFirst a r = .ok (v, rest)) : ∃ u, v = a :: u ∧ r = .ok (u, rest) := by
  match r with
  | .error f => cases h
  | .ok (u, rest') =>
    cases h
    exact ⟨u, rfl, rfl⟩

theorem readStringBody_length_lt {text value rest : Bytes}
    (h : readStringBody text = .ok (value, rest)) : rest.length < text.length := by
  fun_induction readStringBody text generalizing value with
  | case1 => cases h
  | case2 =>
    cases h
    exact Nat.lt_succ_self _
  | case3 => cases h
  | case4 => cases h
  | case5 e rest' _ _ ih =>
    obtain ⟨u, -, hu⟩ := withFirst_eq_ok h
    exact Nat.lt_succ_of_lt (Nat.lt_succ_of_lt (ih hu))
  | case6 b rest' _ _ _ ih =>
    obtain ⟨u, -, hu⟩ := withFirst_eq_ok h
    exact Nat.lt_succ_of_lt (ih hu)

theorem readString_length_lt {text value rest : Bytes}
    (h : readString text = .ok (value, rest)) : rest.length < text.length := by
  unfold readString at h
  split at h
  · cases h
  · split at h
    · exact Nat.lt_succ_of_lt (readStringBody_length_lt h)
    · cases h

theorem skipBlank_length_le (inComment : Bool) (text : Bytes) :
    (skipBlank inComment text).length ≤ text.length := by
  fun_induction skipBlank inComment text with
  | case1 => exact Nat.le_refl _
  | case2 _ _ ih => exact Nat.le_succ_of_le ih
  | case3 _ _ _ _ _ ih => exact Nat.le_succ_of_le ih
  | case4 _ _ _ _ ih => exact Nat.le_succ_of_le ih
  | case5 => exact Nat.le_refl _

/-- Behind an item and what separates it from the next, less text remains. -/
theorem nextItem_length_lt {text item rest after : Bytes} {b : UInt8}
    (h : readStringBody text = .ok (item, rest)) (h' : skipBlank false rest = b :: after) :
    (skipBlank false after).length < text.length := by
  have h₁ := readStringBody_length_lt h
  have h₂ := skipBlank_length_le false rest
  have h₃ := skipBlank_length_le false after
  simp only [h', List.length_cons] at h₂
  omega

/-- Reads the rest of a list of strings, from a place where an item or the end of the list may
stand. -/
def readItems (text : Bytes) : Except Fault (List Bytes × Bytes) :=
  match text with
  | [] => .error ⟨.listNotClosed, []⟩
  | b :: rest =>
    if b = Byte.closeBracket then .ok ([], rest)
    else if b = Byte.doubleQuote then
      match h : readStringBody rest with
      | .error f => .error f
      | .ok (item, rest') =>
        match h' : skipBlank false rest' with
        | [] => .error ⟨.noCommaInList, []⟩
        | c :: after =>
          if c = Byte.comma then
            -- after a comma the list may end
            have := nextItem_length_lt h h'
            withFirst item (readItems (skipBlank false after))
          else if c = Byte.closeBracket then .ok ([item], after)
          else .error ⟨.noCommaInList, c :: after⟩
    else .error ⟨.noStringInList, b :: rest⟩
termination_by text.length

/-- Reads a list of strings in brackets, with commas between them and perhaps after the last. -/
def readList : Bytes → Except Fault (List Bytes × Bytes)
  | [] => .error ⟨.noList, []⟩
  | b :: rest =>
    if b = Byte.openBracket then readItems (skipBlank false rest)
    else .error ⟨.noList, b :: rest⟩

/-- What follows a value that is skipped.  The value ends with its line, or, inside `depth`
brackets, with the line on which they are closed; brackets in strings do not count. -/
def skipValue (inString : Bool) (depth : Int) : Bytes → Bytes
  | [] => []
  | b :: rest =>
    if inString then
      -- the byte after a backslash is passed over, be it a quote or a newline
      if b = Byte.backslash then
        match rest with
        | [] => []
        | _ :: rest' => skipValue true depth rest'
      else if b = Byte.newline then b :: rest
      else skipValue (b != Byte.doubleQuote) depth rest
    else if b = Byte.doubleQuote then skipValue true depth rest
    else if b = Byte.openBracket then skipValue false (depth + 1) rest
    else if b = Byte.closeBracket then skipValue false (depth - 1) rest
    else if b = Byte.newline && depth ≤ 0 then b :: rest
    else skipValue false depth rest

/-! ### How much remains -/

theorem readItems_length_lt {text rest : Bytes} {items : List Bytes}
    (h : readItems text = .ok (items, rest)) : rest.length < text.length := by
  fun_induction readItems text generalizing items with
  | case1 => cases h
  | case2 =>
    cases h
    exact Nat.lt_succ_self _
  | case3 => cases h
  | case4 => cases h
  | case5 text item rest' after _ _ _ hlt ih =>
    obtain ⟨u, -, hu⟩ := withFirst_eq_ok h
    exact Nat.lt_succ_of_lt (Nat.lt_trans (ih hu) hlt)
  | case6 text item rest' hitem after _ hafter =>
    cases h
    have h₁ := readStringBody_length_lt hitem
    have h₂ := skipBlank_length_le false rest'
    simp only [hafter, List.length_cons] at h₂ ⊢
    omega
  | case7 => cases h
  | case8 => cases h

theorem readList_length_lt {text rest : Bytes} {items : List Bytes}
    (h : readList text = .ok (items, rest)) : rest.length < text.length := by
  unfold readList at h
  split at h
  · cases h
  · split at h
    · exact Nat.lt_succ_of_lt (Nat.lt_of_lt_of_le (readItems_length_lt h)
        (skipBlank_length_le false _))
    · cases h

theorem skipValue_length_le (inString : Bool) (depth : Int) (text : Bytes) :
    (skipValue inString depth text).length ≤ text.length := by
  fun_induction skipValue inString depth text with
  | case1 => exact Nat.le_refl _
  | case2 => simp
  | case3 _ _ _ ih => exact Nat.le_succ_of_le (Nat.le_succ_of_le ih)
  | case4 => exact Nat.le_refl _
  | case5 => exact Nat.le_succ_of_le (by assumption)
  | case6 => exact Nat.le_succ_of_le (by assumption)
  | case7 => exact Nat.le_succ_of_le (by assumption)
  | case8 => exact Nat.le_succ_of_le (by assumption)
  | case9 => exact Nat.le_refl _
  | case10 => exact Nat.le_succ_of_le (by assumption)

theorem skipSpace_length_le (text : Bytes) : (skipSpace text).length ≤ text.length :=
  (List.dropWhile_sublist _).length_le

theorem readName_length_le (text : Bytes) : (readName text).2.length ≤ text.length :=
  (List.dropWhile_sublist _).length_le

/-- A name that is not empty was taken from the text. -/
theorem readName_length_lt {text : Bytes} (h : (readName text).1 ≠ []) :
    (readName text).2.length < text.length := by
  have hlen : (readName text).1.length + (readName text).2.length = text.length := by
    simp only [readName, ← List.length_append, List.takeWhile_append_dropWhile]
  have hpos := List.length_pos_iff.2 h
  omega

theorem readSection_length_lt {text name rest : Bytes}
    (h : readSection text = .ok (name, rest)) : rest.length < text.length := by
  simp only [readSection] at h
  have h₁ : (text.dropWhile (· == Byte.openBracket)).length ≤ text.length :=
    (List.dropWhile_sublist _).length_le
  have h₂ := skipSpace_length_le (text.dropWhile (· == Byte.openBracket))
  have h₃ := readName_length_le (skipSpace (text.dropWhile (· == Byte.openBracket)))
  have h₄ := skipSpace_length_le (readName (skipSpace (text.dropWhile (· == Byte.openBracket)))).2
  split at h
  · cases h
  · next b rest' heq =>
    rw [heq, List.length_cons] at h₄
    split at h
    · cases h
      have h₅ : (rest'.dropWhile (· == Byte.closeBracket)).length ≤ rest'.length :=
        (List.dropWhile_sublist _).length_le
      omega
    · cases h

end Definition

end Lexicon
