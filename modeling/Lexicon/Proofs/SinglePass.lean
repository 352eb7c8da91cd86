import Lexicon.Proofs.Grouping

/-!
# One pass instead of four

The four passes over a list of tokens can be made as one.  At each position the single pass takes
the first of these that stands there: a number, a chain of names, a keyword, a delimiter; any other
token it leaves.  What an earlier pass takes is never part of what a later one would have taken, and
values of different categories are numbered independently, so that the tokens and the registry come
out the same.

## Main definitions

* `numberWidth`, `Language.linksWidth` — how many tokens a number and the rest of a chain take.
* `Language.taken?` — what the single pass takes at the head of a list of tokens.
* `Registry.passOnce` — the single pass.

## Main results

* `Registry.add_groupAll` — passes commute with the naming of values of other categories.
* `Registry.reassemble_of_takes`, `Registry.reassemble_of_taken_none` — what the four passes make of
  the head of a list of tokens.
* `Registry.reassemble_eq_passOnce` — **the four passes are the single pass.**
-/

namespace Lexicon

/-! ### The single pass -/

/-- Whether a token is a text in `p`. -/
def Token.isText (p : Bytes → Bool) : Token → Bool
  | .text t => p t
  | .key _ => false

@[simp] theorem Token.isText_text (p : Bytes → Bool) (t : Bytes) :
    (Token.text t).isText p = p t := rfl

@[simp] theorem Token.isText_key (p : Bytes → Bool) (k : Key) :
    (Token.key k).isText p = false := rfl

theorem Token.exists_of_isText {p : Bytes → Bool} {t : Token} (h : t.isText p) :
    ∃ u, t = .text u ∧ p u := by
  cases t with
  | text u => exact ⟨u, rfl, h⟩
  | key k => simp at h

/-- Whether the token at a position is a text in `p`. -/
def textAt (p : Bytes → Bool) (ts : List Token) (i : Nat) : Bool := ts[i]?.any (Token.isText p)

@[simp] theorem textAt_cons_zero (p : Bytes → Bool) (t : Token) (ts : List Token) :
    textAt p (t :: ts) 0 = t.isText p := rfl

@[simp] theorem textAt_cons_succ (p : Bytes → Bool) (t : Token) (ts : List Token) (i : Nat) :
    textAt p (t :: ts) (i + 1) = textAt p ts i := by
  simp [textAt]

theorem exists_of_textAt_zero {p : Bytes → Bool} {ts : List Token} (h : textAt p ts 0) :
    ∃ t rest, ts = .text t :: rest ∧ p t := by
  match ts, h with
  | .text t :: rest, h => exact ⟨t, rest, rfl, h⟩

/-- The texts of a list of tokens, joined. -/
def textOf (ts : List Token) : Bytes := (ts.filterMap Token.text?).flatten

@[simp] theorem textOf_nil : textOf [] = [] := rfl

@[simp] theorem textOf_text (t : Bytes) (ts : List Token) :
    textOf (.text t :: ts) = t ++ textOf ts := rfl

/-- How many tokens the number at the head of a list of tokens takes, zero if there is none: digits
with a point after them and digits after that, as far as there are any, or a point with digits after
it. -/
def numberWidth (ts : List Token) : Nat :=
  if textAt isDigitRun ts 0 then
    if textAt (· == point) ts 1 then
      if textAt isDigitRun ts 2 then 3 else 2
    else 1
  else if textAt (· == point) ts 0 && textAt isDigitRun ts 1 then 2
  else 0

namespace Language

/-- How many tokens at the head of a list are pairs of a call delimiter and a name.  Digits are no
call delimiter here. -/
def linksWidth (l : Language) : List Token → Nat
  | d :: m :: rest =>
    if d.isText (fun t => l.isCall t && !isDigitRun t) && m.isText l.isObjectName then
      l.linksWidth rest + 2
    else 0
  | _ => 0

/-- What the single pass takes at the head of a list of tokens: the category of the value, and the
number of tokens that are joined into it.  The first case that applies counts. -/
def taken? (l : Language) (ts : List Token) : Option (Category × Nat) :=
  if numberWidth ts ≠ 0 then some (.primitive, numberWidth ts)
  else if textAt l.isObjectName ts 0 then some (.object, l.linksWidth ts.tail + 1)
  else if textAt l.isKeyword ts 0 then some (.keyword, 1)
  else if textAt l.isDelimiter ts 0 then some (.delimiter, 1)
  else none

/-- `l.Takes ts c n` says which of the four cases applies where `l.taken? ts` is `some (c, n)`. -/
inductive Takes (l : Language) : List Token → Category → Nat → Prop
  | number {ts : List Token} (hw : numberWidth ts ≠ 0) : Takes l ts .primitive (numberWidth ts)
  | chain {m : Bytes} {rest : List Token} (hw : numberWidth (.text m :: rest) = 0)
      (hm : l.isObjectName m) : Takes l (.text m :: rest) .object (l.linksWidth rest + 1)
  | keyword {k : Bytes} {rest : List Token} (hw : numberWidth (.text k :: rest) = 0)
      (hm : l.isObjectName k = false) (hk : l.isKeyword k) : Takes l (.text k :: rest) .keyword 1
  | delimiter {d : Bytes} {rest : List Token} (hw : numberWidth (.text d :: rest) = 0)
      (hm : l.isObjectName d = false) (hk : l.isKeyword d = false) (hd : l.isDelimiter d) :
      Takes l (.text d :: rest) .delimiter 1

theorem takes_of_taken {l : Language} {ts : List Token} {c : Category} {n : Nat}
    (h : l.taken? ts = some (c, n)) : l.Takes ts c n := by
  unfold taken? at h
  by_cases hw : numberWidth ts = 0
  · rw [if_neg (by simpa using hw)] at h
    by_cases hm : textAt l.isObjectName ts 0
    · rw [if_pos hm] at h
      obtain ⟨m, rest, rfl, hm⟩ := exists_of_textAt_zero hm
      cases h
      exact .chain hw hm
    · rw [if_neg hm] at h
      by_cases hk : textAt l.isKeyword ts 0
      · rw [if_pos hk] at h
        obtain ⟨k, rest, rfl, hk⟩ := exists_of_textAt_zero hk
        cases h
        exact .keyword hw (by simpa using hm) hk
      · rw [if_neg hk] at h
        by_cases hd : textAt l.isDelimiter ts 0
        · rw [if_pos hd] at h
          obtain ⟨d, rest, rfl, hd⟩ := exists_of_textAt_zero hd
          cases h
          exact .delimiter hw (by simpa using hm) (by simpa using hk) hd
        · simp [hd] at h
  · rw [if_pos hw] at h
    cases h
    exact .number hw

/-- A value takes at least one token. -/
theorem Takes.pos {l : Language} {ts : List Token} {c : Category} {n : Nat}
    (h : l.Takes ts c n) : 0 < n := by
  cases h with
  | number hw => omega
  | chain hw hm => omega
  | keyword hw hm hk => omega
  | delimiter hw hm hk hd => omega

/-- Where none of the four cases applies. -/
theorem taken?_eq_none {l : Language} {t : Token} {rest : List Token}
    (h : l.taken? (t :: rest) = none) :
    numberWidth (t :: rest) = 0 ∧ ¬t.isText l.isObjectName ∧ ¬t.isText l.isKeyword ∧
      ¬t.isText l.isDelimiter := by
  have hw : numberWidth (t :: rest) = 0 := by
    by_contra hw
    simp [taken?, hw] at h
  simp only [taken?, hw, textAt_cons_zero] at h
  have hm : ¬t.isText l.isObjectName := by
    intro hm
    simp [hm] at h
  have hk : ¬t.isText l.isKeyword := by
    intro hk
    simp [hm, hk] at h
  have hd : ¬t.isText l.isDelimiter := by
    intro hd
    simp [hm, hk, hd] at h
  exact ⟨hw, hm, hk, hd⟩

end Language

/-- The single pass over a list of tokens. -/
def Registry.passOnce (r : Registry) (l : Language) : List Token → List Token × Registry
  | [] => ([], r)
  | t :: rest =>
    match l.taken? (t :: rest) with
    | some (c, n) =>
      let added := r.add c (textOf ((t :: rest).take n))
      let later := added.2.passOnce l (rest.drop (n - 1))
      (.key added.1 :: later.1, later.2)
    | none =>
      let later := r.passOnce l rest
      (t :: later.1, later.2)
termination_by ts => ts.length
decreasing_by all_goals simp only [List.length_cons, List.length_drop]; omega

/-! ### Numbers -/

theorem digitsOf_of_textAt {ts : List Token} (h : textAt isDigitRun ts 0 = false) :
    digitsOf ts = ([], ts) := by
  rcases digitsOf_cases ts with hd | ⟨d, rest, hd, rfl, -⟩
  · exact hd
  · simp [hd] at h

theorem digitsOf_text {e : Bytes} (he : isDigitRun e) (rest : List Token) :
    digitsOf (.text e :: rest) = (e, rest) :=
  if_pos he

theorem fractionOf_of_textAt {ts : List Token} (h : textAt (· == point) ts 0 = false) :
    fractionOf ts = ([], ts) := by
  rcases fractionOf_cases ts with hf | ⟨rest, rfl, -⟩
  · exact hf
  · simp at h

theorem ne_nil_of_isDigitRun {d : Bytes} (h : isDigitRun d) : d ≠ [] := by
  rintro rfl
  simp [isDigitRun] at h

theorem not_isDigitRun_point : isDigitRun point = false := by decide

/-- The four forms of a number at the head of a list of tokens. -/
theorem numberWidth_cases {ts : List Token} (h : numberWidth ts ≠ 0) :
    (∃ d e rest, isDigitRun d ∧ isDigitRun e ∧ ts = .text d :: .text point :: .text e :: rest ∧
      numberWidth ts = 3) ∨
    (∃ d rest, isDigitRun d ∧ textAt isDigitRun rest 0 = false ∧
      ts = .text d :: .text point :: rest ∧ numberWidth ts = 2) ∨
    (∃ d rest, isDigitRun d ∧ textAt (· == point) rest 0 = false ∧ ts = .text d :: rest ∧
      numberWidth ts = 1) ∨
    ∃ e rest, isDigitRun e ∧ ts = .text point :: .text e :: rest ∧ numberWidth ts = 2 := by
  by_cases hdigits : textAt isDigitRun ts 0
  · obtain ⟨d, rest, rfl, hd⟩ := exists_of_textAt_zero hdigits
    by_cases hp : textAt (· == point) rest 0
    · obtain ⟨p, rest, rfl, heq⟩ := exists_of_textAt_zero hp
      obtain rfl : p = point := by simpa using heq
      by_cases he : textAt isDigitRun rest 0
      · obtain ⟨e, rest, rfl, hrun⟩ := exists_of_textAt_zero he
        exact .inl ⟨d, e, rest, hd, hrun, rfl, by simp [numberWidth, hd, hrun]⟩
      · exact .inr (.inl ⟨d, rest, hd, by simpa using he, rfl, by simp [numberWidth, hd, he]⟩)
    · exact .inr (.inr (.inl ⟨d, rest, hd, by simpa using hp, rfl, by simp [numberWidth, hd, hp]⟩))
  · -- without digits it is a point with digits after it
    have hpe : textAt (· == point) ts 0 ∧ textAt isDigitRun ts 1 := by
      by_contra hno
      simp [numberWidth, hdigits] at h
      exact hno h
    obtain ⟨p, rest, rfl, heq⟩ := exists_of_textAt_zero hpe.1
    obtain rfl : p = point := by simpa using heq
    obtain ⟨e, rest, rfl, he⟩ := exists_of_textAt_zero (by simpa using hpe.2)
    exact .inr (.inr (.inr ⟨e, rest, he, rfl, by simp [numberWidth, he, not_isDigitRun_point]⟩))

/-- The first pass takes a number from the head of its tokens. -/
theorem nameNumbers_of_numberWidth {ts : List Token} (h : numberWidth ts ≠ 0) :
    nameNumbers ts = .named .primitive (textOf (ts.take (numberWidth ts))) ::
      nameNumbers (ts.drop (numberWidth ts)) := by
  rcases numberWidth_cases h with ⟨d, e, rest, hd, he, rfl, hw⟩ | ⟨d, rest, hd, he, rfl, hw⟩ |
    ⟨d, rest, hd, hp, rfl, hw⟩ | ⟨e, rest, he, rfl, hw⟩
  · rw [nameNumbers, if_pos hd, hw]
    simp [fractionOf, digitsOf_text he]
  · rw [nameNumbers, if_pos hd, hw]
    simp [fractionOf, digitsOf_of_textAt he]
  · rw [nameNumbers, if_pos hd, hw]
    simp [fractionOf_of_textAt hp]
  · have hne : (digitsOf (.text e :: rest)).1 ≠ [] := by
      rw [digitsOf_text he]
      exact ne_nil_of_isDigitRun he
    rw [nameNumbers, if_neg (by simp [not_isDigitRun_point]), if_pos ⟨rfl, hne⟩,
      digitsOf_text he, hw]
    simp

theorem not_isDigitRun_of_numberWidth {t : Bytes} {rest : List Token}
    (h : numberWidth (.text t :: rest) = 0) : isDigitRun t = false := by
  by_contra hd
  rw [Bool.not_eq_false] at hd
  simp only [numberWidth, textAt_cons_zero, Token.isText_text, hd, if_true] at h
  split at h
  · split at h <;> simp at h
  · simp at h

/-- The first pass leaves any other token. -/
theorem nameNumbers_of_numberWidth_eq_zero {t : Token} {rest : List Token}
    (h : numberWidth (t :: rest) = 0) :
    nameNumbers (t :: rest) = .kept t :: nameNumbers rest := by
  cases t with
  | key k => rw [nameNumbers]
  | text t =>
    have hd : ¬isDigitRun t := by simp [not_isDigitRun_of_numberWidth h]
    have hp : ¬(t = point ∧ (digitsOf rest).1 ≠ []) := by
      rintro ⟨rfl, hne⟩
      refine hne ?_
      have he : textAt isDigitRun rest 0 = false := by
        simpa [numberWidth, not_isDigitRun_point] using h
      rw [digitsOf_of_textAt he]
    rw [nameNumbers, if_neg hd, if_neg hp]

/-! ### Chains of names -/

theorem isDigitRun_of_isObjectName {l : Language} {m : Bytes} (h : l.isObjectName m) :
    isDigitRun m = false := by
  cases m with
  | nil => rfl
  | cons b t =>
    simp only [Language.isObjectName, Bool.and_eq_true] at h
    have hb : Byte.isDigit b = false := by
      have hstart := h.1.1.1
      simp [Byte.isLetter, Byte.isUpper, Byte.isLower, Byte.underscore, Byte.isDigit] at hstart ⊢
      grind
    simp [isDigitRun, hb]

namespace Language

variable {l : Language}

theorem not_isObjectName_point : l.isObjectName point = false := by
  have hdot : (Byte.isLetter Byte.dot || Byte.dot == Byte.underscore) = false := by decide
  simp [isObjectName, point, hdot]

/-- A pair in a chain holds no number. -/
theorem numberWidth_link {d m : Token} (rest : List Token)
    (hd : d.isText fun t => l.isCall t && !isDigitRun t) (hm : m.isText l.isObjectName) :
    numberWidth (d :: m :: rest) = 0 ∧ numberWidth (m :: rest) = 0 := by
  obtain ⟨d, rfl, hcall⟩ := Token.exists_of_isText hd
  obtain ⟨m, rfl, hm⟩ := Token.exists_of_isText hm
  have hdigits : isDigitRun d = false := by
    simp only [Bool.and_eq_true, Bool.not_eq_true'] at hcall
    exact hcall.2
  have hname := isDigitRun_of_isObjectName hm
  have hpoint : m ≠ point := by
    rintro rfl
    simp [not_isObjectName_point] at hm
  constructor
  · simp [numberWidth, hdigits, hname]
  · simp [numberWidth, hpoint, hname]

/-- The first pass leaves the pairs of a chain. -/
theorem nameNumbers_links (l : Language) (ts : List Token) :
    nameNumbers ts = (ts.take (l.linksWidth ts)).map .kept ++
      nameNumbers (ts.drop (l.linksWidth ts)) := by
  fun_induction linksWidth l ts with
  | case1 d m rest h ih =>
    rw [Bool.and_eq_true] at h
    obtain ⟨hd, hm⟩ := numberWidth_link rest h.1 h.2
    rw [nameNumbers_of_numberWidth_eq_zero hd, nameNumbers_of_numberWidth_eq_zero hm, ih]
    simp
  | case2 d m rest h => simp
  | case3 ts h => simp

/-- No pair follows the pairs of a chain. -/
theorem linksWidth_drop (l : Language) (ts : List Token) :
    l.linksWidth (ts.drop (l.linksWidth ts)) = 0 := by
  fun_induction linksWidth l ts with
  | case1 d m rest h ih => simpa using ih
  | case2 d m rest h => simp [linksWidth, h]
  | case3 ts h =>
    rw [List.drop_zero, linksWidth]
    exact h

/-- The second pass takes the pairs of a chain if no pair follows them. -/
theorem callsOf_links {ts after : List Token} (h : l.callsOf after = ([], after)) :
    l.callsOf (ts.take (l.linksWidth ts) ++ after) =
      (textOf (ts.take (l.linksWidth ts)), after) := by
  fun_induction linksWidth l ts with
  | case1 d m rest hpair ih =>
    rw [Bool.and_eq_true] at hpair
    obtain ⟨d, rfl, hd⟩ := Token.exists_of_isText hpair.1
    obtain ⟨m, rfl, hm⟩ := Token.exists_of_isText hpair.2
    rw [Bool.and_eq_true] at hd
    simp [callsOf, hd.1, hm, ih]
  | case2 d m rest hpair => simpa using h
  | case3 ts hts => simpa using h

/-- The second pass finds a pair, or none. -/
theorem callsOf_cases (l : Language) (ts : List Token) :
    l.callsOf ts = ([], ts) ∨
      ∃ d m rest, ts = .text d :: .text m :: rest ∧ l.isCall d ∧ l.isObjectName m := by
  fun_cases callsOf l ts with
  | case1 d m rest h =>
    rw [Bool.and_eq_true] at h
    exact .inr ⟨d, m, rest, rfl, h.1, h.2⟩
  | case2 d m rest h => exact .inl rfl
  | case3 ts h => exact .inl rfl

end Language

/-- A name and the pairs after it form a group. -/
theorem Language.isGroup_links {l : Language} (ts : List Token) {m : Bytes}
    (hm : l.isObjectName m) :
    l.IsGroup .object (m :: (ts.take (l.linksWidth ts)).filterMap Token.text?) := by
  fun_induction linksWidth l ts generalizing m with
  | case1 d m' rest h ih =>
    rw [Bool.and_eq_true] at h
    obtain ⟨d, rfl, hd⟩ := Token.exists_of_isText h.1
    obtain ⟨m', rfl, hm'⟩ := Token.exists_of_isText h.2
    rw [Bool.and_eq_true] at hd
    exact .call hm hd.1 (ih hm')
  | case2 d m' rest h => exact .name hm
  | case3 ts h => exact .name hm

/-- The texts that the single pass joins form a group. -/
theorem Language.Takes.isGroup {l : Language} {ts : List Token} {c : Category} {n : Nat}
    (h : l.Takes ts c n) : l.IsGroup c ((ts.take n).filterMap Token.text?) := by
  cases h with
  | number hw =>
    rcases numberWidth_cases hw with ⟨d, e, rest, hd, he, rfl, hw⟩ | ⟨d, rest, hd, -, rfl, hw⟩ |
      ⟨d, rest, hd, -, rfl, hw⟩ | ⟨e, rest, he, rfl, hw⟩
    · rw [hw]
      exact .decimal hd he
    · rw [hw]
      exact .digitsPoint hd
    · rw [hw]
      exact .digits hd
    · rw [hw]
      exact .fraction he
  | chain hw hm => exact isGroup_links _ hm
  | keyword hw hm hk => exact .keyword hk
  | delimiter hw hm hk hd => exact .delimiter hd

/-- A token that the first pass keeps stood at the head of its tokens. -/
theorem eq_cons_of_nameNumbers {ts : List Token} {t : Token} {xs : List Lexeme}
    (h : nameNumbers ts = .kept t :: xs) :
    ∃ rest, ts = t :: rest ∧ numberWidth ts = 0 ∧ xs = nameNumbers rest := by
  by_cases hw : numberWidth ts = 0
  · cases ts with
    | nil => simp [nameNumbers] at h
    | cons u rest =>
      rw [nameNumbers_of_numberWidth_eq_zero hw] at h
      simp only [List.cons.injEq, Lexeme.kept.injEq] at h
      exact ⟨rest, by rw [h.1], hw, h.2.symm⟩
  · rw [nameNumbers_of_numberWidth hw] at h
    simp at h

/-! ### Naming values of different categories -/

namespace Registry

variable {r : Registry} {l : Language}

/-- Values of different categories can be named in either order. -/
theorem add_add_comm (r : Registry) {c d : Category} (h : c ≠ d) (v w : Bytes) :
    ((r.add c v).2.add d w).2 = ((r.add d w).2.add c v).2 := by
  refine ext_table fun e => ?_
  by_cases hc : c = e
  · subst hc
    rw [table_add_of_ne _ w h.symm, table_add_self, table_add_self, table_add_of_ne _ w h.symm]
  · rw [table_add_of_ne _ v hc]
    by_cases hd : d = e
    · subst hd
      rw [table_add_self, table_add_self, table_add_of_ne _ v hc]
    · rw [table_add_of_ne _ w hd, table_add_of_ne _ w hd, table_add_of_ne _ v hc]

/-- A key does not depend on values of other categories. -/
theorem key_add_add (r : Registry) {c d : Category} (h : c ≠ d) (v w : Bytes) :
    ((r.add c v).2.add d w).1 = (r.add d w).1 := by
  rw [add, table_add_of_ne _ v h]
  rfl

/-- Naming commutes with the naming of a value of another category. -/
theorem add_assign {c : Category} {xs : List Lexeme} (h : ∀ d w, .named d w ∈ xs → c ≠ d)
    (r : Registry) (v : Bytes) :
    (r.add c v).2.assign xs = ((r.assign xs).1, ((r.assign xs).2.add c v).2) ∧
      ((r.assign xs).2.add c v).1 = (r.add c v).1 := by
  induction xs generalizing r with
  | nil => exact ⟨rfl, rfl⟩
  | cons x xs ih =>
    have hxs : ∀ d w, .named d w ∈ xs → c ≠ d := fun d w hd => h d w (List.mem_cons_of_mem _ hd)
    cases x with
    | kept t =>
      obtain ⟨htokens, hkey⟩ := ih hxs r
      rw [assign_kept, assign_kept, htokens]
      exact ⟨rfl, hkey⟩
    | named d w =>
      have hd : c ≠ d := h d w List.mem_cons_self
      obtain ⟨htokens, hkey⟩ := ih hxs (r.add d w).2
      rw [assign_named, assign_named, key_add_add r hd, add_add_comm r hd, htokens]
      exact ⟨rfl, hkey.trans (key_add_add r hd.symm w v)⟩

/-- A text at the head of what naming leaves was kept. -/
theorem eq_cons_of_assign {xs : List Lexeme} {t : Bytes} {ts : List Token}
    (h : (r.assign xs).1 = .text t :: ts) :
    ∃ rest, xs = .text t :: rest ∧ ts = (r.assign rest).1 := by
  cases xs with
  | nil => simp at h
  | cons x xs =>
    cases x with
    | kept u =>
      rw [assign_kept, List.cons.injEq] at h
      exact ⟨xs, by rw [h.1], h.2.symm⟩
    | named c v => simp at h

end Registry

/-! ### Passes and categories -/

/-- The category of the values that a pass names. -/
def Pass.category : Pass → Category
  | numbers => .primitive
  | objects => .object
  | keywords => .keyword
  | delimiters => .delimiter

namespace Language

variable {l : Language}

theorem category_of_mem_nameTexts {c d : Category} {p : Bytes → Bool} {ts : List Token} {v : Bytes}
    (h : .named d v ∈ nameTexts c p ts) : d = c := by
  induction ts with
  | nil => simp [nameTexts] at h
  | cons t ts ih =>
    cases t with
    | key k => exact ih (by simpa using h)
    | text t =>
      rw [nameTexts_text] at h
      rcases List.mem_cons.mp h with h | h
      · split at h
        · exact (Lexeme.named.inj h).1
        · simp at h
      · exact ih h

theorem category_of_mem_nameNumbers {d : Category} {ts : List Token} {v : Bytes}
    (h : .named d v ∈ nameNumbers ts) : d = .primitive := by
  fun_induction nameNumbers ts with
  | case1 => simp at h
  | case2 k rest ih => exact ih (by simpa using h)
  | case3 t rest _ _ ih =>
    rcases List.mem_cons.mp h with h | h
    · exact (Lexeme.named.inj h).1
    · exact ih h
  | case4 t rest _ _ _ ih =>
    rcases List.mem_cons.mp h with h | h
    · exact (Lexeme.named.inj h).1
    · exact ih h
  | case5 t rest _ _ ih => exact ih (by simpa using h)

theorem category_of_mem_nameObjects {d : Category} {ts : List Token} {v : Bytes}
    (h : .named d v ∈ l.nameObjects ts) : d = .object := by
  fun_induction nameObjects l ts with
  | case1 => simp at h
  | case2 k rest ih => exact ih (by simpa using h)
  | case3 t rest _ _ ih =>
    rcases List.mem_cons.mp h with h | h
    · exact (Lexeme.named.inj h).1
    · exact ih h
  | case4 t rest _ ih => exact ih (by simpa using h)

end Language

namespace Pass

variable {l : Language} {p : Pass}

/-- A pass names values of its own category. -/
theorem category_of_mem {ts : List Token} {d : Category} {v : Bytes}
    (h : .named d v ∈ p.lexemes l ts) : d = p.category := by
  cases p with
  | numbers => exact Language.category_of_mem_nameNumbers h
  | objects => exact Language.category_of_mem_nameObjects h
  | keywords => exact Language.category_of_mem_nameTexts h
  | delimiters => exact Language.category_of_mem_nameTexts h

/-- Every pass leaves keys. -/
theorem lexemes_key (l : Language) (p : Pass) (k : Key) (ts : List Token) :
    p.lexemes l (.key k :: ts) = .kept (.key k) :: p.lexemes l ts := by
  cases p with
  | numbers => show nameNumbers _ = _; rw [nameNumbers]; rfl
  | objects => show l.nameObjects _ = _; rw [Language.nameObjects]; rfl
  | keywords => rfl
  | delimiters => rfl

/-- `p.Leaves l t` says that the pass `p` leaves the token `t`, whatever follows it. -/
def Leaves (p : Pass) (l : Language) (t : Token) : Prop :=
  ∀ ts, p.lexemes l (t :: ts) = .kept t :: p.lexemes l ts

theorem leaves_objects {t : Token} (h : ¬t.isText l.isObjectName) : objects.Leaves l t := by
  intro ts
  cases t with
  | key k => exact lexemes_key l objects k ts
  | text t =>
    rw [Token.isText_text] at h
    show l.nameObjects _ = _
    rw [Language.nameObjects, if_neg h]
    rfl

theorem nameTexts_of_not_isText {c : Category} {p : Bytes → Bool} {t : Token} (h : ¬t.isText p)
    (ts : List Token) :
    Language.nameTexts c p (t :: ts) = .kept t :: Language.nameTexts c p ts := by
  cases t with
  | key k => rfl
  | text t =>
    rw [Token.isText_text] at h
    rw [Language.nameTexts_text, if_neg h]

theorem nameTexts_of_isText {c : Category} {p : Bytes → Bool} {t : Bytes} (h : p t)
    (ts : List Token) :
    Language.nameTexts c p (.text t :: ts) = .named c t :: Language.nameTexts c p ts := by
  rw [Language.nameTexts_text, if_pos h]

theorem leaves_keywords {t : Token} (h : ¬t.isText l.isKeyword) : keywords.Leaves l t :=
  nameTexts_of_not_isText h

theorem leaves_delimiters {t : Token} (h : ¬t.isText l.isDelimiter) : delimiters.Leaves l t :=
  nameTexts_of_not_isText h

end Pass

/-! ### The head of a list of tokens -/

namespace Registry

variable {r : Registry} {l : Language} {ps : List Pass}

theorem groupAll_append (r : Registry) (l : Language) (ts : List Token) (ps qs : List Pass) :
    r.groupAll l ts (ps ++ qs) =
      (r.groupAll l ts ps).2.groupAll l (r.groupAll l ts ps).1 qs := by
  induction ps generalizing r ts with
  | nil => rfl
  | cons p ps ih => exact ih _ _

/-- Passes leave a key at the head of their tokens. -/
theorem groupAll_key (r : Registry) (l : Language) (k : Key) (ts : List Token) (ps : List Pass) :
    r.groupAll l (.key k :: ts) ps =
      (.key k :: (r.groupAll l ts ps).1, (r.groupAll l ts ps).2) := by
  induction ps generalizing r ts with
  | nil => rfl
  | cons p ps ih =>
    rw [groupAll, group, Pass.lexemes_key, assign_kept]
    exact ih _ _

/-- Passes commute with the naming of a value of another category. -/
theorem add_groupAll {c : Category} (hc : ∀ p ∈ ps, c ≠ p.category) (r : Registry) (v : Bytes)
    (ts : List Token) :
    (r.add c v).2.groupAll l ts ps =
        ((r.groupAll l ts ps).1, ((r.groupAll l ts ps).2.add c v).2) ∧
      ((r.groupAll l ts ps).2.add c v).1 = (r.add c v).1 := by
  induction ps generalizing r ts with
  | nil => exact ⟨rfl, rfl⟩
  | cons p ps ih =>
    obtain ⟨hp, hps⟩ := List.forall_mem_cons.mp hc
    have hne : ∀ d w, .named d w ∈ p.lexemes l ts → c ≠ d := by
      intro d w hd
      rw [Pass.category_of_mem hd]
      exact hp
    obtain ⟨htokens, hkey⟩ := add_assign hne r v
    obtain ⟨htokens', hkey'⟩ := ih hps (r.group l p ts).2 (r.group l p ts).1
    refine ⟨?_, hkey'.trans hkey⟩
    rw [groupAll, group, htokens]
    exact htokens'

/-- A token that the first pass does not start a number with, and that the others leave. -/
theorem groupAll_leave {t : Token} {ts : List Token} (ht : numberWidth (t :: ts) = 0)
    (hps : ∀ p ∈ ps, p.Leaves l t) (r : Registry) :
    r.groupAll l (t :: ts) (.numbers :: ps) =
      (t :: (r.groupAll l ts (.numbers :: ps)).1, (r.groupAll l ts (.numbers :: ps)).2) := by
  have hothers : ∀ (s : Registry) (us : List Token), s.groupAll l (t :: us) ps =
      (t :: (s.groupAll l us ps).1, (s.groupAll l us ps).2) := by
    induction ps with
    | nil => intro s us; rfl
    | cons p ps ih =>
      intro s us
      obtain ⟨hp, hps⟩ := List.forall_mem_cons.mp hps
      rw [groupAll, group, hp us, assign_kept]
      exact ih hps _ _
  have hfirst : r.group l .numbers (t :: ts) =
      (t :: (r.group l .numbers ts).1, (r.group l .numbers ts).2) := by
    show r.assign (nameNumbers (t :: ts)) = _
    rw [nameNumbers_of_numberWidth_eq_zero ht, assign_kept]
    rfl
  rw [groupAll, hfirst]
  exact hothers _ _

/-- **What all passes make of tokens `g` that stand at the head**, if the passes before `p` leave
them, and `p` names them as one value. -/
theorem groupAll_take (ps : List Pass) (p : Pass) (qs : List Pass) {c : Category} {v : Bytes}
    {g ts : List Token}
    (hleave : r.groupAll l (g ++ ts) ps = (g ++ (r.groupAll l ts ps).1, (r.groupAll l ts ps).2))
    (htake : p.lexemes l (g ++ (r.groupAll l ts ps).1) =
      .named c v :: p.lexemes l (r.groupAll l ts ps).1)
    (hc : ∀ q ∈ ps, c ≠ q.category) :
    r.groupAll l (g ++ ts) (ps ++ p :: qs) =
      (.key (r.add c v).1 :: ((r.add c v).2.groupAll l ts (ps ++ p :: qs)).1,
        ((r.add c v).2.groupAll l ts (ps ++ p :: qs)).2) := by
  obtain ⟨htokens, hkey⟩ := add_groupAll (l := l) hc r v ts
  rw [groupAll_append, groupAll_append, hleave, htokens, groupAll, group, htake, assign_named,
    groupAll_key, hkey]
  rfl

/-- After the first pass, no pair follows where none did before. -/
theorem callsOf_group_numbers {ts : List Token} (h : l.linksWidth ts = 0) :
    l.callsOf (r.group l .numbers ts).1 = ([], (r.group l .numbers ts).1) := by
  rcases l.callsOf_cases (r.group l .numbers ts).1 with hnone | ⟨d, m, rest, heq, hd, hm⟩
  · exact hnone
  · exfalso
    -- the pair stood in the tokens of the pass already, and no digits with it
    obtain ⟨xs, hxs, hrest⟩ := eq_cons_of_assign heq
    obtain ⟨us, rfl, hw, rfl⟩ := eq_cons_of_nameNumbers hxs
    obtain ⟨ys, hys, -⟩ := eq_cons_of_assign hrest.symm
    obtain ⟨vs, rfl, -, -⟩ := eq_cons_of_nameNumbers hys
    have hdigits := not_isDigitRun_of_numberWidth hw
    simp [Language.linksWidth, hd, hm, hdigits] at h

/-- A number is taken by the first pass. -/
theorem reassemble_number {ts : List Token} (h : numberWidth ts ≠ 0) (r : Registry) :
    r.reassemble l ts =
      (.key (r.add .primitive (textOf (ts.take (numberWidth ts)))).1 ::
          ((r.add .primitive (textOf (ts.take (numberWidth ts)))).2.reassemble l
            (ts.drop (numberWidth ts))).1,
        ((r.add .primitive (textOf (ts.take (numberWidth ts)))).2.reassemble l
          (ts.drop (numberWidth ts))).2) := by
  have htake : Pass.numbers.lexemes l (ts.take (numberWidth ts) ++ ts.drop (numberWidth ts)) =
      .named .primitive (textOf (ts.take (numberWidth ts))) ::
        Pass.numbers.lexemes l (ts.drop (numberWidth ts)) := by
    rw [List.take_append_drop]
    exact nameNumbers_of_numberWidth h
  have hall := groupAll_take [] .numbers [.objects, .keywords, .delimiters] (r := r) rfl htake
    (by simp)
  rw [List.take_append_drop] at hall
  exact hall

/-- A chain of names is left by the first pass, and taken by the second. -/
theorem reassemble_chain {m : Bytes} {rest : List Token} (hm : l.isObjectName m)
    (hw : numberWidth (.text m :: rest) = 0) (r : Registry) :
    r.reassemble l (.text m :: rest) =
      (.key (r.add .object (m ++ textOf (rest.take (l.linksWidth rest)))).1 ::
          ((r.add .object (m ++ textOf (rest.take (l.linksWidth rest)))).2.reassemble l
            (rest.drop (l.linksWidth rest))).1,
        ((r.add .object (m ++ textOf (rest.take (l.linksWidth rest)))).2.reassemble l
          (rest.drop (l.linksWidth rest))).2) := by
  have hleave : r.group l .numbers
      (.text m :: rest.take (l.linksWidth rest) ++ rest.drop (l.linksWidth rest)) =
        (.text m :: rest.take (l.linksWidth rest) ++
            (r.group l .numbers (rest.drop (l.linksWidth rest))).1,
          (r.group l .numbers (rest.drop (l.linksWidth rest))).2) := by
    rw [List.cons_append, List.take_append_drop]
    show r.assign (nameNumbers (.text m :: rest)) = _
    rw [nameNumbers_of_numberWidth_eq_zero hw, l.nameNumbers_links rest, assign_kept,
      assign_kept_append]
    rfl
  have htake : Pass.objects.lexemes l (.text m :: rest.take (l.linksWidth rest) ++
      (r.group l .numbers (rest.drop (l.linksWidth rest))).1) =
        .named .object (m ++ textOf (rest.take (l.linksWidth rest))) ::
          Pass.objects.lexemes l (r.group l .numbers (rest.drop (l.linksWidth rest))).1 := by
    have hstop := callsOf_group_numbers (r := r) (l.linksWidth_drop rest)
    show l.nameObjects _ = _
    rw [List.cons_append, Language.nameObjects, if_pos hm, Language.callsOf_links hstop]
    rfl
  have hall := groupAll_take [.numbers] .objects [.keywords, .delimiters] hleave htake
    (by simp [Pass.category])
  rw [List.cons_append, List.take_append_drop] at hall
  exact hall

/-- A text that the passes before `p` leave, and that `p` takes by itself. -/
theorem reassemble_text (ps : List Pass) (p : Pass) (qs : List Pass) {c : Category} {t : Bytes}
    {rest : List Token}
    (hall : Pass.all = .numbers :: ps ++ p :: qs) (hw : numberWidth (.text t :: rest) = 0)
    (hps : ∀ q ∈ ps, q.Leaves l (.text t))
    (hp : ∀ ts, p.lexemes l (.text t :: ts) = .named c t :: p.lexemes l ts)
    (hc : ∀ q ∈ Pass.numbers :: ps, c ≠ q.category) (r : Registry) :
    r.reassemble l (.text t :: rest) =
      (.key (r.add c t).1 :: ((r.add c t).2.reassemble l rest).1,
        ((r.add c t).2.reassemble l rest).2) := by
  rw [reassemble, reassemble, hall]
  exact groupAll_take (.numbers :: ps) p qs (g := [.text t]) (groupAll_leave hw hps r) (hp _) hc

/-- **What the four passes make of a value at the head of their tokens.** -/
theorem reassemble_of_takes {ts : List Token} {c : Category} {n : Nat} (h : l.Takes ts c n)
    (r : Registry) :
    r.reassemble l ts =
      (.key (r.add c (textOf (ts.take n))).1 ::
          ((r.add c (textOf (ts.take n))).2.reassemble l (ts.drop n)).1,
        ((r.add c (textOf (ts.take n))).2.reassemble l (ts.drop n)).2) := by
  cases h with
  | number hw => exact reassemble_number hw r
  | chain hw hm => exact reassemble_chain hm hw r
  | @keyword k rest hw hm hk =>
    have hobjects : Pass.objects.Leaves l (.text k) := Pass.leaves_objects (by simpa using hm)
    have hstep := reassemble_text [.objects] .keywords [.delimiters] rfl hw
      (by simpa using hobjects) (Pass.nameTexts_of_isText hk) (by simp [Pass.category]) r
    simpa using hstep
  | @delimiter d rest hw hm hk hd =>
    have hobjects : Pass.objects.Leaves l (.text d) := Pass.leaves_objects (by simpa using hm)
    have hkeywords : Pass.keywords.Leaves l (.text d) := Pass.leaves_keywords (by simpa using hk)
    have hstep := reassemble_text [.objects, .keywords] .delimiters [] rfl hw
      (by simpa using ⟨hobjects, hkeywords⟩) (Pass.nameTexts_of_isText hd)
      (by simp [Pass.category]) r
    simpa using hstep

/-- **What the four passes make of any other token at the head of theirs**: they leave it. -/
theorem reassemble_of_taken_none {t : Token} {rest : List Token}
    (h : l.taken? (t :: rest) = none) (r : Registry) :
    r.reassemble l (t :: rest) = (t :: (r.reassemble l rest).1, (r.reassemble l rest).2) := by
  obtain ⟨hw, hm, hk, hd⟩ := Language.taken?_eq_none h
  refine groupAll_leave hw ?_ r
  intro p hp
  simp only [List.mem_cons, List.not_mem_nil, or_false] at hp
  rcases hp with rfl | rfl | rfl
  · exact Pass.leaves_objects hm
  · exact Pass.leaves_keywords hk
  · exact Pass.leaves_delimiters hd

@[simp] theorem reassemble_nil (r : Registry) (l : Language) : r.reassemble l [] = ([], r) := by
  simp [reassemble, groupAll, group, Pass.all, Pass.lexemes, nameNumbers, Language.nameObjects,
    Language.nameTexts]

/-! ### All passes at once -/

/-- **The four passes are the single pass**: they return the same tokens, and the same registry. -/
theorem reassemble_eq_passOnce (r : Registry) (l : Language) (ts : List Token) :
    r.reassemble l ts = r.passOnce l ts := by
  fun_induction passOnce r l ts with
  | case1 r => exact reassemble_nil r l
  | case2 r t rest c n h added later ih =>
    have htakes := Language.takes_of_taken h
    have hdrop : (t :: rest).drop n = rest.drop (n - 1) := by
      obtain ⟨m, rfl⟩ := Nat.exists_eq_add_one.mpr htakes.pos
      rfl
    rw [reassemble_of_takes htakes, hdrop, ih]
  | case3 r t rest h later ih =>
    rw [reassemble_of_taken_none h, ih]

end Registry
end Lexicon
