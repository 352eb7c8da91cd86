import Lexicon.Proofs.Renaming
import Lexicon.Proofs.Scanning
import Lexicon.Proofs.Seams

/-!
# Values that are mapped again

A value that was named in mapping a text can be mapped by itself.  A literal or comment is read up
to its delimiter again, and a number, a chain of names or a keyword is scanned into the texts that
were joined into it, which are then joined again.  So the value has its key already, and nothing is
named anew.

## Main definitions

* `Language.Regular l` — the point is the only call delimiter of `l`, and no delimiter holds a byte
  of a name; Java is such a language.
* `Language.IsValue l c v` — mapping a text of the language `l` may name `v` as a value of
  category `c`.

## Main results

* `Fragment.encloses_of_mem_split` — a literal or comment of a text ends at its first delimiter.
* `Fragment.strippedLexemes_of_named` — what a literal or comment leaves by itself.
* `Language.IsGroup.scan_flatten`, `Language.IsGroup.takes` — a value is scanned into the texts of
  its group, and these are joined again.
* `Registry.map_of_isValue` — **a value that has a key is mapped to that key.**
-/

namespace Lexicon

/-! ### Literals and comments of a text -/

namespace Fragment

/-- No fragment is both closed by a delimiter and left by the end of the text. -/
theorem ofClosing_ne_of_mem_ofEnd {m n : Mode} {seen body : Bytes} {f : Fragment}
    (hf : f ∈ ofEnd m seen) : ofClosing n body ≠ [f] := by
  intro hclosed
  obtain rfl : m = .code := by
    rw [← mode_of_mem_ofEnd hf]
    exact mode_of_mem_ofClosing (hclosed ▸ List.mem_singleton_self f)
  cases seen with
  | nil => simp [ofEnd] at hf
  | cons b seen =>
    rw [List.mem_singleton.mp hf] at hclosed
    cases n <;> simp [ofClosing] at hclosed

/-- A closed fragment tells its mode and its body. -/
theorem ofClosing_inj {m n : Mode} {seen body : Bytes} {f : Fragment} (hf : f ∈ ofClosing m seen)
    (hclosed : ofClosing n body = [f]) : m = n ∧ seen = body := by
  cases m <;> cases n <;> simp_all [ofClosing]

/-- **A literal or comment ends at the first delimiter that closes it.**  Of what was read already,
nothing closes the current one. -/
theorem encloses_of_mem_splitFrom {m n : Mode} {seen rest body : Bytes} {f : Fragment}
    (hseen : ∀ pos < seen.length, m.canClose (seen.reverse.take pos).reverse →
      m ≠ .code → ¬m.closing <+: (seen.reverse ++ rest).drop pos)
    (hf : f ∈ splitFrom m seen rest) (hn : n ≠ .code) (hclosed : ofClosing n body.reverse = [f]) :
    n.Encloses body := by
  induction m, seen, rest using reader_induction with
  | done m seen =>
    rw [splitFrom_nil] at hf
    exact absurd hclosed (ofClosing_ne_of_mem_ofEnd hf)
  | opens m seen rest hm ih =>
    rw [splitFrom_opening hm] at hf
    rcases List.mem_append.mp hf with hf | hf
    · exact absurd hclosed (ofClosing_ne_of_mem_ofEnd hf)
    · exact ih (by simp) hf
  | closes m seen rest hm hc ih =>
    rw [splitFrom_closing hm hc] at hf
    rcases List.mem_append.mp hf with hf | hf
    · obtain ⟨rfl, rfl⟩ := ofClosing_inj hf hclosed
      rw [List.length_reverse, List.reverse_reverse] at hseen
      refine ⟨fun pos hpos hclose hp => hseen pos hpos hclose hm ?_, hc⟩
      rw [← List.append_assoc, List.drop_append_of_le_length (by simp; omega)]
      exact hp.trans (List.prefix_append _ _)
    · exact ih (by simp) hf
  | reads m seen b rest hcont ih =>
    rw [splitFrom_reading hcont] at hf
    refine ih ?_ hf
    intro pos hpos hclose hm
    rw [List.reverse_cons] at hclose ⊢
    rw [List.append_assoc, List.singleton_append]
    rcases Nat.lt_or_ge pos seen.length with hlt | hge
    · rw [List.take_append_of_le_length (by simp; omega)] at hclose
      exact hseen pos hlt hclose hm
    · -- the byte that was read last
      obtain rfl : pos = seen.length := by simp at hpos; omega
      rw [← List.length_reverse, List.take_left, List.reverse_reverse] at hclose
      rw [← List.length_reverse, List.drop_left]
      exact hcont.2 hm hclose

theorem encloses_of_mem_split {text body : Bytes} {n : Mode} {f : Fragment} (hf : f ∈ split text)
    (hn : n ≠ .code) (hclosed : ofClosing n body.reverse = [f]) : n.Encloses body := by
  rw [split_eq_splitFrom] at hf
  exact encloses_of_mem_splitFrom (by simp) hf hn hclosed

end Fragment

namespace Fragment

/-- A literal or comment leaves by itself what its fragment does. -/
theorem strippedLexemes_source {m : Mode} (hm : m ≠ .code) {body : Bytes} (h : m.Encloses body)
    (keep : Keep) :
    strippedLexemes keep (m.opening ++ body ++ m.closing) =
      Lexeme.joinTexts ((ofClosing m body.reverse).flatMap (stripped keep)) := by
  have hleft : strippedLexemes keep ([] ++ (m.opening ++ (body ++ (m.closing ++ [])))) = _ :=
    strippedLexemes_enclosed hm (by decide) h [] (by simp [Parted])
  simpa [Forward.lexemes] using hleft

/-- If it is kept, it leaves itself, and a line comment the newline that ends it, too. -/
theorem joinTexts_ofClosing_all {m : Mode} (hm : m ≠ .code) (seen : Bytes) :
    let v := m.opening ++ seen.reverse ++ m.closing
    Lexeme.joinTexts ((ofClosing m seen).flatMap (stripped .all)) = [.named m.category v] ∨
      Lexeme.joinTexts ((ofClosing m seen).flatMap (stripped .all)) =
        [.named m.category v, .text [Byte.newline]] := by
  cases m with
  | code => exact absurd rfl hm
  | literal q => exact .inl rfl
  | lineComment => exact .inr rfl
  | blockComment => exact .inl rfl

/-- What is named is a literal or comment that was closed, or a line comment at the end. -/
theorem cases_of_named_mem_stripped {keep : Keep} {f : Fragment} {c : Category} {v : Bytes}
    (h : .named c v ∈ f.stripped keep) :
    (∃ (m : Mode) (body : Bytes), m ≠ .code ∧ ofClosing m body.reverse = [f] ∧ c = m.category ∧
        v = m.opening ++ body ++ m.closing) ∨
      f.mode ≠ .code ∧ c = .comment ∧ v = f.source ∧ f.stripped .all = [.named c v] := by
  cases f with
  | literal q body =>
    refine .inl ⟨.literal q, body, by simp, by simp [ofClosing], ?_⟩
    rw [stripped] at h
    split at h
    · exact Lexeme.named.inj (List.mem_singleton.mp h)
    · simp at h
  | blockComment body =>
    refine .inl ⟨.blockComment, body, by simp, by simp [ofClosing], ?_⟩
    rw [stripped] at h
    split at h
    · exact Lexeme.named.inj (List.mem_singleton.mp h)
    · simp at h
  | lineComment body ended =>
    cases ended with
    | true =>
      refine .inl ⟨.lineComment, body, by simp, by simp [ofClosing], ?_⟩
      obtain ⟨-, rfl, rfl⟩ : keep.comments ∧ c = .comment ∧
          v = lineCommentStart ++ (body ++ [Byte.newline]) := by
        simpa [stripped] using h
      exact ⟨rfl, by simp [Mode.opening, Mode.closing]⟩
    | false =>
      obtain ⟨-, rfl, rfl⟩ : keep.comments ∧ c = .comment ∧ v = lineCommentStart ++ body := by
        simpa [stripped] using h
      exact .inr ⟨by simp [mode], rfl, by simp [source], by simp [stripped]⟩
  | _ => simp [stripped] at h

/-- **A literal or comment that was named leaves itself**, and the newline that ends it. -/
theorem strippedLexemes_of_named {keep : Keep} {text v : Bytes} {c : Category}
    (h : .named c v ∈ strippedLexemes keep text) :
    strippedLexemes .all v = [.named c v] ∨
      strippedLexemes .all v = [.named c v, .text [Byte.newline]] := by
  obtain ⟨f, hf, hv⟩ := List.mem_flatMap.mp (Lexeme.named_mem_of_mem_joinTexts h)
  rcases cases_of_named_mem_stripped hv with
    ⟨m, body, hm, hclosed, rfl, rfl⟩ | ⟨hmode, rfl, rfl, hall⟩
  · rw [strippedLexemes_source hm (encloses_of_mem_split hf hm hclosed)]
    simpa using joinTexts_ofClosing_all hm body.reverse
  · -- the end of the text ends the comment, here and by itself
    left
    rw [strippedLexemes, split_source_of_mem hf hmode, List.flatMap_singleton, hall]
    rfl

end Fragment

/-- A text without quotes, slashes and stars is left as it is. -/
theorem strippedLexemes_of_inert {t : Bytes} (hne : t ≠ []) (ht : ∀ b ∈ t, Inert b) (keep : Keep) :
    strippedLexemes keep t = [.text t] := by
  rw [strippedLexemes_eq]
  induction t with
  | nil => exact absurd rfl hne
  | cons b t ih =>
    obtain ⟨hb, ht⟩ := List.forall_mem_cons.mp ht
    have hcode : ∀ n : Fragment.Mode, n ≠ .code → ¬n.opening <+: b :: t :=
      Fragment.forall_not_opening_iff.mpr ⟨hb.ne_quote, fun h => absurd h hb.ne_slash⟩
    rw [Forward.lexemes_code hcode]
    cases t with
    | nil => simp [Forward.lexemes, Lexeme.joinTexts]
    | cons d t => rw [Lexeme.joinTexts, ih (by simp) ht]; rfl

/-! ### Groups that are scanned again -/

namespace Language

variable {l : Language}

/-- The point is a token and the only call delimiter, no delimiter holds a byte of a name, and no
keyword anything else.  A newline separates tokens and is none. -/
structure Regular (l : Language) : Prop where
  newline : l.Separates Byte.newline
  point_alone : l.Alone Byte.dot
  point_token : l.isSpace point = false
  calls : ∀ d ∈ l.calls, d = point
  delimiters : ∀ d ∈ l.delimiters, ∀ b ∈ d, Byte.isWord b = false
  keywords : ∀ k ∈ l.keywords, ∀ b ∈ k, Byte.isWord b = true ∧ Byte.isDigit b = false

theorem regular_java : java.Regular where
  newline := by decide +kernel
  point_alone := by decide +kernel
  point_token := by decide +kernel
  calls := by decide +kernel
  delimiters := by decide +kernel
  keywords := by decide +kernel

theorem Regular.isRun (hl : l.Regular) {t : Bytes} (ht : ∀ b ∈ t, Byte.isWord b = true) :
    l.IsRun t := by
  intro b hb
  by_contra hd
  rw [Bool.not_eq_false] at hd
  have hword := hl.delimiters [b] (List.contains_iff_mem.mp hd) b (List.mem_singleton_self b)
  rw [ht b hb] at hword
  cases hword

/-- The bytes of names make one token. -/
theorem Regular.scan_word (hl : l.Regular) {t : Bytes} (hne : t ≠ [])
    (ht : ∀ b ∈ t, Byte.isWord b = true) : l.scan t = [t] := by
  have hscan := scan_run (hl.isRun ht) hne (.inl rfl)
  rwa [List.append_nil, scan_nil] at hscan

theorem Regular.scan_point (hl : l.Regular) (rest : Bytes) :
    l.scan (point ++ rest) = point :: l.scan rest := by
  have hcuts : l.scan (point ++ rest) = l.scan point ++ l.scan rest := by
    apply scan_append_of_cuts
    intro x hx y _
    obtain rfl : Byte.dot = x := by simpa [point] using hx
    exact hl.point_alone.cuts_right y
  have hpoint : l.scan point = [point] := by
    rw [point, scan_alone hl.point_alone]
    exact if_neg (by simpa [point] using hl.point_token)
  rw [hcuts, hpoint, List.singleton_append]

/-- A point ends the token before it. -/
theorem Regular.scan_word_point (hl : l.Regular) {t : Bytes} (hne : t ≠ [])
    (ht : ∀ b ∈ t, Byte.isWord b = true) (rest : Bytes) :
    l.scan (t ++ (point ++ rest)) = t :: point :: l.scan rest := by
  have hpoint : l.isDelimiter ((point ++ rest).take 1) := hl.point_alone.isDelimiter
  rw [scan_run (hl.isRun ht) hne (.inr hpoint), hl.scan_point]

theorem Regular.eq_point_of_isCall (hl : l.Regular) {d : Bytes} (hd : l.isCall d) : d = point :=
  hl.calls d (mem_calls_of_isCall hd)

theorem inert_of_isWord {b : UInt8} (h : Byte.isWord b) : Inert b := by
  refine ⟨?_, ?_, ?_, ?_⟩
  all_goals
    rintro rfl
    exact absurd h (by decide)

theorem isWord_of_isDigitRun {d : Bytes} (hd : isDigitRun d) :
    d ≠ [] ∧ ∀ b ∈ d, Byte.isWord b = true := by
  obtain ⟨hne, hall⟩ := isDigitRun_iff.mp hd
  refine ⟨hne, fun b hb => ?_⟩
  rw [Byte.isWord, hall b hb, Bool.or_true, Bool.true_or]

theorem Regular.isWord_of_isKeyword (hl : l.Regular) {k : Bytes} (hk : l.isKeyword k) :
    ∀ b ∈ k, Byte.isWord b = true ∧ Byte.isDigit b = false :=
  hl.keywords k (List.mem_filter.mp (List.contains_iff_mem.mp hk)).1

/-- **A value is scanned into the texts of its group.** -/
theorem IsGroup.scan_flatten (hl : l.Regular) {c : Category} {g : List Bytes} (h : l.IsGroup c g)
    (hc : c ≠ .delimiter) : l.scan g.flatten = g := by
  induction h with
  | digits hd =>
    obtain ⟨hne, hall⟩ := isWord_of_isDigitRun hd
    simpa using hl.scan_word hne hall
  | digitsPoint hd =>
    obtain ⟨hne, hall⟩ := isWord_of_isDigitRun hd
    simpa using hl.scan_word_point hne hall []
  | @decimal d e hd he =>
    obtain ⟨hne, hall⟩ := isWord_of_isDigitRun hd
    obtain ⟨hne', hall'⟩ := isWord_of_isDigitRun he
    simpa [hl.scan_word hne' hall'] using hl.scan_word_point hne hall e
  | @fraction e he =>
    obtain ⟨hne, hall⟩ := isWord_of_isDigitRun he
    simpa [hl.scan_word hne hall] using hl.scan_point e
  | name hm =>
    obtain ⟨hne, hall⟩ := isWord_of_isObjectName hm
    simpa using hl.scan_word hne hall
  | @call m d g hm hd hg ih =>
    obtain ⟨hne, hall⟩ := isWord_of_isObjectName hm
    obtain rfl := hl.eq_point_of_isCall hd
    simpa [ih (by simp)] using hl.scan_word_point hne hall g.flatten
  | keyword hk =>
    have hall := fun b hb => (hl.isWord_of_isKeyword hk b hb).1
    simpa using hl.scan_word (ne_nil_of_isKeyword hk) hall
  | delimiter hd => exact absurd rfl hc

/-- A value holds no delimiter of a literal or comment. -/
theorem IsGroup.inert_of_mem (hl : l.Regular) {c : Category} {g : List Bytes} (h : l.IsGroup c g)
    (hc : c ≠ .delimiter) : ∀ b ∈ g.flatten, Inert b := by
  have hdigits : ∀ {d : Bytes}, isDigitRun d → ∀ b ∈ d, Inert b := fun hd b hb =>
    inert_of_isWord ((isWord_of_isDigitRun hd).2 b hb)
  have hname : ∀ {m : Bytes}, l.isObjectName m → ∀ b ∈ m, Inert b := fun hm b hb =>
    inert_of_isWord ((isWord_of_isObjectName hm).2 b hb)
  have hpoint : ∀ b ∈ point, Inert b := by
    intro b hb
    rw [List.mem_singleton.mp hb]
    exact ⟨by decide, by decide, by decide, by decide⟩
  suffices hg : ∀ t ∈ g, ∀ b ∈ t, Inert b by
    intro b hb
    obtain ⟨t, ht, hb⟩ := List.mem_flatten.mp hb
    exact hg t ht b hb
  induction h with
  | digits hd => simpa using hdigits hd
  | digitsPoint hd => simpa using ⟨hdigits hd, hpoint⟩
  | decimal hd he => simpa using ⟨hdigits hd, hpoint, hdigits he⟩
  | fraction he => simpa using ⟨hpoint, hdigits he⟩
  | name hm => simpa using hname hm
  | call hm hd _ ih =>
    obtain rfl := hl.eq_point_of_isCall hd
    simpa using ⟨hname hm, hpoint, ih (by simp)⟩
  | keyword hk => simpa using fun b hb => inert_of_isWord (hl.isWord_of_isKeyword hk b hb).1
  | delimiter hd => exact absurd rfl hc

/-! ### Groups that are joined again -/

/-- All texts behind the first one of a chain are pairs of a point and a name. -/
theorem IsGroup.linksWidth_eq (hl : l.Regular) {g : List Bytes} (h : l.IsGroup .object g) :
    ∃ m rest, g = m :: rest ∧ l.isObjectName m ∧ l.linksWidth (rest.map .text) = rest.length := by
  generalize hc : Category.object = c at h
  induction h with
  | name hm => exact ⟨_, [], rfl, hm, rfl⟩
  | @call m d g hm hd _ ih =>
    obtain ⟨m', rest, rfl, hm', hwidth⟩ := ih hc
    refine ⟨m, _, rfl, hm, ?_⟩
    have hpair : (l.isCall d && !isDigitRun d && l.isObjectName m') = true := by
      obtain rfl := hl.eq_point_of_isCall hd
      simp [hd, hm', not_isDigitRun_point]
    simp [linksWidth, hpair, hwidth]
  | _ => cases hc

theorem numberWidth_of_isObjectName {m : Bytes} (hm : l.isObjectName m) (rest : List Token) :
    numberWidth (.text m :: rest) = 0 := by
  simp [numberWidth, isDigitRun_of_isObjectName hm, ne_point_of_isObjectName hm]

/-- **The texts of a group are joined again.** -/
theorem IsGroup.takes (hl : l.Regular) {c : Category} {g : List Bytes} (h : l.IsGroup c g)
    (hc : c ≠ .delimiter) : l.Takes (g.map .text) c g.length := by
  have hnumber : ∀ {ts : List Token} {n : Nat}, numberWidth ts = n → n ≠ 0 →
      l.Takes ts .primitive n := by
    rintro ts n rfl hn
    exact .number hn
  match h with
  | .digits hd => exact hnumber (by simp [numberWidth, textAt, hd]) (by simp)
  | .digitsPoint hd => exact hnumber (by simp [numberWidth, textAt, hd]) (by simp)
  | .decimal hd he => exact hnumber (by simp [numberWidth, textAt, hd, he]) (by simp)
  | .fraction he =>
    exact hnumber (by simp [numberWidth, textAt, he, not_isDigitRun_point]) (by simp)
  | .name hm => exact .chain (numberWidth_of_isObjectName hm []) hm
  | .call hm hd hg =>
    obtain ⟨m, rest, heq, hm, hwidth⟩ := (IsGroup.call hm hd hg).linksWidth_eq hl
    rw [heq, List.length_cons, ← hwidth]
    exact .chain (numberWidth_of_isObjectName hm _) hm
  | @IsGroup.keyword _ k hk =>
    have hdigits : isDigitRun k = false := by
      by_contra hd
      rw [Bool.not_eq_false] at hd
      obtain ⟨hne, hall⟩ := isDigitRun_iff.mp hd
      obtain ⟨b, t, rfl⟩ := List.exists_cons_of_ne_nil hne
      have hb := (hl.isWord_of_isKeyword hk b List.mem_cons_self).2
      rw [hall b List.mem_cons_self] at hb
      cases hb
    have hname : l.isObjectName k = false := by
      by_contra hm
      rw [Bool.not_eq_false] at hm
      rw [isKeyword_of_isObjectName hm] at hk
      cases hk
    exact .keyword (by simp [numberWidth, hdigits, textAt]) hname hk
  | .delimiter hd => exact absurd rfl hc

/-! ### Values of a text -/

/-- `l.IsValue c v` says that `v` may be named as a value of category `c` in mapping a text of the
language `l`: in stripping it, or in a pass. -/
inductive IsValue (l : Language) : Category → Bytes → Prop
  | stripped {keep : Keep} {text v : Bytes} {c : Category}
      (h : .named c v ∈ strippedLexemes keep text) : IsValue l c v
  | grouped {c : Category} {g : List Bytes} (h : l.IsGroup c g) : IsValue l c g.flatten

end Language

/-! ### Mapping a value -/

theorem textOf_map_text (g : List Bytes) : textOf (g.map .text) = g.flatten := by
  induction g with
  | nil => rfl
  | cons t g ih => rw [List.map_cons, textOf_text, ih, List.flatten_cons]

namespace Registry

variable {r : Registry} {l : Language} {k : Key} {v : Bytes}

/-- Keys are left by all passes. -/
theorem reassemble_key (r : Registry) (l : Language) (k : Key) :
    r.reassemble l [.key k] = ([.key k], r) := by
  rw [reassemble_of_taken_none rfl, reassemble_nil]

/-- A literal or comment that has a key is mapped to it. -/
theorem map_of_stripped (hl : l.Regular) (hr : r.Sound) (hk : r.get? k = some v)
    (hv : strippedLexemes .all v = [.named k.category v] ∨
      strippedLexemes .all v = [.named k.category v, .text [Byte.newline]]) :
    r.map l .all v = ([.key k], r) := by
  have hscan : r.scan l .all v = ([.key k], r) := by
    rw [scan, strip]
    rcases hv with hv | hv
    · rw [hv, assign_named, add_of_get? hr hk]
      rfl
    · -- the newline behind a comment is no token
      rw [hv, assign_named, add_of_get? hr hk, assign_kept, assign_nil]
      simp [Language.scanTokens, Language.scan_separating hl.newline]
  rw [map, hscan, reassemble_key]

/-- A number, a chain or a keyword that has a key is mapped to it. -/
theorem map_of_group (hl : l.Regular) (hr : r.Sound) {g : List Bytes}
    (hk : r.get? k = some g.flatten) (hg : l.IsGroup k.category g)
    (hc : k.category ≠ .delimiter) :
    r.map l .all g.flatten = ([.key k], r) := by
  have hne : g.flatten ≠ [] := by
    intro hnil
    have hscan := hg.scan_flatten hl hc
    rw [hnil, Language.scan_nil] at hscan
    exact hg.ne_nil hscan.symm
  have hscan : r.scan l .all g.flatten = (g.map .text, r) := by
    rw [scan, strip, strippedLexemes_of_inert hne (hg.inert_of_mem hl hc), assign_kept, assign_nil]
    simp [Language.scanTokens, hg.scan_flatten hl hc]
  have htake : (g.map Token.text).take g.length = g.map .text :=
    List.take_of_length_le (by rw [List.length_map])
  have hdrop : (g.map Token.text).drop g.length = [] :=
    List.drop_of_length_le (by rw [List.length_map])
  rw [map, hscan, reassemble_of_takes (hg.takes hl hc), htake, hdrop, textOf_map_text,
    add_of_get? hr hk, reassemble_nil]

/-- **A value that has a key is mapped to that key**, and the registry stays as it is.  Delimiters
are values of which this need not hold. -/
theorem map_of_isValue (hl : l.Regular) (hr : r.Sound) (hk : r.get? k = some v)
    (hv : l.IsValue k.category v) (hc : k.category ≠ .delimiter) :
    r.map l .all v = ([.key k], r) := by
  generalize hcat : k.category = c at hv
  cases hv with
  | stripped hv => exact map_of_stripped hl hr hk (hcat ▸ Fragment.strippedLexemes_of_named hv)
  | grouped hg => exact map_of_group hl hr hk (hcat ▸ hg) hc

end Registry
end Lexicon
