import Lexicon.Proofs.Stripped

/-!
# Stripping loses nothing

Stripped text with all literals and comments kept holds the whole source text up to what is
unterminated at its end: each value is the source of its fragment.  The newline that ends a line
comment stands there twice, as the end of the comment and as the start of the text after it.

## Main definitions

* `Lexeme.unstrip xs` — the source text of stripped text, with each of those newlines once.
* `Fragment.Mode.Leaves m tail` — `tail` is what a reader drops that ends in mode `m`.
* `Registry.unstrip s segments` — the source text of stripped text with its keys.

## Main results

* `Fragment.unstrip_stripped` — the lexemes of fragments hold their sources.
* `Registry.unstrip_strip` — **stripped text with everything kept determines its source text** up to
  an unterminated literal or comment at the end.
-/

namespace Lexicon

/-! ### Ended lines -/

/-- Whether a value is a line comment with the newline at its end. -/
def isEndedLine (c : Category) (v : Bytes) : Bool :=
  c == .comment && lineCommentStart.isPrefixOf v && [Byte.newline].isSuffixOf v

namespace Lexeme

/-- The source text of stripped text.  The newline at the end of a line comment stands again at the
start of the text after it, and is left out there. -/
def unstrip : List Lexeme → Bytes
  | [] => []
  | .kept t :: rest => t.display ++ unstrip rest
  | .named c v :: rest => v ++ if isEndedLine c v then (unstrip rest).drop 1 else unstrip rest

/-- After each line comment that ends in a newline, a text starts with a newline. -/
def NewlineFollows : List Lexeme → Prop
  | [] => True
  | .kept _ :: rest => NewlineFollows rest
  | .named c v :: rest =>
    (isEndedLine c v → ∃ t rest', rest = .text (Byte.newline :: t) :: rest') ∧ NewlineFollows rest

theorem unstrip_named_of_not {c : Category} {v : Bytes} (h : isEndedLine c v = false)
    (rest : List Lexeme) : unstrip (.named c v :: rest) = v ++ unstrip rest := by
  rw [unstrip, h]
  rfl

theorem unstrip_append_text (t : Bytes) (rest : List Lexeme) :
    unstrip (.text t :: rest) = t ++ unstrip rest := rfl

theorem unstrip_joinTexts (xs : List Lexeme) : unstrip (joinTexts xs) = unstrip xs := by
  induction xs with
  | nil => rfl
  | cons x rest ih =>
    cases x with
    | named c v => rw [joinTexts_named, unstrip, unstrip, ih]
    | kept t =>
      cases t with
      | key k => rw [joinTexts_key, unstrip, unstrip, ih]
      | text t =>
        rw [unstrip_append_text, ← ih]
        rcases joinTexts_text t rest with ⟨u, rest', hr, hj⟩ | ⟨-, hj⟩
        · rw [hj, hr, unstrip_append_text, unstrip_append_text, List.append_assoc]
        · rw [hj, unstrip_append_text]

theorem newlineFollows_joinTexts {xs : List Lexeme} (h : NewlineFollows xs) :
    NewlineFollows (joinTexts xs) := by
  induction xs with
  | nil => exact h
  | cons x rest ih =>
    cases x with
    | named c v =>
      refine ⟨fun hv => ?_, ih h.2⟩
      obtain ⟨t, rest', rfl⟩ := h.1 hv
      rcases joinTexts_text (Byte.newline :: t) rest' with ⟨u, rest'', -, hj⟩ | ⟨-, hj⟩
      · exact ⟨t ++ u, rest'', hj⟩
      · exact ⟨t, _, hj⟩
    | kept t =>
      have hrest := ih h
      cases t with
      | key k => exact hrest
      | text t =>
        rcases joinTexts_text t rest with ⟨u, rest', hr, hj⟩ | ⟨-, hj⟩
        · rw [hr] at hrest
          rw [hj]
          exact hrest
        · rw [hj]
          exact hrest

end Lexeme

namespace Fragment

/-- The part of a source text that stripping keeps: what is unterminated is dropped. -/
def keptSource : Fragment → Bytes
  | openLiteral _ _ | openComment _ => []
  | f => f.source

theorem isEndedLine_ended (body : Bytes) :
    isEndedLine .comment (lineCommentStart ++ body ++ [Byte.newline]) = true := by
  rw [isEndedLine, Bool.and_eq_true, Bool.and_eq_true]
  refine ⟨⟨rfl, ?_⟩, ?_⟩
  · rw [List.isPrefixOf_iff_prefix, List.append_assoc]
    exact List.prefix_append _ _
  · rw [List.isSuffixOf_iff_suffix]
    exact List.suffix_append _ _

theorem isEndedLine_open {body : Bytes} (h : Byte.newline ∉ body) :
    isEndedLine .comment (lineCommentStart ++ body) = false := by
  rw [isEndedLine, Bool.and_eq_false_iff]
  right
  rw [Bool.eq_false_iff, Ne, List.isSuffixOf_iff_suffix]
  intro hs
  have hmem := hs.subset (List.mem_singleton_self _)
  rcases List.mem_append.mp hmem with hm | hm
  · revert hm
    decide
  · exact h hm

theorem isEndedLine_block (body : Bytes) :
    isEndedLine .comment (blockCommentStart ++ body ++ blockCommentEnd) = false := rfl

/-- The lexemes of fragments hold the source of all but the unterminated ones. -/
theorem unstrip_stripped {fs : List Fragment}
    (h : ∀ body ended, lineComment body ended ∈ fs → Byte.newline ∉ body) :
    Lexeme.unstrip (fs.flatMap (stripped .all)) = fs.flatMap keptSource ∧
      Lexeme.NewlineFollows (fs.flatMap (stripped .all)) := by
  induction fs with
  | nil => exact ⟨rfl, trivial⟩
  | cons f fs ih =>
    obtain ⟨hu, hn⟩ := ih fun body ended hm => h body ended (List.mem_cons_of_mem _ hm)
    rw [List.flatMap_cons, List.flatMap_cons, ← hu]
    cases f with
    | code t => exact ⟨rfl, hn⟩
    | literal q body =>
      refine ⟨Lexeme.unstrip_named_of_not rfl _, ?_, hn⟩
      intro he
      simp [isEndedLine] at he
    | lineComment body ended =>
      cases ended with
      | false =>
        have hopen := isEndedLine_open (h body false List.mem_cons_self)
        refine ⟨?_, ?_, hn⟩
        · refine (Lexeme.unstrip_named_of_not hopen _).trans ?_
          simp [keptSource, source]
        · intro he
          rw [hopen] at he
          simp at he
      | true =>
        -- the newline at the end of the value is the text after it, too
        refine ⟨?_, ?_, hn⟩
        · show (lineCommentStart ++ body ++ [Byte.newline]) ++ (if isEndedLine _ _ then _ else _) = _
          rw [if_pos (isEndedLine_ended body)]
          rfl
        · intro _
          exact ⟨[], _, rfl⟩
    | blockComment body =>
      refine ⟨Lexeme.unstrip_named_of_not (isEndedLine_block body) _, ?_, hn⟩
      intro he
      rw [isEndedLine_block] at he
      simp at he
    | openLiteral q body => exact ⟨rfl, hn⟩
    | openComment body => exact ⟨rfl, hn⟩

/-- The lexemes of a text hold the source of all but the unterminated fragments. -/
theorem unstrip_split (text : Bytes) :
    Lexeme.unstrip ((split text).flatMap (stripped .all)) = (split text).flatMap keptSource ∧
      Lexeme.NewlineFollows ((split text).flatMap (stripped .all)) :=
  unstrip_stripped fun _ _ h => newline_notMem_of_mem_split h

theorem keptSource_of_mode {f : Fragment} (h : f.mode = .code ∨ f.mode = .lineComment) :
    f.keptSource = f.source := by
  cases f with
  | openLiteral q body => simp [mode] at h
  | openComment body => simp [mode] at h
  | _ => rfl

theorem keptSource_of_open {f : Fragment} (h : f.mode ≠ .code) (h' : f.mode ≠ .lineComment) :
    f.keptSource = [] ∧ ∀ keep, f.stripped keep = [] := by
  cases f with
  | openLiteral q body => exact ⟨rfl, fun _ => rfl⟩
  | openComment body => exact ⟨rfl, fun _ => rfl⟩
  | lineComment body ended => cases ended <;> simp [mode] at h h'
  | _ => exact absurd rfl h

theorem opening_prefix_source {f : Fragment} (h : f.mode ≠ .code) : f.mode.opening <+: f.source := by
  cases f with
  | openLiteral q body => exact ⟨body, rfl⟩
  | openComment body => exact ⟨body, rfl⟩
  | lineComment body ended =>
    cases ended with
    | false => exact ⟨body, by simp [mode, Mode.opening, source]⟩
    | true => exact absurd rfl h
  | _ => exact absurd rfl h

/-- `m.Leaves tail` says that `tail` is what a reader drops that ends in mode `m`: nothing, or a
literal or block comment that was opened and not closed. -/
def Mode.Leaves (m : Mode) (tail : Bytes) : Prop :=
  if m = .code ∨ m = .lineComment then tail = []
  else
    m.opening <+: tail ∧ endMode tail = m ∧
      ∀ (keep : Keep) (r : Registry), r.strip keep tail = ([], r)

/-- **The sources that are kept are all of the text up to what its reader drops.** -/
theorem exists_tail (text : Bytes) :
    ∃ tail, text = (split text).flatMap keptSource ++ tail ∧ (endMode text).Leaves tail := by
  rcases List.eq_nil_or_concat (split text) with h | ⟨init, f, h⟩
  · have htext := flatMap_source_split text
    rw [h] at htext
    refine ⟨[], ?_, ?_⟩
    · rw [h, ← htext]
      rfl
    · rw [endMode, h]
      show Mode.Leaves .code []
      rw [Mode.Leaves, if_pos (.inl rfl)]
  · rw [List.concat_eq_append] at h
    have hinit : init.flatMap keptSource = init.flatMap source :=
      List.flatMap_congr fun g hg => keptSource_of_mode (.inl (mode_of_mem_init h g hg))
    have htext := flatMap_source_split text
    rw [h, List.flatMap_append, List.flatMap_singleton] at htext
    rw [endMode_of_split h, h, List.flatMap_append, List.flatMap_singleton, hinit]
    by_cases hf : f.mode = .code ∨ f.mode = .lineComment
    · refine ⟨[], ?_, ?_⟩
      · rw [keptSource_of_mode hf, List.append_nil, htext]
      · rw [Mode.Leaves, if_pos hf]
    · -- the last fragment is unterminated, and the tail is its source
      obtain ⟨hcode, hline⟩ := not_or.mp hf
      obtain ⟨hkept, hstripped⟩ := keptSource_of_open hcode hline
      have hsplit : split f.source = [] ++ [f] :=
        split_source_of_mem (by rw [h]; simp) hcode
      refine ⟨f.source, ?_, ?_⟩
      · rw [hkept, List.append_nil, htext]
      · rw [Mode.Leaves, if_neg hf]
        refine ⟨opening_prefix_source hcode, endMode_of_split hsplit, ?_⟩
        intro keep r
        rw [Registry.strip, strippedLexemes, hsplit, List.nil_append, List.flatMap_singleton, hstripped]
        rfl

end Fragment

/-! ### Stripped text -/

namespace Registry

variable {r s : Registry}

/-- Whether a key has a line comment with the newline at its end for its value. -/
def isEndedLine (s : Registry) (k : Key) : Bool :=
  Lexicon.isEndedLine k.category (s.restore (.key k))

/-- The source text of stripped text, with the texts of keys as they are in `s`. -/
def unstrip (s : Registry) (segments : List Token) : Bytes :=
  Lexeme.unstrip (segments.map s.lexemeOf)

theorem text?_lexemeOf (s : Registry) (t : Token) : (s.lexemeOf t).text? = t.text? := by
  cases t <;> rfl

/-- A suffix of tokens that starts with the key of an ended line comment goes on with a newline. -/
theorem exists_newline_of_newlineFollows {ts : List Token}
    (h : Lexeme.NewlineFollows (ts.map s.lexemeOf)) {k : Key} {rest : List Token}
    (hk : .key k :: rest <:+ ts) (he : s.isEndedLine k) :
    ∃ t rest', rest = .text (Byte.newline :: t) :: rest' := by
  induction ts with
  | nil => simp at hk
  | cons t ts ih =>
    rcases List.suffix_cons_iff.mp hk with heq | hk
    · obtain ⟨rfl, rfl⟩ := List.cons.inj heq
      obtain ⟨u, rest', hr⟩ := h.1 he
      cases rest with
      | nil => simp at hr
      | cons t' rest =>
        cases t' with
        | key k' => simp [lexemeOf] at hr
        | text t' =>
          obtain ⟨rfl, -⟩ : t' = Byte.newline :: u ∧ _ := by simpa [lexemeOf] using hr
          exact ⟨u, rest, rfl⟩
    · refine ih ?_ hk
      cases t with
      | text t => exact h
      | key k' => exact h.2

/-- **Stripping with everything kept loses nothing**: no text is empty, no two texts touch, a text
that starts with a newline follows each line comment that ends in one, and the segments determine
the source text but for a literal or block comment that is not closed. -/
theorem unstrip_strip {n : Category → Nat} (hr : r.Reached n) (text : Bytes)
    (hn : ∀ c, n c + r.growth (r.strip Keep.all text).2 c < UInt32.size) :
    ∃ segments s, r.strip Keep.all text = (segments, s) ∧
      .text [] ∉ segments ∧
      (segments.IsChain fun x y => x.text? = none ∨ y.text? = none) ∧
      (∀ k rest, .key k :: rest <:+ segments → s.isEndedLine k →
        ∃ t rest', rest = .text (Byte.newline :: t) :: rest') ∧
      ∃ tail, text = s.unstrip segments ++ tail ∧ (endMode text).Leaves tail := by
  have hg := hr.grows (adds_strip r Keep.all text) hn
  have hlexemes := map_lexemeOf_strip hg
  obtain ⟨tail, htext, htail⟩ := Fragment.exists_tail text
  obtain ⟨hsource, hnewline⟩ := Fragment.unstrip_split text
  rcases hstrip : r.strip Keep.all text with ⟨segments, s⟩
  rw [hstrip] at hlexemes
  dsimp only at hlexemes
  refine ⟨segments, s, rfl, ?_, ?_, ?_, tail, ?_, htail⟩
  · intro hmem
    have hx := List.mem_map_of_mem (f := s.lexemeOf) hmem
    rw [hlexemes] at hx
    cases ofSource_strippedLexemes _ _ _ hx with
    | text ht => exact ht rfl
  · have hchain := isChain_strippedLexemes Keep.all text
    rw [← hlexemes, List.isChain_map] at hchain
    simpa only [text?_lexemeOf] using hchain
  · intro k rest hk he
    refine exists_newline_of_newlineFollows ?_ hk he
    rw [hlexemes]
    exact Lexeme.newlineFollows_joinTexts hnewline
  · rw [unstrip, hlexemes, strippedLexemes, Lexeme.unstrip_joinTexts, hsource]
    exact htext

/-- Two comments, one of which is not closed, and a literal. -/
theorem unstrip_strip_openComment :
    ∃ segments s tail,
      empty.strip .all (ascii "f('a'); // b\ng /* c") = (segments, s) ∧
      ascii "f('a'); // b\ng /* c" = s.unstrip segments ++ tail ∧ ascii "/*" <+: tail := by
  have hroom : ∀ c, 0 + empty.growth (empty.strip .all (ascii "f('a'); // b\ng /* c")).2 c <
      UInt32.size := by
    intro c
    cases c <;> decide +kernel
  have hmode : endMode (ascii "f('a'); // b\ng /* c") = .blockComment := by decide +kernel
  obtain ⟨segments, s, hstrip, -, -, -, tail, htext, htail⟩ := unstrip_strip .empty _ hroom
  rw [hmode, Fragment.Mode.Leaves, if_neg (by decide)] at htail
  exact ⟨segments, s, tail, hstrip, htext, htail.1⟩

end Registry

end Lexicon
