import Lexicon.Step
import Mathlib.Logic.Function.Iterate

/-!
# Factoring a text into runs and delimiters

Scanning cuts a text into runs and delimiters.  A run holds no byte that is a delimiter by itself,
and a delimiter is the longest one at its place.  These conditions leave no choice: from left to
right, the first byte that is a delimiter by itself ends the run, and the longest delimiter there
comes next.

## Main definitions

* `Language.Longest d text` — `d` is the longest delimiter at the head of `text`.
* `Language.Factors text fs` — `fs` is a factorization of `text` into runs and delimiters.
* `Language.factors text` — the runs and delimiters of the steps of `text`.
* `Language.stepAt`, `Language.next` — the step from a position of a text, and where it ends.
* `Language.pieces` — the runs and delimiters of a factorization, one by one.

## Main results

* `Language.longest_matchLength` — **the specification of `Language.matchLength`.**
* `Language.exists_factor`, `Language.step_of_factor` — the first step is the first factor.
* `Language.factors_iff` — **the steps of a text are its only factorization.**
* `Language.iterate_next` — the steps follow each other from the start of the text to its end.
* `Language.scan_factorization` — **the tokens of a text are the runs and delimiters of its
  factorization**, but for the spacing ones.
-/

namespace Lexicon

/-- The run and the delimiter of a step. -/
def Step.factor (s : Step) : Bytes × Bytes := (s.run, s.delimiter)

namespace Language

variable {l : Language}

/-! ### The longest delimiter -/

/-- `l.Longest d text` says that `d` is the longest delimiter at the head of `text`, and that the
first byte of `d` is a delimiter by itself. -/
structure Longest (l : Language) (d text : Bytes) : Prop where
  isDelimiter : l.isDelimiter d
  first : l.isDelimiter (d.take 1)
  head : d <+: text
  longest : ∀ e, l.isDelimiter e → e <+: text → e.length ≤ d.length

theorem Longest.ne_nil {d text : Bytes} (h : l.Longest d text) : d ≠ [] :=
  ne_nil_of_isDelimiter h.isDelimiter

/-- The longest delimiter at a place is unique. -/
theorem Longest.eq {d e text : Bytes} (hd : l.Longest d text) (he : l.Longest e text) : d = e := by
  have h₁ := hd.longest e he.isDelimiter he.head
  have h₂ := he.longest d hd.isDelimiter hd.head
  have hlen : d.length = e.length := by omega
  rw [List.prefix_iff_eq_take.mp hd.head, List.prefix_iff_eq_take.mp he.head, hlen]

theorem le_foldl_max (ns : List Nat) (m : Nat) :
    m ≤ ns.foldl max m ∧ ∀ n ∈ ns, n ≤ ns.foldl max m := by
  induction ns generalizing m with
  | nil => simp
  | cons a ns ih =>
    obtain ⟨hle, hall⟩ := ih (max m a)
    rw [List.foldl_cons]
    refine ⟨by omega, ?_⟩
    intro n hn
    rcases List.mem_cons.mp hn with rfl | hn
    · omega
    · exact hall n hn

/-- No delimiter reaches further than the lookahead. -/
theorem length_le_lookahead {d : Bytes} (h : l.isDelimiter d) : d.length ≤ l.lookahead + 1 := by
  have hmem : d.length ∈ l.delimiters.map (·.length) :=
    List.mem_map_of_mem (List.contains_iff_mem.mp h)
  have hle := (le_foldl_max (l.delimiters.map (·.length)) 0).2 _ hmem
  unfold lookahead
  omega

/-- What `longestFrom` finds: a delimiter that no longer one of at most `n` bytes exceeds, or one
byte. -/
theorem longestFrom_spec (l : Language) (window : Bytes) (n : Nat) :
    0 < l.longestFrom window n ∧
      (l.longestFrom window n = 1 ∨
        l.longestFrom window n ≤ n ∧ l.isDelimiter (window.take (l.longestFrom window n))) ∧
      ∀ k, l.longestFrom window n < k → k ≤ n → l.isDelimiter (window.take k) = false := by
  induction n with
  | zero => exact ⟨Nat.one_pos, .inl rfl, fun k h₁ h₂ => by omega⟩
  | succ n ih =>
    by_cases hn : 0 < n ∧ l.isDelimiter (window.take (n + 1))
    · have heq : l.longestFrom window (n + 1) = n + 1 := by
        rw [longestFrom, if_pos (by simpa using hn)]
      rw [heq]
      exact ⟨by omega, .inr ⟨Nat.le_refl _, hn.2⟩, fun k h₁ h₂ => by omega⟩
    · have heq : l.longestFrom window (n + 1) = l.longestFrom window n := by
        rw [longestFrom, if_neg (by simpa using hn)]
      obtain ⟨hpos, hfound, hnone⟩ := ih
      rw [heq]
      refine ⟨hpos, hfound.imp_right fun hd => ⟨by omega, hd.2⟩, ?_⟩
      intro k h₁ h₂
      rcases Nat.eq_or_lt_of_le h₂ with h₂ | h₂
      · by_contra hd
        rw [Bool.not_eq_false, h₂] at hd
        exact hn ⟨by omega, hd⟩
      · exact hnone k h₁ (by omega)

/-- Without a delimiter of one byte at the head there is no match. -/
theorem matchLength_of_not {text : Bytes} (h : l.isDelimiter (text.take 1) = false) :
    l.matchLength text = 0 := by
  simp [matchLength, h]

/-- **The match at the head of a text is the longest delimiter there.** -/
theorem longest_matchLength {text : Bytes} (h : l.isDelimiter (text.take 1)) :
    l.Longest (text.take (l.matchLength text)) text ∧ l.matchLength text ≤ text.length := by
  rw [matchLength, if_pos h]
  generalize hwindow : text.take (l.lookahead + 1) = window
  have hlen : window.length = min (l.lookahead + 1) text.length := by simp [← hwindow]
  have htake : ∀ k, k ≤ window.length → window.take k = text.take k := by
    intro k hk
    rw [← hwindow, List.take_take]
    congr 1
    omega
  have hpos : 0 < text.length := by
    by_contra hpos
    obtain rfl : text = [] := List.length_eq_zero_iff.mp (by omega)
    have hmem := List.mem_filter.mp (List.contains_iff_mem.mp h)
    simp at hmem
  -- a delimiter at the head of the text is within the window
  have hwithin : ∀ e, l.isDelimiter e → e <+: text →
      e.length ≤ window.length ∧ l.isDelimiter (window.take e.length) := by
    intro e he hhead
    have h₁ := length_le_lookahead he
    have h₂ := hhead.length_le
    have hle : e.length ≤ window.length := by omega
    refine ⟨hle, ?_⟩
    rw [htake _ hle, ← List.prefix_iff_eq_take.mp hhead]
    exact he
  obtain ⟨hmin, hfound, hnone⟩ := l.longestFrom_spec window window.length
  have hm : l.longestFrom window window.length ≤ window.length := by
    rcases hfound with hone | ⟨hle, -⟩
    · omega
    · exact hle
  have hd : l.isDelimiter (text.take (l.longestFrom window window.length)) := by
    rcases hfound with hone | ⟨hle, hd⟩
    · rw [hone]
      exact h
    · rw [← htake _ hle]
      exact hd
  refine ⟨⟨hd, ?_, List.take_prefix _ _, ?_⟩, by omega⟩
  · rw [List.take_take, Nat.min_eq_left hmin]
    exact h
  · intro e he hhead
    obtain ⟨hin, hdelim⟩ := hwithin e he hhead
    by_contra hlong
    rw [List.length_take] at hlong
    rw [hnone e.length (by omega) hin] at hdelim
    simp at hdelim

theorem take_one_of_longest {d text : Bytes} (h : l.Longest d text) :
    l.isDelimiter (text.take 1) := by
  obtain ⟨rest, rfl⟩ := h.head
  cases d with
  | nil => exact absurd rfl h.ne_nil
  | cons b d => exact h.first

/-- The longest delimiter at the head of a text is matched. -/
theorem matchLength_of_longest {d rest : Bytes} (h : l.Longest d (d ++ rest)) :
    l.matchLength (d ++ rest) = d.length := by
  obtain ⟨hlongest, hle⟩ := longest_matchLength (take_one_of_longest h)
  have heq := congrArg List.length (h.eq hlongest)
  rw [List.length_take] at heq
  omega

/-! ### Factorizations -/

/-- The text of a list of runs, each with the delimiter after it. -/
def joined (fs : List (Bytes × Bytes)) : Bytes := fs.flatMap fun f => f.1 ++ f.2

@[simp] theorem joined_nil : joined [] = [] := rfl

/-- No byte of a text is a delimiter by itself. -/
def IsRun (l : Language) (t : Bytes) : Prop := ∀ b ∈ t, l.isDelimiter [b] = false

/-- `l.Factors text fs` says that `fs` are runs and delimiters of `text`: together they are the
text, and every delimiter is the longest one at its place.  The last one may be missing. -/
structure Factors (l : Language) (text : Bytes) (fs : List (Bytes × Bytes)) : Prop where
  joined_eq : joined fs = text
  run : ∀ f ∈ fs, l.IsRun f.1
  delimiter : ∀ before f after, fs = before ++ f :: after →
    (after = [] ∧ f.2 = []) ∨ l.Longest f.2 (f.2 ++ joined after)

theorem factors_empty (l : Language) : l.Factors [] [] where
  joined_eq := rfl
  run := by simp
  delimiter := by simp

/-- The first factor, and the factorization of the text after it. -/
theorem factors_cons_iff {f : Bytes × Bytes} {fs : List (Bytes × Bytes)} {text : Bytes} :
    l.Factors text (f :: fs) ↔
      text = f.1 ++ f.2 ++ joined fs ∧ l.IsRun f.1 ∧
        ((fs = [] ∧ f.2 = []) ∨ l.Longest f.2 (f.2 ++ joined fs)) ∧ l.Factors (joined fs) fs := by
  constructor
  · intro h
    obtain ⟨hf, hfs⟩ := List.forall_mem_cons.mp h.run
    refine ⟨h.joined_eq.symm, hf, h.delimiter [] f fs rfl, rfl, hfs, ?_⟩
    intro before g after heq
    exact h.delimiter (f :: before) g after (by rw [heq]; rfl)
  · rintro ⟨rfl, hrun, hd, hfs⟩
    refine ⟨rfl, List.forall_mem_cons.mpr ⟨hrun, hfs.run⟩, ?_⟩
    intro before g after heq
    cases before with
    | nil =>
      rw [List.nil_append, List.cons.injEq] at heq
      rw [← heq.1, ← heq.2]
      exact hd
    | cons e before =>
      rw [List.cons_append, List.cons.injEq] at heq
      exact hfs.delimiter before g after heq.2

/-! ### The first step -/

theorem step_append {run : Bytes} (h : l.IsRun run) (text : Bytes) :
    l.step (run ++ text) = { l.step text with run := run ++ (l.step text).run } := by
  induction run with
  | nil => rfl
  | cons b run ih =>
    obtain ⟨hb, hrun⟩ := List.forall_mem_cons.mp h
    have hzero : l.matchLength (b :: (run ++ text)) = 0 := matchLength_of_not hb
    rw [List.cons_append, step, hzero, ih hrun]
    rfl

theorem step_of_longest {d rest : Bytes} (h : l.Longest d (d ++ rest)) :
    l.step (d ++ rest) = ⟨[], d, rest⟩ := by
  have hlen := matchLength_of_longest h
  obtain ⟨b, d, rfl⟩ := List.exists_cons_of_ne_nil h.ne_nil
  rw [List.cons_append] at hlen ⊢
  rw [step, hlen]
  simp

/-- **A run and the longest delimiter after it are the first step.** -/
theorem step_of_factor {run d rest : Bytes} (hrun : l.IsRun run)
    (hd : (rest = [] ∧ d = []) ∨ l.Longest d (d ++ rest)) :
    l.step (run ++ d ++ rest) = ⟨run, d, rest⟩ := by
  rw [List.append_assoc, step_append hrun]
  rcases hd with ⟨rfl, rfl⟩ | hd
  · simp [step]
  · rw [step_of_longest hd]
    simp

/-- Every text starts with a run and the longest delimiter after it. -/
theorem exists_factor (l : Language) {text : Bytes} (h : text ≠ []) :
    ∃ run d rest, text = run ++ d ++ rest ∧ l.IsRun run ∧
      ((rest = [] ∧ d = []) ∨ l.Longest d (d ++ rest)) ∧ run ++ d ≠ [] := by
  induction text with
  | nil => exact absurd rfl h
  | cons b text ih =>
    cases hb : l.isDelimiter [b] with
    | true =>
      have hfirst : l.isDelimiter ((b :: text).take 1) := hb
      obtain ⟨hlongest, -⟩ := longest_matchLength hfirst
      have htake := List.take_append_drop (l.matchLength (b :: text)) (b :: text)
      refine ⟨[], _, (b :: text).drop (l.matchLength (b :: text)), htake.symm, by simp [IsRun], ?_,
        hlongest.ne_nil⟩
      right
      rw [htake]
      exact hlongest
    | false =>
      have hone : l.IsRun [b] := by simpa [IsRun] using hb
      by_cases hnil : text = []
      · subst hnil
        exact ⟨[b], [], [], rfl, hone, .inl ⟨rfl, rfl⟩, by simp⟩
      · obtain ⟨run, d, rest, rfl, hrun, hd, -⟩ := ih hnil
        exact ⟨b :: run, d, rest, rfl, List.forall_mem_cons.mpr ⟨hb, hrun⟩, hd, by simp⟩

/-! ### All steps -/

theorem steps_of_ne_nil (l : Language) {text : Bytes} (h : text ≠ []) :
    l.steps text = l.step text :: l.steps (l.step text).rest := by
  rw [steps, dif_neg h]

/-- The factors of a text that its steps give. -/
def factors (l : Language) (text : Bytes) : List (Bytes × Bytes) :=
  (l.steps text).map Step.factor

@[simp] theorem factors_nil (l : Language) : l.factors [] = [] := by
  rw [factors, steps_nil]
  rfl

/-- The factors of a text that starts with a run and the longest delimiter after it. -/
theorem factors_of_factor {run d rest : Bytes} (hrun : l.IsRun run)
    (hd : (rest = [] ∧ d = []) ∨ l.Longest d (d ++ rest)) (hne : run ++ d ≠ []) :
    l.factors (run ++ d ++ rest) = (run, d) :: l.factors rest := by
  have hnil : run ++ d ++ rest ≠ [] := by
    intro h
    exact hne (List.append_eq_nil_iff.mp h).1
  rw [factors, steps_of_ne_nil l hnil, step_of_factor hrun hd]
  rfl

/-- What comes last stays last behind another element. -/
theorem getLast?_cons_eq_some {α : Type} {a b : α} {as : List α}
    (h : as.getLast? = some b) : (a :: as).getLast? = some b := by
  cases as with
  | nil => simp at h
  | cons c as => rw [List.getLast?_cons_cons, h]

theorem isFactorization_factors (l : Language) (text : Bytes) :
    l.Factors text (l.factors text) ∧ (l.factors text).getLast? ≠ some ([], []) := by
  induction hn : text.length using Nat.strongRecOn generalizing text with
  | _ n ih =>
    by_cases hnil : text = []
    · subst hnil
      rw [factors_nil]
      exact ⟨factors_empty l, by simp⟩
    · obtain ⟨run, d, rest, rfl, hrun, hd, hne⟩ := l.exists_factor hnil
      have hlt : rest.length < n := by
        have hpos := List.length_pos_iff.mpr hne
        rw [List.length_append] at hn
        omega
      obtain ⟨hfactors, hlast⟩ := ih _ hlt rest rfl
      have hjoined := hfactors.joined_eq
      rw [factors_of_factor hrun hd hne]
      constructor
      · refine factors_cons_iff.mpr ⟨?_, hrun, ?_, ?_⟩
        · rw [hjoined]
        · rw [hjoined]
          refine hd.imp_left fun h => ⟨?_, h.2⟩
          rw [h.1, factors_nil]
        · rw [hjoined]
          exact hfactors
      · intro h
        cases hfs : l.factors rest with
        | nil =>
          rw [hfs, List.getLast?_singleton, Option.some.injEq, Prod.mk.injEq] at h
          exact hne (by rw [h.1, h.2]; rfl)
        | cons f fs =>
          rw [hfs, List.getLast?_cons_cons, ← hfs] at h
          exact hlast h

/-- **The steps of a text are its only factorization** without an empty factor at the end. -/
theorem factors_iff (l : Language) (text : Bytes) (fs : List (Bytes × Bytes)) :
    l.Factors text fs ∧ fs.getLast? ≠ some ([], []) ↔ fs = l.factors text := by
  constructor
  · rintro ⟨h, hlast⟩
    induction fs generalizing text with
    | nil =>
      rw [← h.joined_eq]
      simp
    | cons f fs ih =>
      obtain ⟨run, d⟩ := f
      obtain ⟨rfl, hrun, hd, hfs⟩ := factors_cons_iff.mp h
      have hne : run ++ d ≠ [] := by
        intro hempty
        obtain ⟨rfl, rfl⟩ := List.append_eq_nil_iff.mp hempty
        rcases hd with ⟨rfl, -⟩ | hd
        · exact hlast rfl
        · exact hd.ne_nil rfl
      have hd' : (joined fs = [] ∧ d = []) ∨ l.Longest d (d ++ joined fs) :=
        hd.imp_left fun h => ⟨by rw [h.1]; rfl, h.2⟩
      have htail := ih (joined fs) hfs fun h => hlast (getLast?_cons_eq_some h)
      rw [factors_of_factor hrun hd' hne, ← htail]
  · rintro rfl
    exact isFactorization_factors l text

/-! ### Positions -/

/-- The step that starts at a position of a text. -/
def stepAt (l : Language) (text : Bytes) (pos : Nat) : Step := l.step (text.drop pos)

/-- The position at which the step from `pos` ends. -/
def next (l : Language) (text : Bytes) (pos : Nat) : Nat :=
  text.length - (l.stepAt text pos).rest.length

/-- What remains after a step starts where the step ends. -/
theorem drop_next (l : Language) {text : Bytes} {pos : Nat} (h : pos < text.length) :
    text.drop (l.next text pos) = (l.stepAt text pos).rest ∧
      pos < l.next text pos ∧ l.next text pos ≤ text.length := by
  have hnil : text.drop pos ≠ [] := by
    rw [Ne, List.drop_eq_nil_iff]
    omega
  obtain ⟨run, d, rest, htext, hrun, hd, hne⟩ := l.exists_factor hnil
  have hrest : (l.stepAt text pos).rest = rest := by
    rw [stepAt, htext, step_of_factor hrun hd]
  have hpos := List.length_pos_iff.mpr hne
  have hlen := congrArg List.length htext
  rw [List.length_drop, List.length_append] at hlen
  have hnext : l.next text pos = pos + (run ++ d).length := by
    rw [next, hrest]
    omega
  refine ⟨?_, by omega, by omega⟩
  rw [hrest, hnext, ← List.drop_drop, htext, List.drop_left]

/-- The steps from a position on: each starts where the one before it ends, and the last one ends
with the text. -/
theorem iterate_next (l : Language) {text : Bytes} {pos : Nat} (h : pos ≤ text.length) :
    (∀ i < (l.factors (text.drop pos)).length,
      (l.next text)^[i] pos < (l.next text)^[i + 1] pos ∧
        (l.factors (text.drop pos))[i]? =
          some (l.stepAt text ((l.next text)^[i] pos)).factor) ∧
      (l.next text)^[(l.factors (text.drop pos)).length] pos = text.length := by
  induction hn : text.length - pos using Nat.strongRecOn generalizing pos with
  | _ n ih =>
    rcases Nat.eq_or_lt_of_le h with rfl | hlt
    · simp
    · obtain ⟨hdrop, hadv, hle⟩ := l.drop_next hlt
      have hnil : text.drop pos ≠ [] := by
        rw [Ne, List.drop_eq_nil_iff]
        omega
      have hcons : l.factors (text.drop pos) =
          (l.stepAt text pos).factor :: l.factors (text.drop (l.next text pos)) := by
        rw [factors, steps_of_ne_nil l hnil, hdrop]
        rfl
      obtain ⟨hsteps, hend⟩ := ih (text.length - l.next text pos) (by omega) hle rfl
      rw [hcons]
      refine ⟨?_, hend⟩
      intro i hi
      cases i with
      | zero => exact ⟨hadv, rfl⟩
      | succ i => exact hsteps i (Nat.lt_of_succ_lt_succ hi)

/-! ### Tokens -/

/-- A run or a delimiter of a text. -/
inductive Piece
  | run (t : Bytes)
  | delimiter (t : Bytes)

/-- The text of a piece. -/
def Piece.text : Piece → Bytes
  | run t => t
  | delimiter t => t

/-- The pieces of a list of factors, in the order of the text. -/
def pieces (fs : List (Bytes × Bytes)) : List Piece :=
  fs.flatMap fun f => [.run f.1, .delimiter f.2]

/-- Whether a piece is a token: it is not empty, and no spacing delimiter. -/
def isToken (l : Language) : Piece → Bool
  | .run t => !t.isEmpty
  | .delimiter t => !t.isEmpty && !l.isSpace t

/-- The pieces of a text make up the text. -/
theorem flatMap_text_pieces (fs : List (Bytes × Bytes)) :
    (pieces fs).flatMap Piece.text = joined fs := by
  rw [pieces, List.flatMap_assoc, joined]
  congr 1
  funext f
  simp [Piece.text]

/-- The tokens of a step are those of its pieces. -/
theorem stepTokens_eq (l : Language) (s : Step) :
    l.stepTokens s = ((pieces [s.factor]).filter l.isToken).map Piece.text := by
  obtain ⟨run, d, rest⟩ := s
  rw [stepTokens]
  cases hrun : run.isEmpty <;> cases hd : d.isEmpty <;> cases hspace : l.isSpace d <;>
    simp [pieces, Step.factor, isToken, Piece.text, hrun, hd, hspace]

/-- The tokens of a text are those of its pieces. -/
theorem scan_eq_filter (l : Language) (text : Bytes) :
    l.scan text = ((pieces (l.factors text)).filter l.isToken).map Piece.text := by
  rw [scan, factors]
  induction l.steps text with
  | nil => rfl
  | cons s steps ih =>
    have hpieces : pieces ((s :: steps).map Step.factor) =
        pieces [s.factor] ++ pieces (steps.map Step.factor) := by
      simp [pieces]
    rw [List.flatMap_cons, ih, stepTokens_eq, hpieces, List.filter_append, List.map_append]

/-- **Scanning computes the only factorization of a text into runs and longest delimiters.**  Each
step starts where the one before it ends, and the last one ends with the text.  The tokens are the
pieces of the factorization that are not empty, and only spacing delimiters are lost. -/
theorem scan_factorization (l : Language) (text : Bytes) :
    ((∀ i < (l.factors text).length,
        (l.next text)^[i] 0 < (l.next text)^[i + 1] 0 ∧
          (l.factors text)[i]? = some (l.stepAt text ((l.next text)^[i] 0)).factor) ∧
      (l.next text)^[(l.factors text).length] 0 = text.length) ∧
    (∀ fs, l.Factors text fs ∧ fs.getLast? ≠ some ([], []) ↔ fs = l.factors text) ∧
    l.scan text = ((pieces (l.factors text)).filter l.isToken).map Piece.text ∧
    (pieces (l.factors text)).flatMap Piece.text = text := by
  refine ⟨l.iterate_next (Nat.zero_le text.length), factors_iff l text, scan_eq_filter l text, ?_⟩
  rw [flatMap_text_pieces, (isFactorization_factors l text).1.joined_eq]

end Language
end Lexicon
