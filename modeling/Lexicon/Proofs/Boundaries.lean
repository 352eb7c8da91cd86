import Lexicon.Proofs.Scanning

/-!
# Where steps end

Scanning can be stopped where a step ends, and taken up there again.  What stands behind the cut has
no part in the steps before it, although a delimiter is looked for in all of the text: one that is
the longest in the whole text is also the longest in every part of the text that holds it.  What
stands before the cut has no part in the steps behind it.

## Main definitions

* `Language.boundary l text i` — the position at which the first `i` steps of a text end.

## Main results

* `Language.Longest.of_append` — the longest delimiter at a place stays so where the text is cut
  behind it.
* `Language.boundary_add` — the steps behind a boundary are those of the text behind it.
* `Language.factors_cut`, `Language.stepAt_take` — the steps before a boundary are those of the text
  before it.
* `Language.scan_cut` — **a text can be cut at every boundary.**
-/

namespace Lexicon
namespace Language

variable {l : Language}

/-! ### Boundaries -/

/-- The position at which the first `i` steps of a text end. -/
def boundary (l : Language) (text : Bytes) (i : Nat) : Nat := (l.next text)^[i] 0

@[simp] theorem boundary_zero (l : Language) (text : Bytes) : l.boundary text 0 = 0 := rfl

theorem boundary_le (l : Language) (text : Bytes) (i : Nat) : l.boundary text i ≤ text.length := by
  cases i with
  | zero => exact Nat.zero_le _
  | succ i =>
    rw [boundary, Function.iterate_succ_apply']
    exact Nat.sub_le _ _

/-- The step from a position depends on the text behind the position alone. -/
theorem stepAt_drop (l : Language) (text : Bytes) (n pos : Nat) :
    l.stepAt (text.drop n) pos = l.stepAt text (n + pos) := by
  rw [stepAt, stepAt, List.drop_drop]

theorem step_rest_length_le (l : Language) (text : Bytes) :
    (l.step text).rest.length ≤ text.length := by
  by_cases h : text = []
  · rw [h, step]
  · exact Nat.le_of_lt (l.step_rest_length_lt h)

theorem next_add (l : Language) {text : Bytes} {n : Nat} (h : n ≤ text.length) (pos : Nat) :
    l.next text (n + pos) = n + l.next (text.drop n) pos := by
  have hle := l.step_rest_length_le (text.drop (n + pos))
  rw [List.length_drop] at hle
  rw [next, next, stepAt_drop, List.length_drop, stepAt]
  omega

theorem iterate_next_add (l : Language) {text : Bytes} {n : Nat} (h : n ≤ text.length)
    (pos i : Nat) : (l.next text)^[i] (n + pos) = n + (l.next (text.drop n))^[i] pos := by
  induction i generalizing pos with
  | zero => rfl
  | succ i ih => rw [Function.iterate_succ_apply, Function.iterate_succ_apply, l.next_add h, ih]

/-- **The steps behind a boundary are those of the text behind it.** -/
theorem boundary_add (l : Language) (text : Bytes) (i j : Nat) :
    l.boundary text (i + j) =
      l.boundary text i + l.boundary (text.drop (l.boundary text i)) j := by
  have hadd := l.iterate_next_add (l.boundary_le text i) 0 j
  rw [Nat.add_zero] at hadd
  rw [Nat.add_comm i j, boundary, Function.iterate_add_apply]
  exact hadd

/-! ### Cutting a text -/

/-- **The longest delimiter at a place stays the longest one where the text is cut behind it.** -/
theorem Longest.of_append {d u v : Bytes} (h : l.Longest d (d ++ (u ++ v))) :
    l.Longest d (d ++ u) where
  isDelimiter := h.isDelimiter
  first := h.first
  head := List.prefix_append d u
  longest := by
    intro e he hhead
    apply h.longest e he
    rw [← List.append_assoc]
    exact hhead.trans (List.prefix_append _ v)

/-- The first boundary of a text stands behind its first run and delimiter. -/
theorem boundary_of_factor {run d rest : Bytes} (hrun : l.IsRun run)
    (hd : (rest = [] ∧ d = []) ∨ l.Longest d (d ++ rest)) (i : Nat) :
    l.boundary (run ++ d ++ rest) (i + 1) = (run ++ d).length + l.boundary rest i := by
  have hone : l.boundary (run ++ d ++ rest) 1 = (run ++ d).length := by
    show (run ++ d ++ rest).length - (l.step ((run ++ d ++ rest).drop 0)).rest.length = _
    rw [List.drop_zero, step_of_factor hrun hd, List.length_append, Nat.add_sub_cancel]
  rw [Nat.add_comm i 1, boundary_add, hone, List.drop_left]

/-- **Induction along the steps up to a boundary**: there are none, or a run and the longest
delimiter behind it come first. -/
theorem boundary_induction {P : Bytes → Nat → Prop} (zero : ∀ text, P text 0) (nil : ∀ i, P [] i)
    (step : ∀ run d rest i, l.IsRun run → ((rest = [] ∧ d = []) ∨ l.Longest d (d ++ rest)) →
      run ++ d ≠ [] → P rest i → P (run ++ d ++ rest) (i + 1)) (text : Bytes) (i : Nat) :
    P text i := by
  induction i generalizing text with
  | zero => exact zero text
  | succ i ih =>
    by_cases hnil : text = []
    · rw [hnil]
      exact nil (i + 1)
    · obtain ⟨run, d, rest, rfl, hrun, hd, hne⟩ := l.exists_factor hnil
      exact step run d rest i hrun hd hne (ih rest)

/-- A delimiter is followed by a part of the rest just as by the whole rest. -/
theorem factor_take {d rest : Bytes} (hd : (rest = [] ∧ d = []) ∨ l.Longest d (d ++ rest))
    (n : Nat) : (rest.take n = [] ∧ d = []) ∨ l.Longest d (d ++ rest.take n) := by
  refine hd.imp ?_ ?_
  · rintro ⟨rfl, rfl⟩
    exact ⟨List.take_nil, rfl⟩
  · intro h
    rw [← List.take_append_drop n rest] at h
    exact h.of_append

/-- **The factors of a text are those of its parts before and behind a boundary.** -/
theorem factors_cut (l : Language) (text : Bytes) (i : Nat) :
    l.factors text =
      l.factors (text.take (l.boundary text i)) ++ l.factors (text.drop (l.boundary text i)) := by
  induction text, i using l.boundary_induction with
  | zero text => simp
  | nil i => simp
  | step run d rest i hrun hd hne ih =>
    have hcut := factor_take hd (l.boundary rest i)
    rw [boundary_of_factor hrun hd, List.take_length_add_append, List.drop_length_add_append,
      factors_of_factor hrun hd hne, factors_of_factor hrun hcut hne, List.cons_append, ← ih]

/-- **The steps before a boundary are those of the text before it**, as if nothing stood behind. -/
theorem stepAt_take (l : Language) (text : Bytes) (i : Nat) :
    ∀ j < i,
      l.boundary (text.take (l.boundary text i)) (j + 1) = l.boundary text (j + 1) ∧
      (l.stepAt (text.take (l.boundary text i)) (l.boundary text j)).factor =
        (l.stepAt text (l.boundary text j)).factor := by
  induction text, i using l.boundary_induction with
  | zero text => simp
  | nil i => simp
  | step run d rest i hrun hd hne ih =>
    have hcut := factor_take hd (l.boundary rest i)
    rw [boundary_of_factor hrun hd, List.take_length_add_append]
    intro j hj
    cases j with
    | zero =>
      rw [boundary_of_factor hrun hd, boundary_of_factor hrun hcut]
      refine ⟨rfl, ?_⟩
      rw [boundary_zero, stepAt, stepAt, List.drop_zero, List.drop_zero, step_of_factor hrun hd,
        step_of_factor hrun hcut]
      rfl
    | succ j =>
      obtain ⟨hnext, hfactor⟩ := ih j (Nat.lt_of_succ_lt_succ hj)
      rw [boundary_of_factor hrun hd, boundary_of_factor hrun hcut, hnext,
        boundary_of_factor hrun hd, ← stepAt_drop, ← stepAt_drop, List.drop_left, List.drop_left]
      exact ⟨rfl, hfactor⟩

/-- The tokens of a text are those of its factors. -/
theorem scan_append_of_factors {text u v : Bytes}
    (h : l.factors text = l.factors u ++ l.factors v) : l.scan text = l.scan u ++ l.scan v := by
  rw [scan_eq_filter, scan_eq_filter, scan_eq_filter, h, pieces, List.flatMap_append,
    List.filter_append, List.map_append]
  rfl

/-- **A text can be cut at every boundary.**  The tokens of a text are those of the part before a
boundary and those of the part behind it.  The steps before the boundary find the same runs and
delimiters, and end at the same positions, if the text is cut there; the steps behind it are those
of the text that starts there. -/
theorem scan_cut (l : Language) (text : Bytes) (i : Nat) :
    let p := l.boundary text i
    l.scan text = l.scan (text.take p) ++ l.scan (text.drop p) ∧
      (∀ j < i,
        l.boundary (text.take p) (j + 1) = l.boundary text (j + 1) ∧
        (l.stepAt (text.take p) (l.boundary text j)).factor =
          (l.stepAt text (l.boundary text j)).factor) ∧
      ∀ j,
        l.boundary text (i + j) = p + l.boundary (text.drop p) j ∧
        l.stepAt text (l.boundary text (i + j)) =
          l.stepAt (text.drop p) (l.boundary (text.drop p) j) := by
  intro p
  refine ⟨scan_append_of_factors (l.factors_cut text i), l.stepAt_take text i, ?_⟩
  intro j
  have hadd := l.boundary_add text i j
  refine ⟨hadd, ?_⟩
  rw [hadd, stepAt_drop]

/-- A text that is cut inside a delimiter gives other tokens. -/
example :
    java.boundary (ascii "a==b") 1 = 3 ∧
      java.scan (ascii "a==b") ≠ java.scan (ascii "a=") ++ java.scan (ascii "=b") := by
  decide +kernel

end Language
end Lexicon
