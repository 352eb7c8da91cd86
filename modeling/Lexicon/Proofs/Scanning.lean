import Lexicon.Language.Builtin
import Lexicon.Proofs.Factorization
import Mathlib.Data.List.Infix

/-!
# Scanning piece by piece

A text is scanned as runs and delimiters that follow each other.  A run goes on up to the next byte
that is a delimiter by itself, so that a delimiter can stand inside a run only if none of its bytes
is one.  Where a token is sure to end between two bytes that stand next to each other, the texts on
both sides are scanned by themselves; a spacing delimiter of one byte that is part of no other one
makes such a place on both of its sides.

## Main definitions

* `Language.Cuts x y` — a token ends between the bytes `x` and `y`.
* `Language.Alone b` — the byte `b` is a delimiter by itself, and part of no other delimiter.
* `Language.Separates b` — the byte `b` is a spacing delimiter, and part of no other delimiter.

## Main results

* `Language.scan_run`, `Language.scan_longest` — what the first piece of a text adds to its tokens.
* `Language.scan_induction` — induction along the pieces of a text.
* `Language.infix_run_iff` — **the delimiters that can stand inside a run.**
* `Language.scan_append_of_cuts`, `scan_separator` — **texts that are scanned by themselves.**
-/

namespace Lexicon
namespace Language

variable {l : Language}

/-! ### The first piece -/

/-- The tokens of a text that starts with a run and the longest delimiter after it. -/
theorem scan_of_factor {run d rest : Bytes} (hrun : l.IsRun run)
    (hd : (rest = [] ∧ d = []) ∨ l.Longest d (d ++ rest)) (hne : run ++ d ≠ []) :
    l.scan (run ++ d ++ rest) = l.stepTokens ⟨run, d, rest⟩ ++ l.scan rest := by
  have hnil : run ++ d ++ rest ≠ [] := by
    intro h
    exact hne (List.append_eq_nil_iff.mp h).1
  rw [scan, steps_of_ne_nil l hnil, step_of_factor hrun hd, List.flatMap_cons, scan]

/-- A delimiter at the head of a text is a token, unless it is a spacing one. -/
theorem scan_longest {d rest : Bytes} (hd : l.Longest d (d ++ rest)) :
    l.scan (d ++ rest) = (if l.isSpace d then [] else [d]) ++ l.scan rest := by
  have hne : d.isEmpty = false := by simpa using hd.ne_nil
  have hscan : l.scan ([] ++ d ++ rest) = _ :=
    scan_of_factor (by simp [IsRun]) (.inr hd) (by simpa using hd.ne_nil)
  rw [List.nil_append] at hscan
  rw [hscan, stepTokens, hne, Bool.false_or]
  rfl

/-- Every text that starts with a delimiter of one byte starts with a longest delimiter. -/
theorem exists_longest {text : Bytes} (h : l.isDelimiter (text.take 1)) :
    ∃ d rest, text = d ++ rest ∧ l.Longest d (d ++ rest) := by
  have htake := List.take_append_drop (l.matchLength text) text
  refine ⟨_, _, htake.symm, ?_⟩
  rw [htake]
  exact (longest_matchLength h).1

/-- A run is a token. -/
theorem scan_run {t rest : Bytes} (ht : l.IsRun t) (hne : t ≠ [])
    (hrest : rest = [] ∨ l.isDelimiter (rest.take 1)) : l.scan (t ++ rest) = t :: l.scan rest := by
  have hempty : t.isEmpty = false := by simpa using hne
  rcases hrest with rfl | hrest
  · have hscan : l.scan (t ++ [] ++ []) = _ :=
      scan_of_factor ht (.inl ⟨rfl, rfl⟩) (by simpa using hne)
    rw [List.append_nil] at hscan
    rw [hscan, stepTokens, hempty]
    rfl
  · -- the delimiter after the run gives the same tokens behind the run and by itself
    obtain ⟨d, rest', rfl, hd⟩ := exists_longest hrest
    have hscan := scan_of_factor ht (.inr hd) (by simp [hne])
    have hd' : d.isEmpty = false := by simpa using hd.ne_nil
    rw [← List.append_assoc, hscan, scan_longest hd, stepTokens, hempty, hd', Bool.false_or]
    rfl

/-- **Induction along the pieces of a text**: nothing is left, or a run comes first that the end of
the text or a delimiter ends, or a delimiter does. -/
theorem scan_induction {P : Bytes → Prop} (nil : P [])
    (run : ∀ t rest, l.IsRun t → t ≠ [] → (rest = [] ∨ l.isDelimiter (rest.take 1)) → P rest →
      P (t ++ rest))
    (delimiter : ∀ d rest, l.Longest d (d ++ rest) → P rest → P (d ++ rest)) (text : Bytes) :
    P text := by
  induction hn : text.length using Nat.strongRecOn generalizing text with
  | _ n ih =>
    by_cases hnil : text = []
    · rw [hnil]
      exact nil
    · by_cases h : l.isDelimiter (text.take 1)
      · obtain ⟨d, rest, rfl, hd⟩ := exists_longest h
        have hpos := List.length_pos_iff.mpr hd.ne_nil
        rw [List.length_append] at hn
        exact delimiter d rest hd (ih rest.length (by omega) rest rfl)
      · obtain ⟨t, d, rest, rfl, ht, hd, hne⟩ := l.exists_factor hnil
        -- without a run there would be a delimiter at the head
        have htnil : t ≠ [] := by
          rintro rfl
          rcases hd with ⟨-, rfl⟩ | hd
          · exact hne rfl
          · exact h (take_one_of_longest hd)
        have hpos := List.length_pos_iff.mpr htnil
        rw [List.append_assoc] at hn ⊢
        rw [List.length_append] at hn
        refine run t (d ++ rest) ht htnil ?_ (ih (d ++ rest).length (by omega) _ rfl)
        rcases hd with ⟨rfl, rfl⟩ | hd
        · exact .inl rfl
        · exact .inr (take_one_of_longest hd)

/-! ### What a run holds -/

/-- No byte of the run of a step is a delimiter by itself. -/
theorem isRun_step (l : Language) (text : Bytes) : l.IsRun (l.step text).run := by
  by_cases hnil : text = []
  · subst hnil
    simp [step, IsRun]
  · obtain ⟨run, d, rest, rfl, hrun, hd, -⟩ := l.exists_factor hnil
    rw [step_of_factor hrun hd]
    exact hrun

theorem IsRun.of_subset {d t : Bytes} (ht : l.IsRun t) (h : d ⊆ t) : l.IsRun d :=
  fun b hb => ht b (h hb)

/-- A text of which no byte is a delimiter by itself is one run. -/
theorem factors_of_isRun {t : Bytes} (ht : l.IsRun t) (hne : t ≠ []) : l.factors t = [(t, [])] := by
  have h : l.factors (t ++ [] ++ []) = _ :=
    factors_of_factor ht (.inl ⟨rfl, rfl⟩) (by simpa using hne)
  simpa using h

/-- The runs among the pieces of a text are the runs of its steps. -/
theorem isRun_of_mem_pieces {text t : Bytes} (h : .run t ∈ pieces (l.factors text)) :
    l.IsRun t := by
  obtain ⟨f, hf, ht⟩ := List.mem_flatMap.mp h
  obtain rfl : t = f.1 := by simpa using ht
  exact (isFactorization_factors l text).1.run f hf

/-- **A run ends at every byte that is a delimiter by itself, and at no other place.**  A delimiter
stands inside the run of a step, from some position of some text, exactly if none of its bytes is a
delimiter by itself; and inside a run among the tokens of some text exactly then, too. -/
theorem infix_run_iff (l : Language) {d : Bytes} (hd : l.isDelimiter d) :
    ((∃ text pos, d <:+: (l.stepAt text pos).run) ↔ ∀ b ∈ d, l.isDelimiter [b] = false) ∧
      ((∃ text t, .run t ∈ pieces (l.factors text) ∧ d <:+: t) ↔
        ∀ b ∈ d, l.isDelimiter [b] = false) := by
  have hne : d ≠ [] := ne_nil_of_isDelimiter hd
  refine ⟨⟨?_, ?_⟩, ?_, ?_⟩
  · rintro ⟨text, pos, h⟩
    exact (isRun_step l (text.drop pos)).of_subset h.subset
  · intro h
    have hstep : l.step (d ++ [] ++ []) = _ := step_of_factor h (.inl ⟨rfl, rfl⟩)
    rw [List.append_nil, List.append_nil] at hstep
    refine ⟨d, 0, [], [], ?_⟩
    rw [stepAt, List.drop_zero, hstep, List.nil_append, List.append_nil]
  · rintro ⟨text, t, ht, h⟩
    exact (isRun_of_mem_pieces ht).of_subset h.subset
  · intro h
    refine ⟨d, d, ?_, List.infix_rfl⟩
    rw [factors_of_isRun h hne]
    simp [pieces]

/-- No run of a Java text holds `==`. -/
theorem infix_run_iff_equals :
    java.isDelimiter (ascii "==") ∧ ¬∃ text pos, ascii "==" <:+: (java.stepAt text pos).run := by
  have hd : java.isDelimiter (ascii "==") := by decide +kernel
  refine ⟨hd, fun h => ?_⟩
  have hnone := (java.infix_run_iff hd).1.mp h
  revert hnone
  decide +kernel

/-- `||` is a delimiter of Java and `|` is none, so that `a||b` is one run and one token. -/
theorem infix_run_java :
    java.isDelimiter (ascii "||") ∧
      ascii "||" <:+: (java.stepAt (ascii "a||b") 0).run ∧
      java.scan (ascii "a||b") = [ascii "a||b"] := by
  decide +kernel

/-! ### Cuts -/

/-- `l.Cuts x y` says that a token ends between `x` and `y` wherever they stand next to each other:
one of them is a delimiter by itself, and no delimiter holds the two side by side. -/
structure Cuts (l : Language) (x y : UInt8) : Prop where
  isDelimiter : l.isDelimiter [x] ∨ l.isDelimiter [y]
  not_infix : ∀ d, l.isDelimiter d → ¬[x, y] <:+: d

instance (l : Language) (x y : UInt8) : Decidable (l.Cuts x y) :=
  decidable_of_iff ((l.isDelimiter [x] ∨ l.isDelimiter [y]) ∧ ∀ d ∈ l.delimiters, ¬[x, y] <:+: d)
    ⟨fun h => ⟨h.1, fun d hd => h.2 d (List.contains_iff_mem.mp hd)⟩,
      fun h => ⟨h.isDelimiter, fun d hd => h.not_infix d (List.contains_iff_mem.mpr hd)⟩⟩

/-- A delimiter reaches over no cut. -/
theorem Longest.append_of_cuts {d u v : Bytes} (hd : l.Longest d (d ++ u))
    (h : ∀ x ∈ (d ++ u).getLast?, ∀ y ∈ v.head?, l.Cuts x y) :
    l.Longest d (d ++ (u ++ v)) where
  isDelimiter := hd.isDelimiter
  first := hd.first
  head := List.prefix_append _ _
  longest := by
    intro e he hhead
    rw [← List.append_assoc] at hhead
    rcases List.prefix_or_prefix_of_prefix hhead (List.prefix_append (d ++ u) v) with
      hle | ⟨e', rfl⟩
    · exact hd.longest e he hle
    · obtain ⟨w, rfl⟩ := (List.prefix_append_right_inj (d ++ u)).mp hhead
      cases e' with
      | nil => exact hd.longest _ he ⟨[], by rw [List.append_nil, List.append_nil]⟩
      | cons y e' =>
        -- a longer one would hold the last byte before the cut and the first one behind it
        rcases List.eq_nil_or_concat (d ++ u) with hnil | ⟨t, x, hx⟩
        · exact absurd (List.append_eq_nil_iff.mp hnil).1 hd.ne_nil
        · rw [List.concat_eq_append] at hx
          have hcut := h x (by rw [hx, List.getLast?_concat]; rfl) y rfl
          refine absurd ⟨t, e', ?_⟩ (hcut.not_infix _ he)
          rw [hx, List.append_assoc, List.append_assoc]
          rfl

/-- **A text is cut in two** that are scanned by themselves where a token ends between the two
bytes that meet. -/
theorem scan_append_of_cuts {u v : Bytes} (h : ∀ x ∈ u.getLast?, ∀ y ∈ v.head?, l.Cuts x y) :
    l.scan (u ++ v) = l.scan u ++ l.scan v := by
  induction u using l.scan_induction with
  | nil => rw [scan_nil, List.nil_append, List.nil_append]
  | run t rest ht hne hrest ih =>
    have hih := ih fun x hx => h x (List.mem_getLast?_append_of_mem_getLast? hx)
    have hrest' : rest ++ v = [] ∨ l.isDelimiter ((rest ++ v).take 1) := by
      cases rest with
      | cons c rest => exact .inr (hrest.resolve_left (by simp))
      | nil =>
        cases v with
        | nil => exact .inl rfl
        | cons y v =>
          -- the last byte of the run is no delimiter, so that the first one behind it is
          rcases List.eq_nil_or_concat t with hnil | ⟨t, x, rfl⟩
          · exact absurd hnil hne
          · rw [List.concat_eq_append] at ht h
            have hcut := h x (by simp) y rfl
            have hx : l.isDelimiter [x] = false := ht x (by simp)
            refine .inr (hcut.isDelimiter.resolve_left ?_)
            rw [hx]
            exact Bool.false_ne_true
    rw [List.append_assoc, scan_run ht hne hrest', scan_run ht hne hrest, hih]
    rfl
  | delimiter d rest hd ih =>
    have hih := ih fun x hx => h x (List.mem_getLast?_append_of_mem_getLast? hx)
    rw [List.append_assoc, scan_longest (hd.append_of_cuts h), scan_longest hd, hih,
      List.append_assoc]

/-! ### Bytes that are part of one delimiter only -/

/-- `l.Alone b` says that the byte `b` is a delimiter by itself, and part of no other one. -/
structure Alone (l : Language) (b : UInt8) : Prop where
  isDelimiter : l.isDelimiter [b]
  only : ∀ d, l.isDelimiter d → b ∈ d → d = [b]

instance (l : Language) (b : UInt8) : Decidable (l.Alone b) :=
  decidable_of_iff (l.isDelimiter [b] ∧ ∀ d ∈ l.delimiters, b ∈ d → d = [b])
    ⟨fun h => ⟨h.1, fun d hd => h.2 d (List.contains_iff_mem.mp hd)⟩,
      fun h => ⟨h.isDelimiter, fun d hd => h.only d (List.contains_iff_mem.mpr hd)⟩⟩

section Alone

variable {b : UInt8}

/-- No delimiter holds such a byte and a neighbour of it. -/
theorem Alone.not_infix (h : l.Alone b) {x y : UInt8} (hb : b = x ∨ b = y) {d : Bytes}
    (hd : l.isDelimiter d) : ¬[x, y] <:+: d := by
  intro hmem
  have hb : b ∈ d := by
    rcases hb with rfl | rfl
    · exact hmem.subset (by simp)
    · exact hmem.subset (by simp)
  rw [h.only d hd hb] at hmem
  exact absurd hmem.length_le (by simp)

theorem Alone.cuts_left (h : l.Alone b) (x : UInt8) : l.Cuts x b where
  isDelimiter := .inr h.isDelimiter
  not_infix := fun _ hd => h.not_infix (.inr rfl) hd

theorem Alone.cuts_right (h : l.Alone b) (y : UInt8) : l.Cuts b y where
  isDelimiter := .inl h.isDelimiter
  not_infix := fun _ hd => h.not_infix (.inl rfl) hd

/-- Such a byte is a token, unless it is a spacing delimiter. -/
theorem scan_alone (h : l.Alone b) : l.scan [b] = if l.isSpace [b] then [] else [[b]] := by
  have hlong : l.Longest [b] ([b] ++ []) :=
    ⟨h.isDelimiter, h.isDelimiter, List.prefix_append _ _, fun _ _ he => he.length_le⟩
  have hscan : l.scan [b] = _ := scan_longest hlong
  rw [hscan, scan_nil, List.append_nil]

end Alone

/-! ### Separating bytes -/

/-- `l.Separates b` says that the byte `b` is a spacing delimiter, and part of no other one. -/
structure Separates (l : Language) (b : UInt8) : Prop where
  isSpace : l.isSpace [b]
  only : ∀ d, l.isDelimiter d → b ∈ d → d = [b]

instance (l : Language) (b : UInt8) : Decidable (l.Separates b) :=
  decidable_of_iff (l.isSpace [b] ∧ ∀ d ∈ l.delimiters, b ∈ d → d = [b])
    ⟨fun h => ⟨h.1, fun d hd => h.2 d (List.contains_iff_mem.mp hd)⟩,
      fun h => ⟨h.isSpace, fun d hd => h.only d (List.contains_iff_mem.mpr hd)⟩⟩

variable {b : UInt8}

theorem Separates.alone (h : l.Separates b) : l.Alone b where
  isDelimiter := isDelimiter_of_isSpace h.isSpace
  only := h.only

/-- What starts `t` and `v` starts `t` and `u`, if up to the byte `b` that holds without `t`. -/
theorem prefix_append_of_forall {t u v : Bytes} (hv : ∀ e, b ∉ e → e <+: v → e <+: u) {e : Bytes}
    (hmem : b ∉ e) (h : e <+: t ++ v) : e <+: t ++ u := by
  rcases List.prefix_or_prefix_of_prefix h (List.prefix_append t v) with hle | ⟨e', rfl⟩
  · exact hle.trans (List.prefix_append t u)
  · have htail := hv e' (fun hm => hmem (List.mem_append_right t hm))
      ((List.prefix_append_right_inj t).mp h)
    exact (List.prefix_append_right_inj t).mpr htail

/-- Without the byte `b`, a text that starts `u` and `b` starts `u`. -/
theorem prefix_of_notMem {u v e : Bytes} (hmem : b ∉ e) (h : e <+: u ++ b :: v) : e <+: u := by
  have hnil : ∀ e, b ∉ e → e <+: b :: v → e <+: [] := by
    intro e hmem he
    cases e with
    | nil => exact List.nil_prefix
    | cons c e =>
      obtain rfl : c = b := (List.cons_prefix_cons.mp he).1
      exact absurd List.mem_cons_self hmem
  have hstarts := prefix_append_of_forall hnil hmem h
  rwa [List.append_nil] at hstarts

/-- A delimiter stays the longest one if what follows it changes from a separating byte on. -/
theorem Longest.of_forall_prefix {d u v : Bytes} (h : l.Longest d (d ++ u)) (hb : l.Separates b)
    (hv : ∀ e, b ∉ e → e <+: v → e <+: u) : l.Longest d (d ++ v) where
  isDelimiter := h.isDelimiter
  first := h.first
  head := List.prefix_append _ _
  longest := by
    intro e he hhead
    by_cases hmem : b ∈ e
    · have hpos := List.length_pos_iff.mpr h.ne_nil
      rw [hb.only e he hmem, List.length_singleton]
      omega
    · exact h.longest _ he (prefix_append_of_forall hv hmem hhead)

/-- A separating byte is no token. -/
theorem scan_separating (hb : l.Separates b) : l.scan [b] = [] := by
  rw [scan_alone hb.alone, if_pos hb.isSpace]

/-- **A separating byte cuts a text in two** that are scanned by themselves. -/
theorem scan_separator (hb : l.Separates b) (u v : Bytes) :
    l.scan (u ++ b :: v) = l.scan u ++ l.scan v := by
  have hleft : l.scan (u ++ b :: v) = _ := scan_append_of_cuts fun x _ y hy => by
    obtain rfl : b = y := by simpa using hy
    exact hb.alone.cuts_left x
  have hright : l.scan ([b] ++ v) = _ := scan_append_of_cuts fun x hx y _ => by
    obtain rfl : b = x := by simpa using hx
    exact hb.alone.cuts_right y
  rw [hleft, ← List.singleton_append, hright, scan_separating hb, List.nil_append]

end Language
end Lexicon
