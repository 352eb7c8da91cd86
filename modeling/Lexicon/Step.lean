import Lexicon.Language
import Lexicon.Token

/-!
# Scanning steps

A text is scanned in steps.  A step is a run of bytes at which no delimiter starts, and the
longest delimiter that follows the run.  A delimiter starts only at a byte that is a delimiter by
itself.  The tokens are the runs, and the delimiters that are not spacing ones.

## Main definitions

* `Language.matchLength` — the length of the longest delimiter at the head of a text.
* `Language.step`, `Language.steps` — the first step of a text, and all of them.
* `Language.scan` — the tokens of a text.
-/

namespace Lexicon

/-- A run, the delimiter after it, and the text that remains.  The delimiter is empty at the end
of the text. -/
structure Step where
  run : Bytes
  delimiter : Bytes
  rest : Bytes
  deriving DecidableEq, Repr

namespace Language

/-- The length of the longest delimiter that starts `window` and has from two to `n` bytes; one if
there is none. -/
def longestFrom (l : Language) (window : Bytes) : Nat → Nat
  | 0 => 1
  | n + 1 => if 0 < n && l.isDelimiter (window.take (n + 1)) then n + 1 else longestFrom l window n

/-- The length of the longest delimiter at the head of a text; zero if its first byte is not a
delimiter by itself. -/
def matchLength (l : Language) (text : Bytes) : Nat :=
  if l.isDelimiter (text.take 1) then
    -- no delimiter reaches beyond the window, so the rest of the text is not looked at
    l.longestFrom (text.take (l.lookahead + 1)) (text.take (l.lookahead + 1)).length
  else 0

/-- The first step of a text. -/
def step (l : Language) : Bytes → Step
  | [] => ⟨[], [], []⟩
  | b :: text =>
    let n := l.matchLength (b :: text)
    if n = 0 then
      let later := l.step text
      { later with run := b :: later.run }
    else ⟨[], (b :: text).take n, (b :: text).drop n⟩

theorem step_rest_length_lt (l : Language) {text : Bytes} (h : text ≠ []) :
    (l.step text).rest.length < text.length := by
  induction text with
  | nil => exact absurd rfl h
  | cons b text ih =>
    simp only [step]
    split
    · cases text with
      | nil => simp [step]
      | cons c text => exact Nat.lt_succ_of_lt (ih (by simp))
    · simp only [List.length_drop, List.length_cons]
      omega

/-- All steps of a text. -/
def steps (l : Language) (text : Bytes) : List Step :=
  if h : text = [] then []
  else
    have := l.step_rest_length_lt h
    l.step text :: l.steps (l.step text).rest
termination_by text.length

@[simp] theorem steps_nil (l : Language) : l.steps [] = [] := by
  rw [steps, dif_pos rfl]

/-- The tokens of a step: its run, and its delimiter if that is not a spacing one. -/
def stepTokens (l : Language) (s : Step) : List Bytes :=
  (if s.run.isEmpty then [] else [s.run]) ++
    if s.delimiter.isEmpty || l.isSpace s.delimiter then [] else [s.delimiter]

/-- The tokens of a text. -/
def scan (l : Language) (text : Bytes) : List Bytes := (l.steps text).flatMap l.stepTokens

@[simp] theorem scan_nil (l : Language) : l.scan [] = [] := by
  rw [scan, steps_nil, List.flatMap_nil]

/-- The tokens of a stripped text.  A key is a token by itself, and no token crosses one. -/
def scanTokens (l : Language) (stripped : List Token) : List Token :=
  stripped.flatMap fun
    | .text t => (l.scan t).map .text
    | .key k => [.key k]

end Language

end Lexicon
