import Lexicon.Log.Logger
import Mathlib.Order.MinMax

/-!
# Loggers in use

A logger answers for most events by comparing their level with the lowest level that it keeps beside
its filter.  Every operation that changes the filter, or puts another one in its place, brings that
level up to date, so that no event is turned away which the filter would have let through.  The sinks are those that
were added since the logger last started anew.

## Main definitions

* `Logger.Operation` — what is done with a logger.
* `Logger.perform g op`, `Logger.run g ops` — the logger after an operation, and after all of them.
* `Logger.emit g e` — the sinks that get an event which the program has for its logger.
* `Logger.UpToDate g` — the lowest level that `g` keeps is that of its filter.
* `Logger.sinceStart ops` — the operations from the last one on that starts anew.

## Main results

* `Filter.le_least_iff`, `Filter.least_le_of_accepts` — **the lowest level of a filter.**
* `Logger.UpToDate.perform`, `Logger.UpToDate.run` — operations keep a logger up to date.
* `Logger.sinks_perform`, `Logger.sinks_run` — **the sinks that operations leave.**
* `Logger.accepts_run` — **a logger passes on what its filter lets through**, to each of its sinks.
-/

namespace Lexicon.Log

/-! ### The order of the levels -/

/-- Levels are ordered by their ranks. -/
instance : LinearOrder Level where
  le_refl a := Int.le_refl a.rank
  le_trans a b c := Int.le_trans (a := a.rank)
  le_antisymm a b h h' := congrArg Level.mk (Int.le_antisymm h h')
  le_total a b := Int.le_total a.rank b.rank
  toDecidableLE := inferInstance
  min_def _ _ := rfl

/-! ### The lowest level of a filter -/

theorem le_foldl_min_iff (ls : List Level) (m l : Level) :
    l ≤ ls.foldl min m ↔ l ≤ m ∧ ∀ l' ∈ ls, l ≤ l' := by
  induction ls generalizing m with
  | nil => simp
  | cons a ls ih => rw [List.foldl_cons, ih, le_min_iff, List.forall_mem_cons, and_assoc]

namespace Filter

variable {f : Filter} {l : Level} {origin : Bytes}

/-- **The lowest level of a filter** is the greatest one that no level of the filter is below. -/
theorem le_least_iff : l ≤ f.least ↔ l ≤ f.general ∧ ∀ e ∈ f.listed, l ≤ e.2 := by
  rw [least, le_foldl_min_iff, List.forall_mem_map]

/-- The threshold of an origin is the general level, or one that is listed. -/
theorem threshold_cases (f : Filter) (origin : Bytes) :
    f.threshold origin = f.general ∨ (origin, f.threshold origin) ∈ f.listed := by
  rw [threshold]
  cases h : f.listed.lookup origin with
  | none => exact .inl rfl
  | some l =>
    obtain ⟨before, after, hlisted, -⟩ := List.lookup_eq_some_iff.mp h
    right
    rw [hlisted]
    exact List.mem_append_right before List.mem_cons_self

theorem least_le_threshold (f : Filter) (origin : Bytes) : f.least ≤ f.threshold origin := by
  obtain ⟨hgeneral, hlisted⟩ := le_least_iff.mp (le_refl f.least)
  rcases f.threshold_cases origin with h | h
  · rw [h]
    exact hgeneral
  · exact hlisted _ h

/-- What a filter lets through is not below its lowest level. -/
theorem least_le_of_accepts (h : f.accepts l origin) : f.least ≤ l := by
  rw [accepts, Bool.and_eq_true] at h
  exact (f.least_le_threshold origin).trans (of_decide_eq_true h.2)

end Filter

/-! ### Operations on a logger -/

namespace Logger

variable {Sink : Type} {g : Logger Sink}

/-- What is done with a logger. -/
inductive Operation (Sink : Type)
  /-- Starts anew with a level, the text of a filter, and the sinks that could be opened. -/
  | init (l : Level) (spec : Bytes) (sinks : List Sink)
  /-- Goes back to the logger at the start. -/
  | reset
  | addSink (s : Sink)
  | setLevel (l : Level)
  | setFilter (spec : Bytes)
  deriving DecidableEq, Repr

/-- The logger after an operation. -/
def perform (g : Logger Sink) : Operation Sink → Logger Sink
  | .init l spec sinks => sinks.foldl addSink (init l spec)
  | .reset => initial
  | .addSink s => g.addSink s
  | .setLevel l => g.setLevel l
  | .setFilter spec => g.setFilter spec

/-- The logger after some operations. -/
def run (g : Logger Sink) (ops : List (Operation Sink)) : Logger Sink := ops.foldl perform g

/-- The sinks that get an event which the program has for its logger.  The program is built with
all events from trace on, and asks the logger about no others. -/
def emit (g : Logger Sink) (e : Event) : List Sink :=
  if Level.trace ≤ e.level then g.receivers e else []

/-- The lowest level that a logger keeps is the one of its filter. -/
def UpToDate (g : Logger Sink) : Prop := g.lowest = g.filter.least

theorem upToDate_initial : (initial : Logger Sink).UpToDate := rfl

/-- Sinks have no part in the levels. -/
theorem UpToDate.addSinks (h : g.UpToDate) (sinks : List Sink) :
    (sinks.foldl addSink g).UpToDate := by
  induction sinks generalizing g with
  | nil => exact h
  | cons s sinks ih => exact ih (g := g.addSink s) h

/-- **An operation keeps a logger up to date.** -/
theorem UpToDate.perform (h : g.UpToDate) (op : Operation Sink) : (g.perform op).UpToDate := by
  cases op with
  | init l spec sinks =>
    have hinit : (init l spec : Logger Sink).UpToDate := rfl
    exact hinit.addSinks sinks
  | reset => exact upToDate_initial
  | addSink s => exact h
  | setLevel l => rfl
  | setFilter spec => rfl

/-- **Operations keep a logger up to date.** -/
theorem UpToDate.run (h : g.UpToDate) (ops : List (Operation Sink)) : (g.run ops).UpToDate := by
  induction ops generalizing g with
  | nil => exact h
  | cons op ops ih => exact ih (h.perform op)

/-! ### The sinks that operations leave -/

/-- The sinks that an operation adds. -/
def Operation.sinks : Operation Sink → List Sink
  | .init _ _ sinks => sinks
  | .addSink s => [s]
  | .reset | .setLevel _ | .setFilter _ => []

/-- Whether an operation drops the sinks that there were. -/
def Operation.startsAnew : Operation Sink → Bool
  | .init _ _ _ | .reset => true
  | .addSink _ | .setLevel _ | .setFilter _ => false

/-- The operations from the last one on that starts anew, or all of them if none does. -/
def sinceStart : List (Operation Sink) → List (Operation Sink)
  | [] => []
  | op :: ops => if ops.any Operation.startsAnew then sinceStart ops else op :: ops

theorem sinceStart_eq_self {ops : List (Operation Sink)} (h : ¬ops.any Operation.startsAnew) :
    sinceStart ops = ops := by
  cases ops with
  | nil => rfl
  | cons op ops =>
    rw [List.any_cons, Bool.or_eq_true, not_or] at h
    rw [sinceStart, if_neg h.2]

theorem sinks_foldl_addSink (g : Logger Sink) (sinks : List Sink) :
    (sinks.foldl addSink g).sinks = g.sinks ++ sinks := by
  induction sinks generalizing g with
  | nil => exact (List.append_nil g.sinks).symm
  | cons s sinks ih => rw [List.foldl_cons, ih, addSink, List.append_assoc, List.singleton_append]

/-- **An operation drops all sinks or none, and adds its own behind them.** -/
theorem sinks_perform (g : Logger Sink) (op : Operation Sink) :
    (g.perform op).sinks = (if op.startsAnew then [] else g.sinks) ++ op.sinks := by
  cases op with
  | init l spec sinks => exact sinks_foldl_addSink (init l spec) sinks
  | reset => rfl
  | addSink s => rfl
  | setLevel l => exact (List.append_nil g.sinks).symm
  | setFilter spec => exact (List.append_nil g.sinks).symm

/-- **Operations leave the sinks that were added since the last start**, each as often as it was
added, in order, and those of before if there was no start. -/
theorem sinks_run (g : Logger Sink) (ops : List (Operation Sink)) :
    (g.run ops).sinks = (if ops.any Operation.startsAnew then [] else g.sinks) ++
      (sinceStart ops).flatMap Operation.sinks := by
  induction ops generalizing g with
  | nil => exact (List.append_nil g.sinks).symm
  | cons op ops ih =>
    have hrun : g.run (op :: ops) = (g.perform op).run ops := rfl
    rw [hrun, ih, sinceStart, List.any_cons]
    by_cases hlater : ops.any Operation.startsAnew
    · -- what this operation adds is dropped by a later one
      rw [if_pos hlater, if_pos hlater, hlater, Bool.or_true, if_pos rfl]
    · rw [if_neg hlater, if_neg hlater, sinceStart_eq_self hlater, sinks_perform,
        List.flatMap_cons, List.append_assoc, Bool.eq_false_of_not_eq_true hlater, Bool.or_false]

/-! ### What is passed on -/

/-- The comparison with the lowest level turns away nothing that the filter lets through. -/
theorem UpToDate.accepts_iff (h : g.UpToDate) (l : Level) (origin : Bytes) :
    g.accepts l origin ↔ g.sinks ≠ [] ∧ g.filter.accepts l origin := by
  have hle : g.filter.accepts l origin → g.lowest ≤ l := by
    intro hf
    rw [h]
    exact Filter.least_le_of_accepts hf
  rw [accepts, Bool.and_eq_true, Bool.and_eq_true, decide_eq_true_iff]
  constructor
  · rintro ⟨⟨-, hsinks⟩, hf⟩
    exact ⟨by simpa using hsinks, hf⟩
  · rintro ⟨hsinks, hf⟩
    exact ⟨⟨hle hf, by simpa using hsinks⟩, hf⟩

/-- A sink gets what the filter lets through. -/
theorem UpToDate.receivers_eq (h : g.UpToDate) (e : Event) :
    g.receivers e = if g.filter.accepts e.level e.origin then g.sinks else [] := by
  unfold receivers
  by_cases hg : g.accepts e.level e.origin
  · have hf := ((h.accepts_iff e.level e.origin).mp hg).2
    rw [if_pos hg, if_pos hf]
  · rw [if_neg hg]
    split
    · next hf =>
      -- the filter is not to blame, so that there is no sink
      by_contra hsinks
      exact hg ((h.accepts_iff e.level e.origin).mpr ⟨Ne.symm hsinks, hf⟩)
    · rfl

/-- **A logger passes on what its filter lets through.**  After any operations the lowest level that
it keeps is the one of its filter, and its sinks are those that were added since it last started
anew, each as often as it was added.  So it accepts an event exactly if it has a sink and its filter
lets the event through.  An event of the program then goes to each of its sinks once, in order, and
otherwise no sink gets it. -/
theorem accepts_run (ops : List (Operation Sink)) :
    (initial.run ops).lowest = (initial.run ops).filter.least ∧
      (initial.run ops).sinks = (sinceStart ops).flatMap Operation.sinks ∧
      ∀ (l : Level) (origin : Bytes),
        ((initial.run ops).accepts l origin ↔
          (initial.run ops).sinks ≠ [] ∧ (initial.run ops).filter.accepts l origin) ∧
        ∀ message, (initial.run ops).emit ⟨l, origin, message⟩ =
          if Level.trace ≤ l ∧ (initial.run ops).filter.accepts l origin then
            (initial.run ops).sinks
          else [] := by
  have h : (initial.run ops : Logger Sink).UpToDate := upToDate_initial.run ops
  have hsinks : (initial.run ops : Logger Sink).sinks = (sinceStart ops).flatMap Operation.sinks := by
    rw [sinks_run]
    exact congrArg (· ++ _) (ite_self [])
  refine ⟨h, hsinks, fun l origin => ⟨h.accepts_iff l origin, fun message => ?_⟩⟩
  unfold emit
  rw [h.receivers_eq, ite_and]

end Logger

end Lexicon.Log
