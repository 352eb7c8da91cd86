import Lexicon.Log.Options
import Mathlib.Data.List.Induction

/-!
# What the options for logging come to

Two readers know the options for logging.  One tells them from other arguments, so that a command
can pass over them; the other takes over what they say.  They agree on which arguments these are: an
argument that the first does not know changes nothing for the second.  And what a whole list of
arguments comes to can be told without reading it in order: of the levels, the filters, the files
and the formats the last one counts, and of the flags the largest number.

## Main definitions

* `lastOf? value? l` — the value of the last item of a list that has one.
* `Log.levelOf? arg`, `Log.flagsOf arg` — the level that an argument sets, and its flags.
* `Log.Settings`, `Log.settings args` — what counts of a list of arguments.
* `Log.Settings.options s environment` — the options that the settings come to.

## Main results

* `Log.OptionReader.read_eq` — what is read of one argument.
* `Log.OptionReader.read_of_not_isLogOption` — nothing is read of other arguments.
* `Log.OptionReader.foldl_read` — **what is read of a list of arguments.**
* `Log.Options.parse_logOptions` — **the two readers agree, and only the settings count.**
-/

namespace Lexicon

/-! ### The start of an argument -/

theorem Bytes.after?_eq_some_iff {start t rest : Bytes} :
    Bytes.after? start t = some rest ↔ t = start ++ rest := by
  unfold Bytes.after?
  constructor
  · intro h
    split at h
    · next hprefix =>
      obtain ⟨rest', rfl⟩ := List.isPrefixOf_iff_prefix.mp hprefix
      rw [List.drop_left] at h
      rw [Option.some.inj h]
    · cases h
  · rintro rfl
    rw [if_pos (List.isPrefixOf_iff_prefix.mpr (List.prefix_append _ _)), List.drop_left]

/-! ### The last value -/

section LastOf

variable {α β : Type} (value? : α → Option β) (a : α) (l : List α)

/-- The value of the last item that has one. -/
def lastOf? : Option β := l.reverse.findSome? value?

theorem lastOf?_append (l' : List α) :
    lastOf? value? (l ++ l') = (lastOf? value? l').or (lastOf? value? l) := by
  rw [lastOf?, List.reverse_append, List.findSome?_append]
  rfl

theorem lastOf?_singleton : lastOf? value? [a] = value? a := by
  cases h : value? a <;> simp [lastOf?, h]

theorem lastOf?_concat : lastOf? value? (l ++ [a]) = (value? a).or (lastOf? value? l) := by
  rw [lastOf?_append, lastOf?_singleton]

theorem lastOf?_cons : lastOf? value? (a :: l) = (lastOf? value? l).or (value? a) := by
  rw [← List.singleton_append, lastOf?_append, lastOf?_singleton]

end LastOf

namespace Log

/-! ### What an argument says -/

/-- The level that an argument sets: the one that it names, or the one for errors only. -/
def levelOf? (arg : Bytes) : Option Level :=
  if isQuiet arg then some .error else (Bytes.after? levelOption arg).bind Level.ofName?

/-- The number of flags for more logging that an argument stands for. -/
def flagsOf (arg : Bytes) : Nat := if arg = ascii "--verbose" then 1 else verbosity arg

/-- The format that a name stands for: JSON lines, or text for every other name. -/
def formatOf (name : Bytes) : Format :=
  if name = ascii "json" || name = ascii "JSON" then .json else .text

/-- The name in an argument that should be one of a level, and is none. -/
def unknownLevel? (arg : Bytes) : Option Bytes :=
  (Bytes.after? levelOption arg).filter fun name => (Level.ofName? name).isNone

/-- What an argument is for the log: one of its options, or another argument, of which at most the
flags count. -/
inductive Meaning : Bytes → Prop
  | level (name : Bytes) : Meaning (levelOption ++ name)
  | filter (spec : Bytes) : Meaning (filterOption ++ spec)
  | file (path : Bytes) : Meaning (fileOption ++ path)
  | format (name : Bytes) : Meaning (formatOption ++ name)
  | quiet : Meaning (ascii "-q")
  | quietInFull : Meaning (ascii "--quiet")
  | verbose : Meaning (ascii "--verbose")
  | other {arg : Bytes} (hlevel : Bytes.after? levelOption arg = none)
      (hfilter : Bytes.after? filterOption arg = none)
      (hfile : Bytes.after? fileOption arg = none)
      (hformat : Bytes.after? formatOption arg = none) (hquiet : isQuiet arg = false)
      (hverbose : arg ≠ ascii "--verbose") : Meaning arg

theorem meaning (arg : Bytes) : Meaning arg := by
  cases hlevel : Bytes.after? levelOption arg with
  | some name => exact Bytes.after?_eq_some_iff.mp hlevel ▸ .level name
  | none =>
  cases hfilter : Bytes.after? filterOption arg with
  | some spec => exact Bytes.after?_eq_some_iff.mp hfilter ▸ .filter spec
  | none =>
  cases hfile : Bytes.after? fileOption arg with
  | some path => exact Bytes.after?_eq_some_iff.mp hfile ▸ .file path
  | none =>
  cases hformat : Bytes.after? formatOption arg with
  | some name => exact Bytes.after?_eq_some_iff.mp hformat ▸ .format name
  | none =>
  cases hquiet : isQuiet arg with
  | true =>
    rw [isQuiet, Bool.or_eq_true, decide_eq_true_eq, decide_eq_true_eq] at hquiet
    rcases hquiet with rfl | rfl
    · exact .quiet
    · exact .quietInFull
  | false =>
  by_cases hverbose : arg = ascii "--verbose"
  · exact hverbose ▸ .verbose
  · exact .other hlevel hfilter hfile hformat hquiet hverbose

/-! ### Reading one argument -/

namespace OptionReader

/-- **What is read of one argument.** -/
theorem read_eq (r : OptionReader) (arg : Bytes) :
    r.read arg =
      { options :=
          { r.options with
            filter := (Bytes.after? filterOption arg).getD r.options.filter
            file := (Bytes.after? fileOption arg).getD r.options.file
            format := ((Bytes.after? formatOption arg).map formatOf).getD r.options.format }
        explicit := (levelOf? arg).or r.explicit
        flags := max r.flags (flagsOf arg)
        unknown := r.unknown ++ (unknownLevel? arg).toList } := by
  have hplain : ∀ (o : Options) (e : Option Level),
      { r with options := o, explicit := e } =
        { options := o, explicit := e, flags := max r.flags 0, unknown := r.unknown ++ [] } := by
    intro o e
    rw [Nat.max_zero, List.append_nil]
  -- the start of an argument settles what each of the readings makes of it
  cases meaning arg with
  | level name =>
    have hname : Bytes.after? levelOption (levelOption ++ name) = some name := rfl
    have hlevel : levelOf? (levelOption ++ name) = Level.ofName? name := rfl
    have hunknown : unknownLevel? (levelOption ++ name) =
        if (Level.ofName? name).isNone then some name else none := rfl
    rw [hlevel, hunknown]
    cases hl : Level.ofName? name with
    | some l =>
      have hread : r.read (levelOption ++ name) = { r with explicit := some l } := by
        simp only [read, hname, hl]
      rw [hread]
      exact hplain r.options (some l)
    | none =>
      have hread : r.read (levelOption ++ name) = { r with unknown := r.unknown ++ [name] } := by
        simp only [read, hname, hl]
      show r.read (levelOption ++ name) =
        { r with flags := max r.flags 0, unknown := r.unknown ++ [name] }
      rw [hread, Nat.max_zero]
  | filter spec => exact hplain { r.options with filter := spec } r.explicit
  | file path => exact hplain { r.options with file := path } r.explicit
  | format name => exact hplain { r.options with format := formatOf name } r.explicit
  | quiet => exact hplain r.options (some .error)
  | quietInFull => exact hplain r.options (some .error)
  | verbose =>
    show { r with flags := max r.flags 1 } =
      { r with flags := max r.flags 1, unknown := r.unknown ++ [] }
    rw [List.append_nil]
  | other hlevel hfilter hfile hformat hquiet hverbose =>
    simp [read, levelOf?, flagsOf, unknownLevel?, hlevel, hfilter, hfile, hformat, hquiet, hverbose]

/-- **Nothing is read of other arguments.** -/
theorem read_of_not_isLogOption (r : OptionReader) {arg : Bytes} (h : isLogOption arg = false) :
    r.read arg = r := by
  cases meaning arg with
  | level name => cases h
  | filter spec => cases h
  | file path => cases h
  | format name => cases h
  | quiet => cases h
  | quietInFull => cases h
  | verbose => cases h
  | other hlevel hfilter hfile hformat hquiet hverbose =>
    have hflags : verbosity arg = 0 := by
      simp only [isLogOption, Bool.or_eq_false_iff, decide_eq_false_iff_not] at h
      exact Nat.eq_zero_of_not_pos h.2
    simp [read, hlevel, hfilter, hfile, hformat, hquiet, hverbose, hflags]

theorem foldl_read_filter (r : OptionReader) (args : List Bytes) :
    (args.filter isLogOption).foldl read r = args.foldl read r := by
  rw [List.foldl_filter]
  congr 1
  funext r arg
  cases h : isLogOption arg with
  | true => exact if_pos rfl
  | false => exact (read_of_not_isLogOption r h).symm

end OptionReader

/-! ### What counts of a list of arguments -/

/-- What counts of a list of arguments. -/
structure Settings where
  /-- The last level that is set. -/
  level : Option Level
  /-- The largest number of flags. -/
  flags : Nat
  /-- The last text of a filter. -/
  filter : Option Bytes
  /-- The last path of a log file. -/
  file : Option Bytes
  /-- The last name of a format. -/
  format : Option Bytes
  deriving DecidableEq, Repr

/-- The settings that a list of arguments makes. -/
def settings (args : List Bytes) : Settings where
  level := lastOf? levelOf? args
  flags := (args.map flagsOf).foldl max 0
  filter := lastOf? (Bytes.after? filterOption) args
  file := lastOf? (Bytes.after? fileOption) args
  format := lastOf? (Bytes.after? formatOption) args

namespace Settings

/-- The options that some settings name, without a level. -/
def named (s : Settings) : Options where
  filter := s.filter.getD []
  file := s.file.getD []
  format := (s.format.map formatOf).getD .text

/-- The options that some settings come to.  A level counts more than flags, and the environment
counts if there is neither, nor a filter. -/
def options (s : Settings) (environment : Bytes) : Options :=
  match s.level, s.flags with
  | some l, _ => { s.named with level := l }
  | none, n + 1 => { s.named with level := levelOfVerbosity (n + 1) }
  | none, 0 =>
    if s.named.filter.isEmpty then OptionReader.withEnvironment s.named environment else s.named

/-- The settings leave it to the environment what is logged. -/
def LeavesOpen (s : Settings) : Prop := s.level = none ∧ s.flags = 0 ∧ s.filter.getD [] = []

instance (s : Settings) : Decidable s.LeavesOpen := inferInstanceAs (Decidable (_ ∧ _))

theorem level_options {s : Settings} {l : Level} (h : s.level = some l) (environment : Bytes) :
    (s.options environment).level = l := by
  unfold options
  rw [h]

theorem options_congr {s : Settings} (h : ¬s.LeavesOpen) (environment other : Bytes) :
    s.options environment = s.options other := by
  unfold options
  cases hlevel : s.level with
  | some l => rfl
  | none =>
    cases hflags : s.flags with
    | succ n => rfl
    | zero =>
      have hfilter : ¬s.named.filter.isEmpty = true := fun hempty =>
        h ⟨hlevel, hflags, List.isEmpty_iff.mp hempty⟩
      dsimp only
      rw [if_neg hfilter, if_neg hfilter]

end Settings

/-- **What is read of a list of arguments.** -/
theorem OptionReader.foldl_read (args : List Bytes) :
    args.foldl OptionReader.read {} =
      { options := (settings args).named
        explicit := (settings args).level
        flags := (settings args).flags
        unknown := args.filterMap unknownLevel? } := by
  induction args using List.reverseRecOn with
  | nil => rfl
  | append_singleton args arg ih =>
    have hunknown : [arg].filterMap unknownLevel? = (unknownLevel? arg).toList := by
      cases h : unknownLevel? arg <;> simp [h]
    rw [List.foldl_append, List.foldl_cons, List.foldl_nil, ih, read_eq]
    simp only [settings, Settings.named, lastOf?_concat, Option.getD_or, Option.map_or,
      List.map_append, List.foldl_append, List.filterMap_append, hunknown]
    rfl

theorem OptionReader.finish_eq {r : OptionReader} {s : Settings} (hoptions : r.options = s.named)
    (hexplicit : r.explicit = s.level) (hflags : r.flags = s.flags) (environment : Bytes) :
    r.finish environment = s.options environment := by
  unfold finish level? Settings.options
  rw [hoptions, hexplicit, hflags]
  cases s.level with
  | some l => rfl
  | none => cases s.flags <;> rfl

/-- The options are those that the settings come to. -/
theorem Options.parse_fst (args : List Bytes) (environment : Bytes) :
    (Options.parse args environment).1 = (settings args).options environment := by
  unfold Options.parse
  rw [OptionReader.foldl_read]
  exact OptionReader.finish_eq rfl rfl rfl environment

/-- **The two readers agree, and only the settings count.**  Without the arguments that are no
options for logging, the options and the warnings are the same.  The options are those that the
settings come to: a level that is set counts more than flags, and the environment counts only if the
settings leave it open what is logged. -/
theorem Options.parse_logOptions (args : List Bytes) (environment : Bytes) :
    Options.parse (args.filter isLogOption) environment = Options.parse args environment ∧
      (Options.parse args environment).1 = (settings args).options environment ∧
      (∀ l, (settings args).level = some l → (Options.parse args environment).1.level = l) ∧
      (¬(settings args).LeavesOpen →
        ∀ other, (Options.parse args other).1 = (Options.parse args environment).1) := by
  refine ⟨?_, parse_fst args environment, ?_, ?_⟩
  · unfold Options.parse
    rw [OptionReader.foldl_read_filter]
  · intro l hl
    rw [parse_fst, Settings.level_options hl]
  · intro hopen other
    rw [parse_fst, parse_fst, Settings.options_congr hopen]

/-- Levels and flags among other arguments, with a level that is none, and a filter that is taken
back. -/
theorem Options.parse_logOptions_repeated :
    let args := ["map", "-vv", "--log-filter=scan=trace", "--log-level=loud", "-q", "a",
      "--log-level=info", "-vvvv", "--log-filter="].map ascii
    (settings args).level = some .info ∧ ¬(settings args).LeavesOpen ∧
      (Options.parse args []).1.level = .info ∧
      (Options.parse args (ascii "scan=debug")).1 = { level := .info } ∧
      (Options.parse (args.filter isLogOption) []).2 =
        ascii "warning: unknown log level 'loud'\n" := by
  intro args
  have hlevel : (settings args).level = some .info := by decide +kernel
  have hopen : ¬(settings args).LeavesOpen := by decide +kernel
  obtain ⟨hfilter, hoptions, hwins, hsame⟩ := Options.parse_logOptions args []
  refine ⟨hlevel, hopen, hwins .info hlevel, ?_, ?_⟩
  · rw [hsame hopen, hoptions]
    decide +kernel
  · rw [hfilter]
    decide +kernel

end Log
end Lexicon
