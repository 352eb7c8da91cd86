import Lexicon.Proofs.Execution
import Lexicon.Proofs.LogOptions

/-!
# Readers of arguments

Two readers go over the arguments of a run.  One takes the options for logging out of them; the
other passes over these, and reads the options and the files of the command.  They agree on which
arguments are for whom, so that an option for logging may stand at any place after the command:  it
has no part in what the command is asked for, and none in what it prints.  The one way from the log
to the output is the log file, where a command reads it as one of its files.

## Main definitions

* `Log.namedFile file arg` — the log file after an argument.
* `Command.NamesFile arg` — the argument names a file.
* `Command.Takes c arg` — the command takes the argument.
* `Outcome.shown` — the status and the output of a run.

## Main results

* `Command.looksLikeOption_of_isLogOption` — the options for logging look like options.
* `Log.file_parse` — the log file that the arguments name.
* `Command.read?_of_takes` — **what a command reads of an argument.**
* `Command.files_of_parse` — **the files of a command are the arguments that do not look like
  options.**
* `Command.parse_insert` — the options of a command without those for logging.
* `run_of_file_eq_nil` — **the output and the status of a run without a log file.**
* `run_insert_logOption` — **an option for logging after the command leaves status and output as
  they are.**
-/

namespace Lexicon

/-! ### What looks like an option -/

namespace Command

variable {c : Command} {o o' : Options} {arg : Bytes}

theorem looksLikeOption_of_isPrefixOf {start : Bytes} (hstart : looksLikeOption start = true)
    (h : start.isPrefixOf arg = true) : looksLikeOption arg = true := by
  obtain ⟨rest, rfl⟩ := List.isPrefixOf_iff_prefix.mp h
  match start, hstart with
  | _ :: _ :: _, hstart => exact hstart

theorem looksLikeOption_of_verbosity (h : 0 < Log.verbosity arg) : looksLikeOption arg = true := by
  cases arg with
  | nil => exact absurd h (by decide)
  | cons b flags =>
    rw [Log.verbosity] at h
    split at h
    · next hflags =>
      cases flags with
      | nil => exact absurd h (by decide)
      | cons flag flags => exact (Bool.and_eq_true_iff.mp hflags).1
    · exact absurd h (Nat.lt_irrefl 0)

/-- The options for logging look like options. -/
theorem looksLikeOption_of_isLogOption (h : Log.isLogOption arg = true) :
    looksLikeOption arg = true := by
  simp only [Log.isLogOption, Log.isQuiet, Bool.or_eq_true, decide_eq_true_eq] at h
  rcases h with (((((h | h) | h) | h) | (rfl | rfl)) | rfl) | h
  · exact looksLikeOption_of_isPrefixOf (by decide) h
  · exact looksLikeOption_of_isPrefixOf (by decide) h
  · exact looksLikeOption_of_isPrefixOf (by decide) h
  · exact looksLikeOption_of_isPrefixOf (by decide) h
  · decide
  · decide
  · decide
  · exact looksLikeOption_of_verbosity h

end Command

/-! ### The log file -/

namespace Log

/-- The log file that is named after an argument, if `file` was named before it. -/
def namedFile (file arg : Bytes) : Bytes := (Bytes.after? fileOption arg).getD file

/-- The last log file that is named counts. -/
theorem foldl_namedFile (args : List Bytes) :
    args.foldl namedFile [] = (lastOf? (Bytes.after? fileOption) args).getD [] := by
  induction args using List.reverseRecOn with
  | nil => rfl
  | append_singleton args arg ih =>
    rw [List.foldl_append, List.foldl_cons, List.foldl_nil, ih, lastOf?_concat, Option.getD_or]
    rfl

theorem file_finish (r : OptionReader) (environment : Bytes) :
    (r.finish environment).file = r.options.file := by
  unfold OptionReader.finish
  cases r.level? with
  | some l => rfl
  | none =>
    dsimp only
    split
    · unfold OptionReader.withEnvironment
      split
      · rfl
      split
      · rfl
      cases Level.ofName? environment <;> rfl
    · rfl

/-- The environment names no log file. -/
theorem file_parse (args : List Bytes) (environment : Bytes) :
    (Options.parse args environment).1.file = args.foldl namedFile [] := by
  unfold Options.parse
  rw [OptionReader.foldl_read, foldl_namedFile]
  exact file_finish _ environment

theorem not_isLogFile {arg : Bytes} (h : isLogOption arg = false) : ¬fileOption <+: arg := by
  rintro ⟨path, rfl⟩
  cases h

/-- Without an option that names it there is no log file. -/
theorem file_parse_eq_nil {args : List Bytes} (h : ∀ arg ∈ args, ¬fileOption <+: arg)
    (environment : Bytes) : (Options.parse args environment).1.file = [] := by
  rw [file_parse]
  induction args with
  | nil => rfl
  | cons arg args ih =>
    obtain ⟨harg, hargs⟩ := List.forall_mem_cons.mp h
    have hnone : Bytes.after? fileOption arg = none :=
      if_neg fun hprefix => harg (List.isPrefixOf_iff_prefix.mp hprefix)
    rw [List.foldl_cons, namedFile, hnone]
    exact ih hargs

/-- An option that names no file has no part in the choice of the log file. -/
theorem file_parse_insert {option : Bytes} (h : Bytes.after? fileOption option = none)
    (before after : List Bytes) (environment : Bytes) :
    (Options.parse (before ++ option :: after) environment).1.file =
      (Options.parse (before ++ after) environment).1.file := by
  rw [file_parse, file_parse, List.foldl_append, List.foldl_append, List.foldl_cons]
  congr 1
  rw [namedFile, h]
  rfl

end Log

/-! ### Options of a command -/

namespace Command

variable {c : Command} {o o' : Options} {arg : Bytes}

/-- An argument that names a file: it is empty, or a dash alone, or does not start with a dash. -/
def NamesFile (arg : Bytes) : Prop :=
  arg = [] ∨ arg = [Byte.dash] ∨ arg.head? ≠ some Byte.dash

instance (arg : Bytes) : Decidable (NamesFile arg) := inferInstanceAs (Decidable (_ ∨ _ ∨ _))

/-- `Takes c arg` says that the command takes the argument: an option for logging, the name or the
definition of a language, one of its flags, a key that `map` looks up, or a file. -/
inductive Takes (c : Command) : Bytes → Prop
  | logging {arg : Bytes} (h : Log.isLogOption arg = true) : Takes c arg
  | language (name : Bytes) : Takes c (languageOption ++ name)
  | definition (path : Bytes) : Takes c (definitionOption ++ path)
  | flag {f : Flag} (h : f ∈ Flag.takenBy c) : Takes c f.argument
  | lookup (h : c = .map) (key : Bytes) : Takes c (lookupOption ++ key)
  | file {arg : Bytes} (h : NamesFile arg) : Takes c arg

theorem namesFile_iff : NamesFile arg ↔ looksLikeOption arg = false := by
  match arg with
  | [] => simp [NamesFile, looksLikeOption]
  | [b] => simp [NamesFile, looksLikeOption, em]
  | b :: _ :: _ => simp [NamesFile, looksLikeOption]

theorem lookup?_eq_some_iff {key : Bytes} :
    lookup? c arg = some key ↔ c = .map ∧ arg = lookupOption ++ key := by
  unfold lookup?
  split
  · next h => simp [h, Bytes.after?_eq_some_iff]
  · next h => simp [h]

theorem eq_argument_of_ofArgument? {f : Flag} (h : Flag.ofArgument? c arg = some f) :
    f ∈ Flag.takenBy c ∧ arg = f.argument := by
  have harg : f.argument = arg := by simpa using List.find?_some h
  exact ⟨List.mem_of_find?_eq_some h, harg.symm⟩

/-- An option for logging sets nothing, and neither does a file. -/
theorem unset_of_logOption_or_file (c : Command)
    (h : Log.isLogOption arg = true ∨ looksLikeOption arg = false) :
    Bytes.after? languageOption arg = none ∧ Bytes.after? definitionOption arg = none ∧
      Flag.ofArgument? c arg = none ∧ lookup? c arg = none := by
  simp only [Option.eq_none_iff_forall_ne_some]
  -- what sets anything looks like an option, and its start is of none for logging
  refine ⟨?_, ?_, ?_, ?_⟩
  · intro name hname
    obtain rfl := Bytes.after?_eq_some_iff.mp hname
    rcases h with h | h <;> cases h
  · intro path hpath
    obtain rfl := Bytes.after?_eq_some_iff.mp hpath
    rcases h with h | h <;> cases h
  · intro f hf
    obtain ⟨-, rfl⟩ := eq_argument_of_ofArgument? hf
    cases f <;> rcases h with h | h <;> cases h
  · intro key hkey
    obtain ⟨-, rfl⟩ := lookup?_eq_some_iff.mp hkey
    rcases h with h | h <;> cases h

/-- An argument that does not look like an option is a file. -/
theorem read?_of_not_looksLikeOption (h : looksLikeOption arg = false) :
    o.read? c arg = some { o with files := o.files ++ [arg] } := by
  have hlog : ¬Log.isLogOption arg = true := by
    intro hlog
    rw [looksLikeOption_of_isLogOption hlog] at h
    cases h
  obtain ⟨hlanguage, hdefinition, hflag, hlookup⟩ := unset_of_logOption_or_file c (.inr h)
  unfold Options.read?
  rw [if_neg hlog, hlanguage, hdefinition, hflag, hlookup, h]
  rfl

/-- A command reads only what it takes. -/
theorem takes_of_read? (h : o.read? c arg = some o') : c.Takes arg := by
  unfold Options.read? at h
  split at h
  · next hlog => exact .logging hlog
  split at h
  · next name hname => exact Bytes.after?_eq_some_iff.mp hname ▸ .language name
  split at h
  · next path hpath => exact Bytes.after?_eq_some_iff.mp hpath ▸ .definition path
  split at h
  · next f hf =>
    obtain ⟨htaken, rfl⟩ := eq_argument_of_ofArgument? hf
    exact .flag htaken
  split at h
  · next key hkey =>
    obtain ⟨hmap, rfl⟩ := lookup?_eq_some_iff.mp hkey
    exact .lookup hmap key
  split at h
  · cases h
  · next hlooks => exact .file (namesFile_iff.mpr (Bool.eq_false_iff.mpr hlooks))

/-- **What a command reads of an argument** that it takes. -/
theorem read?_of_takes (h : c.Takes arg) (o : Options) :
    o.read? c arg = some
      { (Flag.ofArgument? c arg).elim o (Flag.set o) with
        language := (Bytes.after? languageOption arg).getD o.language
        definition := (Bytes.after? definitionOption arg).getD o.definition
        lookups := o.lookups ++ (lookup? c arg).toList
        files := if looksLikeOption arg then o.files else o.files ++ [arg] } := by
  have hplain : ∀ p : Options, some p = some { p with lookups := p.lookups ++ [] } := by
    intro p
    rw [List.append_nil]
  cases h with
  | logging h =>
    obtain ⟨hlanguage, hdefinition, hflag, hlookup⟩ := unset_of_logOption_or_file c (.inl h)
    rw [hlanguage, hdefinition, hflag, hlookup, looksLikeOption_of_isLogOption h, Options.read?,
      if_pos h]
    exact hplain o
  | language name =>
    cases c <;> exact hplain { o with language := name }
  | definition path =>
    cases c <;> exact hplain { o with definition := path }
  | @flag f h =>
    cases c with
    | tokens => cases h
    | map => cases f <;> exact hplain _
    | strip =>
      cases f with
      | annotate => exact absurd h (by decide)
      | perFile => exact absurd h (by decide)
      | _ => exact hplain _
  | lookup h key =>
    subst h
    rfl
  | file h =>
    have hlooks := namesFile_iff.mp h
    obtain ⟨hlanguage, hdefinition, hflag, hlookup⟩ := unset_of_logOption_or_file c (.inr hlooks)
    rw [read?_of_not_looksLikeOption hlooks, hlanguage, hdefinition, hflag, hlookup, hlooks]
    exact hplain { o with files := o.files ++ [arg] }

theorem files_of_read? (h : o.read? c arg = some o') :
    o'.files = if looksLikeOption arg then o.files else o.files ++ [arg] := by
  rw [read?_of_takes (takes_of_read? h)] at h
  rw [← Option.some.inj h]

/-- The first argument is read, and then the others. -/
theorem parseFrom_cons_eq_ok {args : List Bytes} :
    Options.parseFrom c o (arg :: args) = .ok o' ↔
      ∃ o₁, o.read? c arg = some o₁ ∧ Options.parseFrom c o₁ args = .ok o' := by
  rw [Options.parseFrom]
  cases o.read? c arg with
  | none => simp
  | some o₁ => simp

theorem parseFrom_append (o : Options) (before after : List Bytes) :
    Options.parseFrom c o (before ++ after) =
      (Options.parseFrom c o before).bind fun o => Options.parseFrom c o after := by
  induction before generalizing o with
  | nil => rfl
  | cons arg before ih =>
    rw [List.cons_append, Options.parseFrom, Options.parseFrom]
    cases o.read? c arg with
    | none => rfl
    | some o' => exact ih o'

theorem files_of_parseFrom {args : List Bytes} (h : Options.parseFrom c o args = .ok o') :
    o'.files = o.files ++ args.filter fun arg => !looksLikeOption arg := by
  induction args generalizing o with
  | nil =>
    cases h
    exact (List.append_nil _).symm
  | cons arg args ih =>
    obtain ⟨o₁, hread, hrest⟩ := parseFrom_cons_eq_ok.mp h
    rw [ih hrest, files_of_read? hread, List.filter_cons]
    cases looksLikeOption arg with
    | true => rfl
    | false => simp

/-- **The files of a command are the arguments that do not look like options.** -/
theorem files_of_parse {args : List Bytes} (h : Options.parse c args = .ok o) :
    o.files = args.filter fun arg => !looksLikeOption arg := files_of_parseFrom h

/-- A command passes over the options for logging. -/
theorem parse_insert {option : Bytes} (h : Log.isLogOption option = true)
    (before after : List Bytes) :
    Options.parse c (before ++ option :: after) = Options.parse c (before ++ after) := by
  unfold Options.parse
  rw [parseFrom_append, parseFrom_append]
  congr 1
  funext o
  have hread : o.read? c option = some o := by
    unfold Options.read?
    rw [if_pos h]
  rw [Options.parseFrom, hread]

end Command

/-! ### A run without a log file -/

/-- The name of a command is no request for help. -/
theorem Command.dispatch_name (p : Execution) (c : Command) (args : List Bytes) :
    dispatch p (c.name :: args) = c.runWith args p := by
  cases c <;> rfl

/-- **The output and the status of a run without a log file** are those of its work on the
directory. -/
theorem run_of_file_eq_nil (c : Command) {args : List Bytes} (environment : Bytes) {d : Directory}
    (time : Int) (hlog : (Log.Options.parse (c.name :: args) environment).1.file = [])
    {o : Command.Options} (hparse : Command.Options.parse c args = .ok o) (hne : o.files ≠ [])
    {l : Language} (hl : o.language? d = .ok l) :
    (run (c.name :: args) environment d time).output = (c.wholeWork o l d).output ∧
      (run (c.name :: args) environment d time).status =
        if (c.wholeWork o l d).ok then 0 else 1 := by
  unfold run
  rw [Command.dispatch_name, Command.runWith, hparse]
  dsimp only
  rw [if_neg fun h => hne (List.isEmpty_iff.mp h)]
  generalize Log.Options.parse (c.name :: args) environment = logging at hlog ⊢
  have hopens : ¬logging.1.Opens d := fun h => h.1 hlog
  obtain ⟨hdir, -⟩ := Execution.start_of_not_opens time hopens logging.2
  have hout := Execution.output_start d time logging.1 logging.2
  have hsees : ∀ path ∈ o.files, (Execution.start d time logging.1 logging.2).Sees d path := by
    intro path _
    have hnot : ¬logging.1.LogsTo d path := fun h => hopens h.1
    have hsees := Execution.sees_start time hnot logging.2
    rwa [hdir] at hsees
  rw [← hdir] at hl
  obtain ⟨houtput, hstatus⟩ := Command.run_of_language (c := c) hl hsees
  rw [houtput, hstatus, hout, List.nil_append]
  exact ⟨rfl, rfl⟩

/-! ### Options for logging among the arguments -/

/-- What a run shows of itself beside its log: its status and its output. -/
def Outcome.shown (o : Outcome) : Nat × Bytes := (o.status, o.output)

namespace Command

variable {p q : Execution} {args args' : List Bytes}

/-- What a command shows depends on its options, and on the directory that it sees. -/
theorem shown_run {c : Command} {o : Options} (hout : p.output = q.output)
    (hdir : p.directory = q.directory) (hp : ∀ path ∈ o.files, p.Sees p.directory path)
    (hq : ∀ path ∈ o.files, q.Sees q.directory path) :
    (c.run o p).shown = (c.run o q).shown := by
  unfold Outcome.shown
  cases hl : o.language? q.directory with
  | error e =>
    obtain ⟨hpo, hps⟩ := run_of_error (c := c) (hdir ▸ hl)
    obtain ⟨hqo, hqs⟩ := run_of_error (c := c) hl
    rw [hpo, hps, hqo, hqs, hout]
  | ok l =>
    obtain ⟨hpo, hps⟩ := run_of_language (c := c) (hdir ▸ hl) hp
    obtain ⟨hqo, hqs⟩ := run_of_language (c := c) hl hq
    rw [hpo, hps, hqo, hqs, hout, hdir]

theorem shown_runWith (c : Command) (hparse : Options.parse c args = Options.parse c args')
    (hout : p.output = q.output) (hdir : p.directory = q.directory)
    (hp : ∀ path ∈ args', looksLikeOption path = false → p.Sees p.directory path)
    (hq : ∀ path ∈ args', looksLikeOption path = false → q.Sees q.directory path) :
    (c.runWith args p).shown = (c.runWith args' q).shown := by
  unfold runWith
  rw [hparse]
  cases ho : Options.parse c args' with
  | error arg => exact congrArg (Prod.mk 1) hout
  | ok o =>
    dsimp only
    split
    · exact congrArg (Prod.mk 1) hout
    · have hfile : ∀ path ∈ o.files, path ∈ args' ∧ looksLikeOption path = false := by
        intro path hpath
        rw [files_of_parse ho, List.mem_filter] at hpath
        exact ⟨hpath.1, by simpa using hpath.2⟩
      apply shown_run hout hdir
      · exact fun path hpath => hp path (hfile path hpath).1 (hfile path hpath).2
      · exact fun path hpath => hq path (hfile path hpath).1 (hfile path hpath).2

theorem shown_dispatch (first : Bytes)
    (hparse : ∀ c, Options.parse c args = Options.parse c args')
    (hout : p.output = q.output) (hdir : p.directory = q.directory)
    (hp : ∀ path ∈ args', looksLikeOption path = false → p.Sees p.directory path)
    (hq : ∀ path ∈ args', looksLikeOption path = false → q.Sees q.directory path) :
    (dispatch p (first :: args)).shown = (dispatch q (first :: args')).shown := by
  have hprint : ∀ (n : Nat) (t : Bytes), (n, p.output ++ t) = (n, q.output ++ t) := by
    intro n t
    rw [hout]
  rw [dispatch, dispatch]
  by_cases hhelp : (first = ascii "--help" || first = ascii "-h") = true
  · rw [if_pos hhelp, if_pos hhelp]
    exact hprint 0 usage
  rw [if_neg hhelp, if_neg hhelp]
  by_cases hversion : (first = ascii "--version" || first = ascii "-V") = true
  · rw [if_pos hversion, if_pos hversion]
    exact hprint 0 version
  rw [if_neg hversion, if_neg hversion]
  cases ofName? first with
  | none => exact hprint 1 usage
  | some c => exact shown_runWith c (hparse c) hout hdir hp hq

end Command

open Command

/-- **An option for logging after the command leaves status and output as they are**, wherever it
stands there, if it names no log file, and none of the files of the command is the log file. -/
theorem run_insert_logOption {option : Bytes} (first : Bytes) (before after : List Bytes)
    (environment : Bytes) (d : Directory) (time : Int) (hoption : Log.isLogOption option = true)
    (hfile : Bytes.after? Log.fileOption option = none)
    (hfiles : ∀ path ∈ before ++ after, looksLikeOption path = false →
      ¬(Log.Options.parse (first :: (before ++ after)) environment).1.LogsTo d path) :
    (run (first :: (before ++ option :: after)) environment d time).status =
        (run (first :: (before ++ after)) environment d time).status ∧
      (run (first :: (before ++ option :: after)) environment d time).output =
        (run (first :: (before ++ after)) environment d time).output := by
  have hsame := Log.file_parse_insert hfile (first :: before) after environment
  rw [List.cons_append, List.cons_append] at hsame
  rw [← Prod.mk.injEq]
  show Outcome.shown _ = Outcome.shown _
  unfold run
  apply shown_dispatch first
  · exact fun c => parse_insert hoption before after
  · rw [Execution.output_start, Execution.output_start]
  · rw [Execution.directory_start, Execution.directory_start, hsame]
  · intro path hpath hlooks
    apply Execution.sees_start
    unfold Log.Options.LogsTo Log.Options.Opens
    rw [hsame]
    exact hfiles path hpath hlooks
  · intro path hpath hlooks
    apply Execution.sees_start
    exact hfiles path hpath hlooks

/-- Flags for more logging, in front of the log file and of the key that is looked up. -/
theorem run_insert_logOption_verbose :
    (∀ path ∈ [ascii "--log-file=b", ascii "--lookup=:o0", ascii "a"],
      looksLikeOption path = false →
      ¬(Log.Options.parse
        [ascii "map", ascii "--log-file=b", ascii "--lookup=:o0", ascii "a"] []).1.LogsTo
          (.flat [(ascii "a", ascii "x")]) path) ∧
    (run [ascii "map", ascii "-vv", ascii "--log-file=b", ascii "--lookup=:o0", ascii "a"] []
        (.flat [(ascii "a", ascii "x")]) 0).status = 0 ∧
    (run [ascii "map", ascii "-vv", ascii "--log-file=b", ascii "--lookup=:o0", ascii "a"] []
        (.flat [(ascii "a", ascii "x")]) 0).output = ascii ":o0\n:o0\tx\n" := by
  have hfiles : ∀ path ∈ [ascii "--log-file=b", ascii "--lookup=:o0", ascii "a"],
      looksLikeOption path = false →
      ¬(Log.Options.parse
        [ascii "map", ascii "--log-file=b", ascii "--lookup=:o0", ascii "a"] []).1.LogsTo
          (.flat [(ascii "a", ascii "x")]) path := by
    decide +kernel
  have hoption : Log.isLogOption (ascii "-vv") = true := by decide
  obtain ⟨hstatus, houtput⟩ :=
    run_insert_logOption (ascii "map") [] _ [] (.flat [(ascii "a", ascii "x")]) 0
      hoption (by decide) hfiles
  exact ⟨hfiles, hstatus.trans (by decide +kernel), houtput.trans (by decide +kernel)⟩

/-- Before the command an option for logging is taken for the command; and where a command reads its
log, it prints what was logged. -/
theorem run_insert_logOption_changes :
    (run (["-v", "tokens", "a"].map ascii) [] (.flat [(ascii "a", ascii "x")]) 0).status ≠
      (run (["tokens", "a"].map ascii) [] (.flat [(ascii "a", ascii "x")]) 0).status ∧
    (run (["strip", "--log-level=off", "--log-file=b", "a", "b"].map ascii) []
        (.flat []) 0).output ≠
      (run (["strip", "--log-file=b", "a", "b"].map ascii) [] (.flat []) 0).output := by
  decide +kernel

end Lexicon
