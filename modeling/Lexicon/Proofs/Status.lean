import Lexicon.Proofs.Arguments
import Mathlib.Data.List.Basic

/-!
# The status of a run

A run fails for one of five reasons, and each of them can be read off its arguments and the files:
an argument that the command does not take, no file, a language that does not load, a file that
cannot be read, and a key to look up that is none.  The first three are found before there is any
output.  The last two do not end the run; but nothing that comes after a failure takes it back.

## Main definitions

* `Command.LanguageLoads d args` — the language that the arguments name loads.
* `Command.Starts c d args` — nothing keeps the command from its files.
* `Command.Succeeds c d args` — nothing fails.

## Main results

* `Command.exists_parseFrom_iff` — a list of arguments is read if the command takes each of them.
* `Command.options_of_parseFrom` — the language and the keys that a list of arguments names.
* `Command.starts_iff` — a command starts if it has options, files and a language.
* `Command.ok_wholeWork_iff` — **no failure is taken back.**
* `run_status` — **the status of a run.**
-/

namespace Lexicon
namespace Command

variable {c : Command} {o o' : Options} {arg : Bytes} {args : List Bytes} {d : Directory}

/-! ### Lists of arguments -/

/-- A list of arguments is read if the command takes each of them. -/
theorem exists_parseFrom_iff :
    (∃ o', Options.parseFrom c o args = .ok o') ↔ ∀ arg ∈ args, c.Takes arg := by
  induction args generalizing o with
  | nil => simp [Options.parseFrom]
  | cons arg args ih =>
    rw [List.forall_mem_cons]
    constructor
    · rintro ⟨o', ho'⟩
      obtain ⟨o₁, hread, hrest⟩ := parseFrom_cons_eq_ok.mp ho'
      exact ⟨takes_of_read? hread, ih.mp ⟨o', hrest⟩⟩
    · rintro ⟨harg, hargs⟩
      obtain ⟨o', ho'⟩ := ih.mpr hargs
      exact ⟨o', parseFrom_cons_eq_ok.mpr ⟨_, read?_of_takes harg o, ho'⟩⟩

/-- Of the names and the paths of languages the last one counts, and all keys are looked up. -/
theorem options_of_parseFrom (h : Options.parseFrom c o args = .ok o') :
    o'.language = (lastOf? (Bytes.after? languageOption) args).getD o.language ∧
      o'.definition = (lastOf? (Bytes.after? definitionOption) args).getD o.definition ∧
      o'.lookups = o.lookups ++ args.filterMap (lookup? c) := by
  induction args generalizing o with
  | nil =>
    cases h
    exact ⟨rfl, rfl, (List.append_nil _).symm⟩
  | cons arg args ih =>
    obtain ⟨o₁, hread, hrest⟩ := parseFrom_cons_eq_ok.mp h
    obtain rfl := Option.some.inj (hread.symm.trans (read?_of_takes (takes_of_read? hread) o))
    obtain ⟨hlanguage, hdefinition, hlookups⟩ := ih hrest
    refine ⟨?_, ?_, ?_⟩
    · rw [hlanguage, lastOf?_cons, Option.getD_or]
    · rw [hdefinition, lastOf?_cons, Option.getD_or]
    · rw [hlookups, List.append_assoc]
      cases hkey : lookup? c arg <;> simp [hkey]

theorem mem_lookups_of_parse (h : Options.parse c args = .ok o) {key : Bytes} :
    key ∈ o.lookups ↔ c = .map ∧ lookupOption ++ key ∈ args := by
  rw [(options_of_parseFrom h).2.2]
  simp [lookup?_eq_some_iff, and_comm]

/-! ### The language -/

/-- `LanguageLoads d args` says that the language loads which the arguments name: the definition at
the last path, unless this is empty, and otherwise the built-in language with the last name. -/
inductive LanguageLoads (d : Directory) (args : List Bytes) : Prop
  | definition {path text : Bytes} {l : Language}
      (hpath : lastOf? (Bytes.after? definitionOption) args = some path) (hne : path ≠ [])
      (htext : d.read? path = some text) (hl : Language.read text = .ok l)
  | builtin {l : Language} (hpath : (lastOf? (Bytes.after? definitionOption) args).getD [] = [])
      (hl : Language.builtin?
        ((lastOf? (Bytes.after? languageOption) args).getD (ascii "java")) = some l)

theorem exists_builtinLanguage_iff {name : Bytes} :
    (∃ l, builtinLanguage name = .ok l) ↔ ∃ l, Language.builtin? name = some l := by
  unfold builtinLanguage
  cases Language.builtin? name <;> simp

theorem exists_definedLanguage_iff {path text : Bytes} :
    (∃ l, definedLanguage path text = .ok l) ↔ ∃ l, Language.read text = .ok l := by
  unfold definedLanguage
  cases Language.read text <;> simp

theorem exists_language_iff : (∃ l, o.language? d = .ok l) ↔
    (o.definition = [] ∧ ∃ l, Language.builtin? o.language = some l) ∨
      o.definition ≠ [] ∧
        ∃ text l, d.read? o.definition = some text ∧ Language.read text = .ok l := by
  unfold Options.language?
  by_cases hnone : o.definition = []
  · simp [hnone, exists_builtinLanguage_iff]
  · cases htext : d.read? o.definition with
    | none => simp [hnone]
    | some text => simp [hnone, exists_definedLanguage_iff]

theorem languageLoads_iff (h : Options.parse c args = .ok o) :
    LanguageLoads d args ↔ ∃ l, o.language? d = .ok l := by
  obtain ⟨hlanguage, hdefinition, -⟩ := options_of_parseFrom h
  rw [exists_language_iff, hlanguage]
  constructor
  · intro hloads
    cases hloads with
    | definition hpath hne htext hl =>
      rw [hpath, Option.getD_some] at hdefinition
      rw [hdefinition]
      exact .inr ⟨hne, _, _, htext, hl⟩
    | builtin hpath hl => exact .inl ⟨hdefinition.trans hpath, _, hl⟩
  · rintro (⟨hnone, l, hl⟩ | ⟨hne, text, l, htext, hl⟩)
    · exact .builtin (hdefinition.symm.trans hnone) hl
    · have hlast : lastOf? (Bytes.after? definitionOption) args = some o.definition :=
        (Option.getD_eq_iff.mp hdefinition.symm).resolve_right fun hnil => hne hnil.2.symm
      exact .definition hlast hne htext hl

/-! ### What the work of a command comes to -/

variable {l : Language} {r : Registry}

/-- Every text to look up is a key. -/
def Options.KeysOnly (o : Options) : Prop := ∀ text ∈ o.lookups, (Key.parse? text).isSome = true

theorem ok_lookupWork (r : Registry) (text : Bytes) :
    (lookupWork r text).ok = (Key.parse? text).isSome := by
  unfold lookupWork
  cases Key.parse? text <;> rfl

theorem ok_lookupsWork (r : Registry) (texts : List Bytes) :
    (lookupsWork r texts).ok = texts.all fun text => (Key.parse? text).isSome := by
  induction texts generalizing r with
  | nil => rfl
  | cons text texts ih =>
    rw [lookupsWork, Work.andThen, List.all_cons, ih, ok_lookupWork]

theorem ok_tables (o : Options) (r : Registry) :
    (if o.table then tableWork r else { registry := r }).ok = true := by
  split <;> rfl

theorem ok_answers_iff : (answers o r).ok = true ↔ o.KeysOnly := by
  rw [answers, Work.andThen, ok_lookupsWork, ok_tables, Bool.true_and, List.all_eq_true]
  rfl

/-- The work on a source fails only where keys are looked up in it. -/
theorem ok_work_iff {s : Source} :
    (c.work o l r s).ok = true ↔ (c = .map → o.perFile = true → o.KeysOnly) := by
  cases c with
  | tokens => simp [work, tokensWork]
  | strip => simp [work, stripWork]
  | map =>
    simp only [work, mapWork]
    cases hper : o.perFile with
    | false => simp
    | true => simp [Work.andThen, ok_answers_iff]

theorem ok_finish_iff :
    (c.finish o r).ok = true ↔ (c = .map → o.perFile = false → o.KeysOnly) := by
  cases c with
  | tokens => simp [finish]
  | strip => simp [finish, ok_tables]
  | map =>
    unfold finish
    cases hper : o.perFile with
    | false => simp [ok_answers_iff]
    | true => simp

theorem ok_workAt_iff {path : Bytes} : (workAt c o l d r path).ok = true ↔
    (d.read? path).isSome = true ∧ (c = .map → o.perFile = true → o.KeysOnly) := by
  unfold workAt
  cases d.read? path with
  | none => simp
  | some content => simp [ok_work_iff]

/-- A failure on one of the files is not taken back on the others. -/
theorem ok_workOn_iff {paths : List Bytes} : (workOn c o l d r paths).ok = true ↔
    ∀ path ∈ paths,
      (d.read? path).isSome = true ∧ (c = .map → o.perFile = true → o.KeysOnly) := by
  induction paths generalizing r with
  | nil => simp [workOn]
  | cons path paths ih =>
    rw [workOn, Work.andThen, Bool.and_eq_true, ok_workAt_iff, ih, List.forall_mem_cons]

/-- **No failure is taken back.**  Keys are looked up after each file or after the last one, so that
one file is enough for each of them to be looked up. -/
theorem ok_wholeWork_iff (hne : o.files ≠ []) : (wholeWork c o l d).ok = true ↔
    (∀ path ∈ o.files, (d.read? path).isSome = true) ∧ (c = .map → o.KeysOnly) := by
  rw [wholeWork, Work.andThen, Bool.and_eq_true, ok_workOn_iff, ok_finish_iff]
  constructor
  · rintro ⟨hfiles, hfinish⟩
    refine ⟨fun path hpath => (hfiles path hpath).1, ?_⟩
    intro hmap
    cases hper : o.perFile with
    | false => exact hfinish hmap hper
    | true =>
      obtain ⟨path, hpath⟩ := List.exists_mem_of_ne_nil o.files hne
      exact (hfiles path hpath).2 hmap hper
  · rintro ⟨hread, hkeys⟩
    exact ⟨fun path hpath => ⟨hread path hpath, fun hmap _ => hkeys hmap⟩, fun hmap _ => hkeys hmap⟩

/-! ### The conditions -/

/-- `Starts c d args` says that nothing keeps the command from its files: it takes its arguments,
names a file, and has a language. -/
structure Starts (c : Command) (d : Directory) (args : List Bytes) : Prop where
  takes : ∀ arg ∈ args, c.Takes arg
  names : ∃ arg ∈ args, NamesFile arg
  loads : LanguageLoads d args

/-- `Succeeds c d args` says that nothing fails: the command starts, reads each of its files, and is
asked for keys only. -/
structure Succeeds (c : Command) (d : Directory) (args : List Bytes) : Prop
    extends Starts c d args where
  reads : ∀ path ∈ args, NamesFile path → (d.read? path).isSome = true
  keys : c = .map → ∀ text, lookupOption ++ text ∈ args → (Key.parse? text).isSome = true

theorem mem_files_of_parse (h : Options.parse c args = .ok o) {path : Bytes} :
    path ∈ o.files ↔ path ∈ args ∧ NamesFile path := by
  rw [files_of_parse h, List.mem_filter, namesFile_iff, Bool.not_eq_true']

theorem files_ne_nil_iff (h : Options.parse c args = .ok o) :
    o.files ≠ [] ↔ ∃ path ∈ args, NamesFile path := by
  rw [files_of_parse h, ne_eq, List.filter_eq_nil_iff]
  simp [namesFile_iff]

theorem starts_iff : c.Starts d args ↔
    ∃ o l, Options.parse c args = .ok o ∧ o.files ≠ [] ∧ o.language? d = .ok l := by
  constructor
  · intro h
    obtain ⟨o, ho⟩ := exists_parseFrom_iff.mpr h.takes
    obtain ⟨l, hl⟩ := (languageLoads_iff ho).mp h.loads
    exact ⟨o, l, ho, (files_ne_nil_iff ho).mpr h.names, hl⟩
  · rintro ⟨o, l, ho, hne, hl⟩
    exact ⟨exists_parseFrom_iff.mp ⟨o, ho⟩, (files_ne_nil_iff ho).mp hne,
      (languageLoads_iff ho).mpr ⟨l, hl⟩⟩

theorem succeeds_iff (hstarts : c.Starts d args) (h : Options.parse c args = .ok o) :
    c.Succeeds d args ↔ (wholeWork c o l d).ok = true := by
  rw [ok_wholeWork_iff ((files_ne_nil_iff h).mpr hstarts.names)]
  simp only [mem_files_of_parse h, Options.KeysOnly, mem_lookups_of_parse h]
  constructor
  · intro hsucceeds
    exact ⟨fun path hpath => hsucceeds.reads path hpath.1 hpath.2,
      fun hmap text htext => hsucceeds.keys hmap text htext.2⟩
  · rintro ⟨hreads, hkeys⟩
    exact ⟨hstarts, fun path hpath hnames => hreads path ⟨hpath, hnames⟩,
      fun hmap text htext => hkeys hmap text ⟨hmap, htext⟩⟩

end Command

/-! ### The run -/

open Command

variable {c : Command} {args : List Bytes} {d : Directory}

/-- A command that does not start prints nothing and fails. -/
theorem run_of_not_starts (environment : Bytes) (time : Int)
    (hlog : (Log.Options.parse (c.name :: args) environment).1.file = [])
    (h : ¬c.Starts d args) :
    (run (c.name :: args) environment d time).output = [] ∧
      (run (c.name :: args) environment d time).status = 1 := by
  unfold run
  rw [dispatch_name, runWith]
  generalize Log.Options.parse (c.name :: args) environment = logging at hlog ⊢
  have hopens : ¬logging.1.Opens d := fun hopens => hopens.1 hlog
  obtain ⟨hdir, -⟩ := Execution.start_of_not_opens time hopens logging.2
  have hout := Execution.output_start d time logging.1 logging.2
  cases ho : Options.parse c args with
  | error arg => exact ⟨hout, rfl⟩
  | ok o =>
    dsimp only
    split
    · exact ⟨hout, rfl⟩
    · next hfiles =>
      have hne : o.files ≠ [] := fun hnil => hfiles (List.isEmpty_iff.mpr hnil)
      cases hl : o.language? d with
      | ok l => exact absurd (starts_iff.mpr ⟨o, l, ho, hne, hl⟩) h
      | error e =>
        obtain ⟨houtput, hstatus⟩ := run_of_error (c := c) (hdir.symm ▸ hl)
        exact ⟨houtput.trans hout, hstatus⟩

/-- **The status of a run** that names no log file.  It is zero if and only if the command takes
every argument and names a file, the language loads, every file can be read, and every key that is
looked up is one.  Otherwise it is one, and if one of the first three fails nothing is printed. -/
theorem run_status (c : Command) {args : List Bytes} (environment : Bytes) (d : Directory)
    (time : Int) (hlog : ∀ arg ∈ args, ¬Log.fileOption <+: arg) :
    ((run (c.name :: args) environment d time).status = 0 ↔ c.Succeeds d args) ∧
      (¬c.Succeeds d args → (run (c.name :: args) environment d time).status = 1) ∧
      (¬c.Starts d args → (run (c.name :: args) environment d time).output = []) := by
  have hname : ¬Log.fileOption <+: c.name := by
    cases c <;> decide
  have hfile := Log.file_parse_eq_nil (List.forall_mem_cons.mpr ⟨hname, hlog⟩) environment
  by_cases hstarts : c.Starts d args
  · obtain ⟨o, l, ho, hne, hl⟩ := starts_iff.mp hstarts
    obtain ⟨-, hstatus⟩ := run_of_file_eq_nil c environment time hfile ho hne hl
    rw [hstatus, succeeds_iff (l := l) hstarts ho]
    refine ⟨?_, ?_, fun h => absurd hstarts h⟩
    · cases (c.wholeWork o l d).ok <;> simp
    · exact fun hfails => if_neg hfails
  · obtain ⟨houtput, hstatus⟩ := run_of_not_starts environment time hfile hstarts
    have hfails : ¬c.Succeeds d args := fun h => hstarts h.toStarts
    rw [hstatus]
    refine ⟨?_, fun _ => rfl, fun _ => houtput⟩
    exact iff_of_false Nat.one_ne_zero hfails

/-- A run with a path of a definition that is taken back; one with a text to look up that is no key,
of which the file is printed all the same; and one with a flag of another command. -/
theorem run_status_cases :
    let d : Directory := .flat [(ascii "a", ascii "x"), (ascii "-", ascii "y")]
    let good := ["--per-file", "--lang-file=gone", "-vv", "--lookup=:o0", "a", "--lang-file=",
      "-"].map ascii
    let late := ["a", "--lookup=o0", "--lookup=:o0"].map ascii
    let early := ["a", "--annotate", "-"].map ascii
    Succeeds .map d good ∧ (run (map.name :: good) [] d 0).status = 0 ∧
      (run (map.name :: late) [] d 0).status = 1 ∧
      (run (map.name :: late) [] d 0).output = ascii ":o0\n:o0\tx\n" ∧
      (run (strip.name :: early) [] d 0).status = 1 ∧
      (run (strip.name :: early) [] d 0).output = [] := by
  intro d good late early
  have hgood : ∀ arg ∈ good, ¬Log.fileOption <+: arg := by decide
  have hlate : ∀ arg ∈ late, ¬Log.fileOption <+: arg := by decide
  have hearly : ∀ arg ∈ early, ¬Log.fileOption <+: arg := by decide
  have hzero : (run (map.name :: good) [] d 0).status = 0 := by decide +kernel
  have hkeys : ¬Succeeds .map d late := by
    intro h
    exact absurd (h.keys rfl (ascii "o0") (by decide)) (by decide)
  have hstarts : ¬Starts .strip d early := by
    intro h
    obtain ⟨o, ho⟩ := exists_parseFrom_iff (o := {}).mpr h.takes
    cases ho
  exact ⟨(run_status map [] d 0 hgood).1.mp hzero, hzero, (run_status map [] d 0 hlate).2.1 hkeys,
    by decide +kernel, (run_status strip [] d 0 hearly).2.1 fun h => hstarts h.toStarts,
    (run_status strip [] d 0 hearly).2.2 hstarts⟩

end Lexicon
