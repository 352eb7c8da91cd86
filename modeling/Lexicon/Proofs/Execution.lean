import Lexicon.Command.Run

/-!
# What a run prints

A run writes to its two streams and to its log.  The log has no part in the output: what is printed
comes from the pieces of work alone, and these depend on the files that the run reads.  So as long
as the log is not written to one of these files, the output and the status of a run can be told
from the directory that it starts with.

## Main definitions

* `Directory.SameFile p q` — two paths lead to one file.
* `Log.Options.LogsTo o d path` — in `d` the log is written to the file at `path`.
* `Execution.Sees p d path` — at `path` the run `p` reads what is there in `d`, whatever it logs.
* `Command.workAt`, `Command.workOn` — the work on the file at a path, and at paths in order.
* `Command.wholeWork` — all work of a command.

## Main results

* `Directory.read?_write`, `Directory.read?_append` — writing to a file leaves the others alone.
* `Execution.output_reportAll`, `Execution.Sees.reportAll` — reports change neither the output nor
  what is seen.
* `Command.workOnFiles_eq` — the work on files that are seen is the work on the directory.
* `Command.run_of_language`, `Command.run_of_error` — **the output and the status of a command.**
-/

namespace Lexicon

/-! ### Files at other paths -/

namespace Directory

/-- Two paths lead to one file. -/
def SameFile (p q : Bytes) : Prop := ∃ name, nameAt? p = some name ∧ nameAt? q = some name

instance (p q : Bytes) : Decidable (SameFile p q) :=
  decidable_of_iff ((nameAt? p).isSome ∧ nameAt? p = nameAt? q) <| by
    unfold SameFile
    rw [Option.isSome_iff_exists]
    constructor
    · rintro ⟨⟨name, hp⟩, hq⟩
      exact ⟨name, hp, hq ▸ hp⟩
    · rintro ⟨name, hp, hq⟩
      exact ⟨⟨name, hp⟩, hp.trans hq.symm⟩

/-- Replacing the content of a file leaves the other files alone. -/
theorem lookup_map_replace {name other : Bytes} (h : other ≠ name) (content : Bytes)
    (files : List (Bytes × Bytes)) :
    (files.map fun f => if f.1 = name then (name, content) else f).lookup other =
      files.lookup other := by
  induction files with
  | nil => rfl
  | cons f files ih =>
    obtain ⟨key, value⟩ := f
    rw [List.map_cons, List.lookup_cons, List.lookup_cons, ih]
    by_cases hkey : key = name
    · subst hkey
      simp [beq_false_of_ne h]
    · simp [hkey]

variable {p q : Bytes}

/-- **Writing to a file leaves the others alone.** -/
theorem read?_write (h : ¬SameFile p q) (d : Directory) (content : Bytes) :
    (d.write p content).read? q = d.read? q := by
  unfold write read?
  cases hp : nameAt? p with
  | none => rfl
  | some name =>
    cases hq : nameAt? q with
    | none => rfl
    | some other =>
      have hne : other ≠ name := by
        rintro rfl
        exact h ⟨other, hp, hq⟩
      show (if (d.files.lookup name).isSome then _ else _ : Directory).files.lookup other =
        d.files.lookup other
      split
      · exact lookup_map_replace hne content d.files
      · show (d.files ++ [(name, content)]).lookup other = d.files.lookup other
        rw [List.lookup_append, List.lookup_cons, List.lookup_nil, beq_false_of_ne hne]
        exact Option.or_none

theorem read?_append (h : ¬SameFile p q) (d : Directory) (content : Bytes) :
    (d.append p content).read? q = d.read? q := read?_write h d _

end Directory

open Directory

/-- A log is opened in a directory. -/
def Log.Options.Opens (o : Log.Options) (d : Directory) : Prop :=
  o.file ≠ [] ∧ d.canWrite o.file = true

/-- The log is written to the file at a path. -/
def Log.Options.LogsTo (o : Log.Options) (d : Directory) (path : Bytes) : Prop :=
  o.Opens d ∧ SameFile o.file path

instance (o : Log.Options) (d : Directory) : Decidable (o.Opens d) :=
  inferInstanceAs (Decidable (_ ∧ _))

instance (o : Log.Options) (d : Directory) (path : Bytes) : Decidable (o.LogsTo d path) :=
  inferInstanceAs (Decidable (_ ∧ _))

/-! ### Reports -/

namespace Execution

variable {p : Execution} {d : Directory} {path : Bytes}

@[simp] theorem output_print (p : Execution) (t : Bytes) : (p.print t).output = p.output ++ t := rfl

@[simp] theorem output_printError (p : Execution) (t : Bytes) :
    (p.printError t).output = p.output := rfl

@[simp] theorem output_deliver (p : Execution) (records : List Log.Record) (s : Sink) :
    (p.deliver records s).output = p.output := by
  cases s with
  | console => exact output_printError p _
  | file =>
    unfold deliver
    cases p.logFile <;> rfl

/-- What is reported is not printed on the output stream. -/
@[simp] theorem output_reportAll (p : Execution) (events : List Log.Event) :
    (p.reportAll events).output = p.output := by
  unfold reportAll
  generalize (events.filter _).map p.recordOf = records
  generalize p.logger.sinks = sinks
  induction sinks generalizing p with
  | nil => rfl
  | cons s sinks ih => rw [List.foldl_cons, ih, output_deliver]

@[simp] theorem output_report (p : Execution) (e : Log.Event) :
    (p.report e).output = p.output := output_reportAll p [e]

@[simp] theorem output_perform (p : Execution) (w : Work) :
    (p.perform w).output = p.output ++ w.output := by
  unfold perform
  rw [output_reportAll, output_print]

@[simp] theorem output_flush (p : Execution) : p.flush.output = p.output := by
  unfold flush
  cases p.logFile <;> rfl

/-- At a path the run reads what is there in a directory, and its log goes elsewhere. -/
structure Sees (p : Execution) (d : Directory) (path : Bytes) : Prop where
  read : p.directory.read? path = d.read? path
  unlogged : ∀ f, p.logFile = some f → ¬SameFile f.path path

theorem Sees.print (h : p.Sees d path) (t : Bytes) : (p.print t).Sees d path :=
  ⟨h.read, h.unlogged⟩

theorem Sees.printError (h : p.Sees d path) (t : Bytes) : (p.printError t).Sees d path :=
  ⟨h.read, h.unlogged⟩

theorem Sees.deliver (h : p.Sees d path) (records : List Log.Record) (s : Sink) :
    (p.deliver records s).Sees d path := by
  cases s with
  | console => exact h.printError _
  | file =>
    unfold Execution.deliver
    cases hf : p.logFile with
    | none => exact h
    | some f =>
      have hne := h.unlogged f hf
      constructor
      · exact (read?_append hne p.directory _).trans h.read
      · intro f' hf'
        rw [← Option.some.inj hf']
        exact hne

/-- **Reports do not change what is seen.** -/
theorem Sees.reportAll (h : p.Sees d path) (events : List Log.Event) :
    (p.reportAll events).Sees d path := by
  unfold Execution.reportAll
  generalize (events.filter _).map p.recordOf = records
  generalize p.logger.sinks = sinks
  induction sinks generalizing p with
  | nil => exact h
  | cons s sinks ih => exact ih (h.deliver records s)

theorem Sees.report (h : p.Sees d path) (e : Log.Event) : (p.report e).Sees d path :=
  h.reportAll [e]

theorem Sees.perform (h : p.Sees d path) (w : Work) : (p.perform w).Sees d path :=
  (h.print w.output).reportAll w.events

/-! ### The start of a run -/

theorem openLogFile_of_canWrite (h : p.directory.canWrite path = true) :
    p.openLogFile path =
      { p with
        logFile := some { path, format := p.format }
        directory := p.directory.append path []
        logger := p.logger.addSink .file } := by
  unfold openLogFile Log.File.open?
  rw [if_pos h]
  rfl

theorem openLogFile_of_not_canWrite (h : ¬p.directory.canWrite path = true) :
    p.openLogFile path =
      p.printError (Bytes.line (ascii "warning: could not open log file: " ++ path)) := by
  unfold openLogFile Log.File.open?
  rw [if_neg h]

theorem output_start (d : Directory) (time : Int) (o : Log.Options) (warnings : Bytes) :
    (start d time o warnings).output = [] := by
  unfold start openLogFile
  dsimp only
  split
  · rfl
  · split <;> rfl

/-- A run that opens a log makes an empty file for it, if there is none. -/
theorem start_of_opens (time : Int) {o : Log.Options} (h : o.Opens d) (warnings : Bytes) :
    (start d time o warnings).directory = d.append o.file [] ∧
      (start d time o warnings).logFile = some { path := o.file, format := o.format } := by
  unfold start
  dsimp only
  rw [if_neg fun hnil => h.1 (List.isEmpty_iff.mp hnil), openLogFile_of_canWrite h.2]
  exact ⟨rfl, rfl⟩

/-- A run that opens no log starts with the directory as it is. -/
theorem start_of_not_opens (time : Int) {o : Log.Options} (h : ¬o.Opens d) (warnings : Bytes) :
    (start d time o warnings).directory = d ∧ (start d time o warnings).logFile = none := by
  unfold start
  dsimp only
  split
  · exact ⟨rfl, rfl⟩
  · next hfile =>
    have hcan : ¬d.canWrite o.file = true := fun hcan =>
      h ⟨fun hnil => hfile (List.isEmpty_iff.mpr hnil), hcan⟩
    rw [openLogFile_of_not_canWrite hcan]
    exact ⟨rfl, rfl⟩

/-- Of the log options only the path of the log has a part in the directory that a run starts
with. -/
theorem directory_start (d : Directory) (time : Int) (o : Log.Options) (warnings : Bytes) :
    (start d time o warnings).directory =
      if o.file ≠ [] ∧ d.canWrite o.file = true then d.append o.file [] else d := by
  by_cases h : o.Opens d
  · rw [(start_of_opens time h warnings).1]
    exact (if_pos h).symm
  · rw [(start_of_not_opens time h warnings).1]
    exact (if_neg h).symm

/-- At the start a run sees every file that is not its log. -/
theorem sees_start (time : Int) {o : Log.Options} (h : ¬o.LogsTo d path) (warnings : Bytes) :
    (start d time o warnings).Sees (start d time o warnings).directory path := by
  constructor
  · rfl
  · intro f hf hsame
    by_cases hopens : o.Opens d
    · rw [(start_of_opens time hopens warnings).2] at hf
      cases hf
      exact h ⟨hopens, hsame⟩
    · rw [(start_of_not_opens time hopens warnings).2] at hf
      cases hf

end Execution

/-! ### The work of a command -/

/-- No further work changes nothing. -/
@[simp] theorem Work.andThen_nothing (w : Work) : (w.andThen fun r => { registry := r }) = w := by
  unfold andThen
  simp

namespace Command

open Execution

variable {c : Command} {o : Options} {l : Language} {p : Execution} {d : Directory}

/-- The work on the file at a path. -/
def workAt (c : Command) (o : Options) (l : Language) (d : Directory) (r : Registry)
    (path : Bytes) : Work :=
  match d.read? path with
  | none => { registry := r, events := [unreadable path], ok := false }
  | some content =>
    let s : Source := { content, name := path }
    { c.work o l r s with events := processing s :: (c.work o l r s).events }

/-- The work on the files at some paths, in order. -/
def workOn (c : Command) (o : Options) (l : Language) (d : Directory) (r : Registry) :
    List Bytes → Work
  | [] => { registry := r }
  | path :: rest => (workAt c o l d r path).andThen fun r => workOn c o l d r rest

theorem workOn_singleton (c : Command) (o : Options) (l : Language) (d : Directory) (r : Registry)
    (path : Bytes) : workOn c o l d r [path] = workAt c o l d r path :=
  Work.andThen_nothing _

/-- All work of a command. -/
def wholeWork (c : Command) (o : Options) (l : Language) (d : Directory) : Work :=
  (workOn c o l d .empty o.files).andThen (c.finish o)

/-- **The work on files that are seen is the work on the directory**, whatever is logged
meanwhile. -/
theorem workOnFiles_eq {paths : List Bytes} (h : ∀ path ∈ paths, p.Sees d path) (r : Registry) :
    (workOnFiles c o l p r paths).1.output = p.output ++ (workOn c o l d r paths).output ∧
      (workOnFiles c o l p r paths).2 =
        ((workOn c o l d r paths).registry, (workOn c o l d r paths).ok) := by
  induction paths generalizing p r with
  | nil => exact ⟨(List.append_nil p.output).symm, rfl⟩
  | cons path rest ih =>
    obtain ⟨hpath, hrest⟩ := List.forall_mem_cons.mp h
    unfold workOnFiles workOn workAt
    rw [hpath.read]
    cases d.read? path with
    | none =>
      obtain ⟨hout, hend⟩ := ih (fun q hq => (hrest q hq).report (unreadable path)) r
      constructor
      · exact hout.trans (congrArg (· ++ _) (output_report p (unreadable path)))
      · simp only [hend]
        rfl
    | some content =>
      let s : Source := { content, name := path }
      obtain ⟨hout, hend⟩ :=
        ih (fun q hq => ((hrest q hq).report (processing s)).perform (c.work o l r s))
          (c.work o l r s).registry
      constructor
      · refine hout.trans ?_
        rw [output_perform, output_report, List.append_assoc]
        rfl
      · simp only [s] at hend
        simp only [hend]
        rfl

theorem output_exit (p : Execution) (ok : Bool) : (p.exit ok).output = p.output := rfl

/-- **The output and the status of a command** whose language loads. -/
theorem run_of_language (hl : o.language? p.directory = .ok l)
    (h : ∀ path ∈ o.files, p.Sees d path) :
    (c.run o p).output = p.output ++ (wholeWork c o l d).output ∧
      (c.run o p).status = if (wholeWork c o l d).ok then 0 else 1 := by
  have hloaded : ∀ path ∈ o.files, (p.reportAll (o.languageJournal p.directory)).Sees d path :=
    fun path hpath => (h path hpath).reportAll _
  obtain ⟨hout, hend⟩ := workOnFiles_eq (c := c) (o := o) (l := l) hloaded .empty
  unfold Command.run
  simp only [hl, hend]
  constructor
  · rw [output_exit, output_flush, output_perform, hout, output_reportAll, List.append_assoc]
    rfl
  · rfl

/-- Without its language a command prints nothing and fails. -/
theorem run_of_error {e : LanguageError} (he : o.language? p.directory = .error e) :
    (c.run o p).output = p.output ∧ (c.run o p).status = 1 := by
  unfold Command.run
  simp only [he]
  constructor
  · rw [output_exit, output_flush, output_reportAll]
  · rfl

end Command

end Lexicon
