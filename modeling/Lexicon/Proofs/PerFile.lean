import Lexicon.Proofs.Arguments
import Mathlib.Data.List.Basic

/-!
# Numbering by file

Where numbering starts again for every file, the registry is cleared after each of them, and what is
asked for about its keys is answered before that.  So nothing passes from a file to the next one:
the output for several files is that for each of them, one after another, under its title.

## Main definitions

* `Command.perFileArguments options files` — the arguments that ask for such numbering.
* `Command.title path` — the line above the output for a file.
* `Command.fileWork o l d path` — the work on one file alone.

## Main results

* `Command.workOn_perFile` — the work on several files is that on each of them.
* `Command.run_perFileArguments` — the output and the status of such a run.
* `Command.run_perFile` — **files are mapped as if each were alone.**
-/

namespace Lexicon
namespace Command

variable {o o' : Options} {l : Language} {d : Directory} {options files : List Bytes}

/-! ### The arguments -/

/-- The arguments that ask for mapped tokens, numbered anew for every file. -/
def perFileArguments (options files : List Bytes) : List Bytes :=
  map.name :: Flag.perFile.argument :: (options ++ files)

theorem perFile_of_read? {c : Command} {arg : Bytes} (h : o.read? c arg = some o')
    (hper : o.perFile = true) : o'.perFile = true := by
  rw [read?_of_takes (takes_of_read? h)] at h
  rw [← Option.some.inj h]
  show ((Flag.ofArgument? c arg).elim o (Flag.set o)).perFile = true
  cases Flag.ofArgument? c arg with
  | none => exact hper
  | some f =>
    cases f with
    | perFile => rfl
    | _ => exact hper

/-- No argument takes a flag back. -/
theorem perFile_of_parseFrom {c : Command} {args : List Bytes}
    (h : Options.parseFrom c o args = .ok o') (hper : o.perFile = true) : o'.perFile = true := by
  induction args generalizing o with
  | nil =>
    cases h
    exact hper
  | cons arg args ih =>
    obtain ⟨o₁, hread, hrest⟩ := parseFrom_cons_eq_ok.mp h
    exact ih hrest (perFile_of_read? hread hper)

theorem parseFrom_files {c : Command} (h : ∀ path ∈ files, looksLikeOption path = false) :
    Options.parseFrom c o files = .ok { o with files := o.files ++ files } := by
  induction files generalizing o with
  | nil => rw [List.append_nil, Options.parseFrom]
  | cons path files ih =>
    obtain ⟨hpath, hfiles⟩ := List.forall_mem_cons.mp h
    rw [Options.parseFrom, read?_of_not_looksLikeOption hpath]
    dsimp only
    rw [ih hfiles, List.append_assoc]
    rfl

/-- The files follow the options. -/
theorem parse_perFileArguments
    (hparse : Options.parse .map (Flag.perFile.argument :: options) = .ok o)
    (hoptions : ∀ arg ∈ options, looksLikeOption arg = true)
    (hfiles : ∀ path ∈ files, looksLikeOption path = false) :
    o.perFile = true ∧
      Options.parse .map (Flag.perFile.argument :: (options ++ files)) =
        .ok { o with files := files } := by
  have hnone : o.files = [] := by
    rw [files_of_parse hparse, List.filter_eq_nil_iff]
    intro arg harg
    rcases List.mem_cons.mp harg with rfl | harg
    · decide
    · rw [hoptions arg harg]
      decide
  constructor
  · exact perFile_of_parseFrom (o := { perFile := true }) hparse rfl
  · unfold Options.parse at hparse ⊢
    rw [← List.cons_append, parseFrom_append, hparse]
    show Options.parseFrom .map o files = _
    rw [parseFrom_files hfiles, hnone, List.nil_append]

/-! ### The work on each file -/

/-- The line above the output for a file. -/
def title (path : Bytes) : Bytes := Bytes.line (ascii "==> " ++ path ++ ascii " <==")

/-- The work on one file alone. -/
def fileWork (o : Options) (l : Language) (d : Directory) (path : Bytes) : Work :=
  workAt .map { o with files := [path] } l d .empty path

/-- The work on a file among others differs by the title of the file. -/
theorem workAt_perFile (hper : o.perFile = true) (htwo : 2 ≤ files.length) (path : Bytes) :
    (workAt .map { o with files := files } l d .empty path).registry = .empty ∧
      (workAt .map { o with files := files } l d .empty path).ok = (fileWork o l d path).ok ∧
      (workAt .map { o with files := files } l d .empty path).output =
        if (d.read? path).isSome then title path ++ (fileWork o l d path).output else [] := by
  unfold fileWork workAt
  cases d.read? path with
  | none => exact ⟨rfl, rfl, rfl⟩
  | some content =>
    let s : Source := { content, name := path }
    have hempty : (mapWork o l .empty s).registry = .empty := by
      unfold mapWork
      rw [if_pos hper]
      rfl
    have htitle : heading { o with files := files } s = title path := if_pos htwo
    have hnone : heading { o with files := [path] } s = [] := if_neg (Nat.lt_irrefl 1)
    refine ⟨hempty, rfl, ?_⟩
    show heading { o with files := files } s ++ (mapWork o l .empty s).output =
      title path ++ (heading { o with files := [path] } s ++ (mapWork o l .empty s).output)
    rw [htitle, hnone, List.nil_append]

/-- **The work on several files is that on each of them**, under its title. -/
theorem workOn_perFile (hper : o.perFile = true) (htwo : 2 ≤ files.length) (paths : List Bytes) :
    (workOn .map { o with files := files } l d .empty paths).output =
        (paths.filter fun path => (d.read? path).isSome).flatMap
          (fun path => title path ++ (fileWork o l d path).output) ∧
      (workOn .map { o with files := files } l d .empty paths).ok =
        paths.all fun path => (fileWork o l d path).ok := by
  induction paths with
  | nil => exact ⟨rfl, rfl⟩
  | cons path paths ih =>
    obtain ⟨hregistry, hok, houtput⟩ := workAt_perFile (l := l) (d := d) hper htwo path
    unfold workOn Work.andThen
    dsimp only
    rw [hregistry, hok, houtput, ih.1, ih.2, List.filter_cons]
    constructor
    · cases (d.read? path).isSome <;> rfl
    · rfl

/-- What is asked for about the keys is answered file by file, and not at the end. -/
theorem andThen_finish_perFile (hper : o.perFile = true) (w : Work) :
    w.andThen (finish .map o) = w := by
  have hnothing : finish .map o = fun r => { registry := r } := by
    funext r
    exact if_pos hper
  rw [hnothing, Work.andThen_nothing]

end Command

/-! ### The run -/

open Command

variable {o : Options} {l : Language} {d : Directory} {options files : List Bytes}

theorem not_isLogOption_of_mem_perFileArguments
    (hoptions : ∀ arg ∈ options, looksLikeOption arg = true ∧ Log.isLogOption arg = false)
    (hfiles : ∀ path ∈ files, looksLikeOption path = false) :
    ∀ arg ∈ perFileArguments options files, Log.isLogOption arg = false := by
  intro arg harg
  rcases List.mem_cons.mp harg with rfl | harg
  · decide
  rcases List.mem_cons.mp harg with rfl | harg
  · decide
  rcases List.mem_append.mp harg with harg | harg
  · exact (hoptions arg harg).2
  · rw [Bool.eq_false_iff]
    intro hlog
    have hlooks := looksLikeOption_of_isLogOption hlog
    rw [hfiles arg harg] at hlooks
    cases hlooks

/-- **The output and the status of a run that numbers by file.** -/
theorem run_perFileArguments (environment : Bytes) (time : Int)
    (hoptions : ∀ arg ∈ options, looksLikeOption arg = true ∧ Log.isLogOption arg = false)
    (hparse : Options.parse .map (Flag.perFile.argument :: options) = .ok o)
    (hl : o.language? d = .ok l) (hfiles : ∀ path ∈ files, looksLikeOption path = false)
    (hne : files ≠ []) :
    (run (perFileArguments options files) environment d time).output =
        (workOn .map { o with files := files } l d .empty files).output ∧
      (run (perFileArguments options files) environment d time).status =
        if (workOn .map { o with files := files } l d .empty files).ok then 0 else 1 := by
  obtain ⟨hper, hparse⟩ :=
    parse_perFileArguments hparse (fun arg harg => (hoptions arg harg).1) hfiles
  have hlog := Log.file_parse_eq_nil (fun arg harg =>
    Log.not_isLogFile (not_isLogOption_of_mem_perFileArguments hoptions hfiles arg harg)) environment
  have hwhole : wholeWork .map { o with files := files } l d =
      workOn .map { o with files := files } l d .empty files :=
    andThen_finish_perFile (o := { o with files := files }) hper _
  rw [← hwhole]
  exact run_of_file_eq_nil .map environment time hlog hparse hne hl

/-- A run on one file alone prints no title. -/
theorem run_perFileArguments_singleton (environment : Bytes) (time : Int)
    (hoptions : ∀ arg ∈ options, looksLikeOption arg = true ∧ Log.isLogOption arg = false)
    (hparse : Options.parse .map (Flag.perFile.argument :: options) = .ok o)
    (hl : o.language? d = .ok l) {path : Bytes} (hpath : looksLikeOption path = false) :
    (run (perFileArguments options [path]) environment d time).output =
        (fileWork o l d path).output ∧
      (run (perFileArguments options [path]) environment d time).status =
        if (fileWork o l d path).ok then 0 else 1 := by
  have hfiles : ∀ q ∈ [path], looksLikeOption q = false := by
    intro q hq
    rw [List.mem_singleton.mp hq]
    exact hpath
  have hwork : workOn .map { o with files := [path] } l d .empty [path] = fileWork o l d path :=
    workOn_singleton _ _ _ _ _ path
  rw [← hwork]
  exact run_perFileArguments environment time hoptions hparse hl hfiles (List.cons_ne_nil path [])

/-- A run succeeds if each of its parts does. -/
theorem max?_statuses (ok : Bytes → Bool) (hne : files ≠ []) :
    (files.map fun path => if ok path then 0 else 1).max? =
      some (if files.all ok then 0 else 1) := by
  rw [List.max?_eq_some_iff]
  cases hall : files.all ok with
  | true =>
    rw [List.all_eq_true] at hall
    obtain ⟨path, hpath⟩ := List.exists_mem_of_ne_nil files hne
    constructor
    · exact List.mem_map.mpr ⟨path, hpath, if_pos (hall path hpath)⟩
    · intro n hn
      obtain ⟨path, hpath, rfl⟩ := List.mem_map.mp hn
      rw [if_pos (hall path hpath)]
      exact Nat.le_refl 0
  | false =>
    obtain ⟨path, hpath, hfails⟩ := List.all_eq_false.mp hall
    constructor
    · exact List.mem_map.mpr ⟨path, hpath, if_neg hfails⟩
    · intro n hn
      obtain ⟨path, -, rfl⟩ := List.mem_map.mp hn
      split <;> decide

/-- **Files are mapped as if each were alone.**  Where numbering starts again for every file, the
output for several files is that of the runs on each of those that can be read, under its title, and
the status is the greatest of the runs on each of them. -/
theorem run_perFile (environment : Bytes) (time : Int)
    (hoptions : ∀ arg ∈ options, looksLikeOption arg = true ∧ Log.isLogOption arg = false)
    (hparse : Options.parse .map (Flag.perFile.argument :: options) = .ok o)
    (hl : o.language? d = .ok l) (hfiles : ∀ path ∈ files, looksLikeOption path = false)
    (htwo : 2 ≤ files.length) :
    (run (perFileArguments options files) environment d time).output =
        (files.filter fun path => (d.read? path).isSome).flatMap (fun path =>
          title path ++ (run (perFileArguments options [path]) environment d time).output) ∧
      (files.map fun path =>
          (run (perFileArguments options [path]) environment d time).status).max? =
        some (run (perFileArguments options files) environment d time).status := by
  have hne : files ≠ [] := by
    rintro rfl
    exact absurd htwo (by decide)
  have hper : o.perFile = true :=
    (parse_perFileArguments hparse (fun arg harg => (hoptions arg harg).1) hfiles).1
  have halone := fun path (hpath : path ∈ files) =>
    run_perFileArguments_singleton environment time hoptions hparse hl (hfiles path hpath)
  obtain ⟨hout, hstatus⟩ := run_perFileArguments environment time hoptions hparse hl hfiles hne
  obtain ⟨hworkOut, hworkOk⟩ := workOn_perFile (l := l) (d := d) hper htwo files
  constructor
  · rw [hout, hworkOut]
    apply List.flatMap_congr
    intro path hpath
    rw [(halone path (List.mem_filter.mp hpath).1).1]
  · rw [hstatus, hworkOk, ← max?_statuses _ hne]
    congr 1
    exact List.map_congr_left fun path hpath => (halone path hpath).2

/-- A file that is missing between two others, of which one is given again. -/
theorem run_perFile_missing :
    (run (["map", "--per-file", "--lookup=:o0", "a", "gone", "b", "a"].map ascii) []
        (.flat [(ascii "a", ascii "x"), (ascii "b", ascii "y")]) 0).output =
      ascii "==> a <==\n:o0\n:o0\tx\n==> b <==\n:o0\n:o0\ty\n==> a <==\n:o0\n:o0\tx\n" ∧
    (run (["map", "--per-file", "--lookup=:o0", "a", "gone", "b", "a"].map ascii) []
        (.flat [(ascii "a", ascii "x"), (ascii "b", ascii "y")]) 0).status = 1 := by
  have hoptions : ∀ arg ∈ [ascii "--lookup=:o0"],
      looksLikeOption arg = true ∧ Log.isLogOption arg = false := by decide
  have hparse : Options.parse .map (Flag.perFile.argument :: [ascii "--lookup=:o0"]) =
      .ok { perFile := true, lookups := [ascii ":o0"] } := rfl
  have hfiles : ∀ path ∈ ["a", "gone", "b", "a"].map ascii, looksLikeOption path = false := by
    decide
  obtain ⟨houtput, hstatus⟩ := run_perFile (l := .java)
    (d := .flat [(ascii "a", ascii "x"), (ascii "b", ascii "y")]) [] 0 hoptions hparse rfl hfiles
    (by decide)
  constructor
  · exact houtput.trans (by decide +kernel)
  · exact (Option.some.inj hstatus).symm.trans (by decide +kernel)

end Lexicon
