import Lexicon.Command.Help
import Lexicon.Command.Language
import Lexicon.Command.Execution
import Lexicon.Command.Work

/-!
# Running a command line

A run is a function of the arguments, the environment's text for logging, the directory and the
time.  It has a status, two streams of output, and the directory afterwards.

## Main definitions

* `Outcome` — the result of a run.
* `Command.run` — a command with its options.
* `run` — a command line.
-/

namespace Lexicon

open Journal

/-- The result of a run. -/
structure Outcome where
  /-- Zero for success, one for failure. -/
  status : Nat
  output : Bytes
  errors : Bytes
  directory : Directory

namespace Execution

/-- The result of a run that ends here. -/
def exit (p : Execution) (ok : Bool) : Outcome where
  status := if ok then 0 else 1
  output := p.output
  errors := p.errors
  directory := p.directory

/-- Carries out a piece of work. -/
def perform (p : Execution) (w : Work) : Execution := (p.print w.output).reportAll w.events

end Execution

namespace Command

/-- What is reported before the work on a source. -/
def processing (s : Source) : Log.Event :=
  event .debug .cli
    (ascii "Processing " ++ s.name ++ ascii " (" ++ number s.length ++ ascii " bytes, " ++
      number s.lineCount ++ ascii " lines)")

/-- What is reported about a file that cannot be read. -/
def unreadable (path : Bytes) : Log.Event :=
  event .error .cli (ascii "Failed to open file: " ++ path)

/-- Works on the files at some paths, in order, and passes over those that cannot be read.  The
result is the run and the registry afterwards, and whether everything succeeded. -/
def workOnFiles (c : Command) (o : Options) (l : Language) (p : Execution) (r : Registry) :
    List Bytes → Execution × Registry × Bool
  | [] => (p, r, true)
  | path :: rest =>
    match p.directory.read? path with
    | none =>
      let later := workOnFiles c o l (p.report (unreadable path)) r rest
      (later.1, later.2.1, false)
    | some content =>
      let s : Source := { content, name := path }
      let w := c.work o l r s
      let later := workOnFiles c o l ((p.report (processing s)).perform w) w.registry rest
      (later.1, later.2.1, w.ok && later.2.2)

/-- Carries out a command. -/
def run (c : Command) (o : Options) (p : Execution) : Outcome :=
  -- the definition is read before the report of it is written, perhaps to the same file
  let loaded := p.reportAll (o.languageJournal p.directory)
  match o.language? p.directory with
  | .error _ => loaded.flush.exit false
  | .ok l =>
    let worked := workOnFiles c o l loaded .empty o.files
    let last := c.finish o worked.2.1
    (worked.1.perform last).flush.exit (worked.2.2 && last.ok)

/-- What is said about an option that a command does not take. -/
def unknownOption (c : Command) (arg : Bytes) : Bytes :=
  Bytes.line (ascii "error: unknown option '" ++ arg ++ ascii "' for '" ++ c.name ++ ascii "'")

/-- What is said about a command without files. -/
def noFiles (c : Command) : Bytes :=
  Bytes.line (ascii "Usage: tokmap " ++ c.name ++ ascii " [options] <files...>")

/-- What is said about a command that does not exist. -/
def unknownCommand (name : Bytes) : Bytes :=
  Bytes.line (Bytes.line (ascii "error: unknown command '" ++ name ++ ascii "'"))

/-- Reads the options of a command, and carries it out. -/
def runWith (c : Command) (args : List Bytes) (p : Execution) : Outcome :=
  match Options.parse c args with
  | .error arg => (p.printError (c.unknownOption arg)).exit false
  | .ok o => if o.files.isEmpty then (p.printError c.noFiles).exit false else c.run o p

/-- Does what a list of arguments asks for.  The first of them is the command, even if it reads as
an option for logging. -/
def dispatch (p : Execution) : List Bytes → Outcome
  | [] => (p.print usage).exit true
  | first :: args =>
    if first = ascii "--help" || first = ascii "-h" then (p.print usage).exit true
    else if first = ascii "--version" || first = ascii "-V" then (p.print version).exit true
    else
      match ofName? first with
      | none => ((p.printError (unknownCommand first)).print usage).exit false
      | some c => c.runWith args p

end Command

/-- Runs the program with a list of arguments. -/
def run (args : List Bytes) (environment : Bytes) (d : Directory) (time : Int) : Outcome :=
  let logging := Log.Options.parse args environment
  Command.dispatch (Execution.start d time logging.1 logging.2) args

end Lexicon
