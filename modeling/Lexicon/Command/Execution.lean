import Lexicon.Log.File
import Lexicon.Log.Logger
import Lexicon.Log.Options

/-!
# Executions

An execution is a run of the program: what it has printed so far, the directory it sees, and its
logger.  Log lines go to the error stream, and to a log file if one is named.

## Main definitions

* `Execution` — the state of a run.
* `Execution.start` — a run before its command.
* `Execution.print`, `printError`, `report` — printing and logging.
-/

namespace Lexicon

open Log

/-- Where the lines of a logger go. -/
inductive Sink
  | console
  | file
  deriving DecidableEq, Repr

/-- The state of a run. -/
structure Execution where
  directory : Directory
  /-- The time of the run, in milliseconds since the epoch. -/
  time : Int
  output : Bytes := []
  errors : Bytes := []
  logger : Logger Sink := .initial
  format : Format := .text
  logFile : Option File := none

namespace Execution

/-- Prints on the output stream. -/
def print (p : Execution) (t : Bytes) : Execution := { p with output := p.output ++ t }

/-- Prints on the error stream. -/
def printError (p : Execution) (t : Bytes) : Execution := { p with errors := p.errors ++ t }

/-- The record of an event at the time of the run. -/
def recordOf (p : Execution) (e : Event) : Record := { toEvent := e, time := p.time }

/-- Passes records to a sink. -/
def deliver (p : Execution) (records : List Record) : Sink → Execution
  | .console => p.printError (records.flatMap fun r => r.format p.format)
  | .file =>
    match p.logFile with
    | none => p
    | some f =>
      let taken := f.take records p.directory
      { p with logFile := some taken.1, directory := taken.2 }

/-- Reports events in order: each sink receives those that the logger lets through. -/
def reportAll (p : Execution) (events : List Event) : Execution :=
  let records := (events.filter fun e => p.logger.accepts e.level e.origin).map p.recordOf
  p.logger.sinks.foldl (fun p s => p.deliver records s) p

/-- Reports an event. -/
def report (p : Execution) (e : Event) : Execution := p.reportAll [e]

/-- Writes what waits in the log file. -/
def flush (p : Execution) : Execution :=
  match p.logFile with
  | none => p
  | some f =>
    let flushed := f.flush p.directory
    { p with logFile := some flushed.1, directory := flushed.2 }

/-- Adds a log file, or says on the error stream that it cannot be opened. -/
def openLogFile (p : Execution) (path : Bytes) : Execution :=
  match File.open? p.directory path p.format true with
  | some (f, d) =>
    { p with logFile := some f, directory := d, logger := p.logger.addSink .file }
  | none =>
    p.printError (Bytes.line (ascii "warning: could not open log file: " ++ path))

/-- A run that logs as its options say. -/
def start (d : Directory) (time : Int) (o : Log.Options) (warnings : Bytes) : Execution :=
  let p : Execution :=
    { directory := d
      time
      errors := warnings
      logger := (Logger.init o.level o.filter).addSink .console
      format := o.format }
  if o.file.isEmpty then p else p.openLogFile o.file

end Execution

end Lexicon
