import Lexicon.Directory
import Lexicon.Log.Record

/-!
# Log files

A log file collects the lines of its records and writes them together: when a line is long, when
there is no room for another line, when a record is at least an error, and when it is flushed.

## Main definitions

* `File` — a log file, and the lines that wait.
* `File.open?` — opens the file at a path.
* `File.take`, `File.flush` — take records, and write what waits.
-/

namespace Lexicon.Log

/-- A log file, and what waits to be written to it. -/
structure File where
  path : Bytes
  format : Format := .text
  waiting : Bytes := []
  deriving DecidableEq, Repr

namespace File

/-- The number of bytes that can wait. -/
def capacity : Nat := 8191

/-- The number of bytes from which on a line does not wait. -/
def longLine : Nat := 1024

/-- Opens the file at a path, if that can be done.  The file keeps its content if `append` holds,
and loses it otherwise. -/
def open? (d : Directory) (path : Bytes) (format : Format) (append : Bool) :
    Option (File × Directory) :=
  if d.canWrite path then
    some ({ path, format }, if append then d.append path [] else d.write path [])
  else none

/-- Writes what waits. -/
def flush (f : File) (d : Directory) : File × Directory :=
  ({ f with waiting := [] }, d.append f.path f.waiting)

/-- Whether what waits is written once a record is taken whose line, after what waited, makes
`filled`. -/
def isDue (r : Record) (line filled : Bytes) : Bool :=
  longLine ≤ line.length || capacity ≤ filled.length || .error ≤ r.level

/-- What is written, and what waits afterwards, if some records are taken while `waiting` waits. -/
def settle (format : Format) (waiting : Bytes) : List Record → Bytes × Bytes
  | [] => ([], waiting)
  | r :: rest =>
    let line := r.format format
    let filled := waiting ++ line
    if isDue r line filled then
      let later := settle format [] rest
      (filled ++ later.1, later.2)
    else settle format filled rest

/-- Takes the lines of some records, in order. -/
def take (f : File) (records : List Record) (d : Directory) : File × Directory :=
  let settled := settle f.format f.waiting records
  ({ f with waiting := settled.2 }, d.append f.path settled.1)

end File

end Lexicon.Log
