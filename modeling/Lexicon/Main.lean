import Lexicon.Command.Run
import Std.Time.DateTime.Timestamp

/-!
# The command line

Runs the program on the arguments, the environment and the files of a real machine.  The files
that the arguments can name are read before the run, and those that it changed are written after
it.
-/

namespace Lexicon.Command

/-- The paths that an argument can name: itself, and what follows its equals sign. -/
def pathsIn (arg : Bytes) : List Bytes :=
  [arg, (arg.dropWhile (· != Byte.equals)).drop 1]

/-- The text of a path. -/
def pathText (path : Bytes) : String := (String.fromUTF8? ⟨path.toArray⟩).getD ""

/-- The content of the file at a path, if it can be read. -/
def readFile? (path : Bytes) : IO (Option Bytes) := do
  try
    return some (← IO.FS.readBinFile (pathText path)).data.toList
  catch _ => return none

/-- Whether the file at a path can be opened for logging.  It is made if there is none. -/
def canLogTo (path : Bytes) : IO Bool := do
  try
    let _ ← IO.FS.Handle.mk (pathText path) .append
    return true
  catch _ => return false

/-- The directory as a run of the program sees it. -/
def directoryFor (args : List Bytes) (logFile : Bytes) : IO Directory := do
  let logged ← if logFile.isEmpty then pure false else canLogTo logFile
  let paths := ((args.flatMap pathsIn).filter fun path => !path.isEmpty).eraseDups
  let found ← paths.filterMapM fun path => do
    return (← readFile? path).map fun content => (Directory.localPath path, content)
  return { files := found, canMake := fun path => logged && path = Directory.localPath logFile }

end Lexicon.Command

open Lexicon in
/-- Runs the program, prints its output, and writes the files that it changed. -/
def main (arguments : List String) : IO UInt32 := do
  let args := arguments.map ascii
  let environment := ascii ((← IO.getEnv "TOKMAP_LOG").getD "")
  let logging := (Log.Options.parse args environment).1
  let directory ← Command.directoryFor args logging.file
  let now ← Std.Time.Timestamp.now
  let outcome := run args environment directory now.toMillisecondsSinceUnixEpoch.val
  (← IO.getStdout).write ⟨outcome.output.toArray⟩
  (← IO.getStderr).write ⟨outcome.errors.toArray⟩
  for (path, content) in outcome.directory.files do
    if directory.read? path != some content then
      IO.FS.writeBinFile (Command.pathText path) ⟨content.toArray⟩
  return outcome.status.toUInt32
