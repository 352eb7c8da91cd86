import Lexicon.Log.Level
import Lexicon.Log.Record

/-!
# Log options

The logging of a run is set by options on the command line, and by a text in the environment if
the options set neither a level nor a filter.  An option that sets a level counts more than the
number of `v` flags.

## Main definitions

* `Options` — what the options set.
* `isLogOption` — whether an argument is one of the options.
* `Options.parse` — reads the options among a list of arguments, and the environment.
-/

namespace Lexicon.Log

/-- How a run logs. -/
structure Options where
  level : Level := .warn
  format : Format := .text
  /-- The text of the filter, or nothing. -/
  filter : Bytes := []
  /-- The path of a file that is logged to, or nothing. -/
  file : Bytes := []
  deriving DecidableEq, Repr, Inhabited

/-- The start of the option that sets the level. -/
def levelOption : Bytes := ascii "--log-level="

/-- The start of the option that sets the filter. -/
def filterOption : Bytes := ascii "--log-filter="

/-- The start of the option that names a file. -/
def fileOption : Bytes := ascii "--log-file="

/-- The start of the option that sets the format. -/
def formatOption : Bytes := ascii "--log-format="

/-- The number of flags in an argument such as `-vv`, at most three; zero for other arguments. -/
def verbosity : Bytes → Nat
  | [] => 0
  | b :: flags =>
    if b = Byte.dash && flags.all (· == 118) then min flags.length 3 else 0

/-- Whether an argument asks for errors only. -/
def isQuiet (arg : Bytes) : Bool := arg = ascii "-q" || arg = ascii "--quiet"

/-- Whether an argument is an option for logging. -/
def isLogOption (arg : Bytes) : Bool :=
  levelOption.isPrefixOf arg || filterOption.isPrefixOf arg || fileOption.isPrefixOf arg ||
    formatOption.isPrefixOf arg || isQuiet arg || arg = ascii "--verbose" || 0 < verbosity arg

/-- The level for a number of flags. -/
def levelOfVerbosity : Nat → Level
  | 1 => .info
  | 2 => .debug
  | _ => .trace

/-- What was read of the options so far. -/
structure OptionReader where
  options : Options := {}
  /-- The level that an option sets. -/
  explicit : Option Level := none
  /-- The largest number of flags. -/
  flags : Nat := 0
  /-- The names that are no levels, in order. -/
  unknown : List Bytes := []
  deriving Repr

namespace OptionReader

/-- Reads an argument.  Arguments that are not for logging change nothing. -/
def read (r : OptionReader) (arg : Bytes) : OptionReader :=
  if let some name := Bytes.after? levelOption arg then
    match Level.ofName? name with
    | some l => { r with explicit := some l }
    | none => { r with unknown := r.unknown ++ [name] }
  else if let some spec := Bytes.after? filterOption arg then
    { r with options := { r.options with filter := spec } }
  else if let some path := Bytes.after? fileOption arg then
    { r with options := { r.options with file := path } }
  else if let some format := Bytes.after? formatOption arg then
    let isJson := format = ascii "json" || format = ascii "JSON"
    { r with options := { r.options with format := if isJson then .json else .text } }
  else if isQuiet arg then { r with explicit := some .error }
  else if arg = ascii "--verbose" then { r with flags := max r.flags 1 }
  else { r with flags := max r.flags (verbosity arg) }

/-- The level that the arguments set, by an option or by flags. -/
def level? (r : OptionReader) : Option Level :=
  r.explicit <|> if 0 < r.flags then some (levelOfVerbosity r.flags) else none

/-- What the environment's text sets if the arguments leave it to the environment: a filter, if it
has an equals sign or a comma, else a level, else a filter of one origin. -/
def withEnvironment (o : Options) (text : Bytes) : Options :=
  if text.any fun b => b = Byte.equals || b = Byte.comma then { o with filter := text }
  else if text.isEmpty then o
  else
    match Level.ofName? text with
    | some l => { o with level := l }
    | none => { o with filter := text }

/-- The options that were read, completed by the environment's text. -/
def finish (r : OptionReader) (environment : Bytes) : Options :=
  match r.level? with
  | some l => { r.options with level := l }
  | none =>
    if r.options.filter.isEmpty then withEnvironment r.options environment else r.options

end OptionReader

/-- The warning about a name that is no level. -/
def unknownLevelWarning (name : Bytes) : Bytes :=
  Bytes.line (ascii "warning: unknown log level '" ++ name ++ ascii "'")

/-- The options among a list of arguments, completed by the environment's text, and the warnings
about them. -/
def Options.parse (args : List Bytes) (environment : Bytes) : Options × Bytes :=
  let reader := args.foldl OptionReader.read {}
  (reader.finish environment, reader.unknown.flatMap unknownLevelWarning)

end Lexicon.Log
