import Lexicon.Log.Options
import Lexicon.Stripped

/-!
# Commands and their options

There are three commands.  `tokens` prints the tokens of files, `map` prints them with values
replaced by keys, and `strip` prints files without literals and comments.  Options for logging may
stand among the others, and are passed over here.

## Main definitions

* `Command` — the three commands.
* `Command.Options` — what the options of a command set.
* `Command.Options.parse` — reads them from a list of arguments.
-/

namespace Lexicon

/-- What the program is asked to do. -/
inductive Command
  | tokens
  | map
  | strip
  deriving DecidableEq, Repr

namespace Command

/-- The commands. -/
def all : List Command := [tokens, map, strip]

/-- The name of a command. -/
def name : Command → Bytes
  | tokens => ascii "tokens"
  | map => ascii "map"
  | strip => ascii "strip"

/-- The command with a name. -/
def ofName? (t : Bytes) : Option Command := all.find? fun c => c.name = t

/-- What the options of a command set. -/
structure Options where
  /-- The name of a built-in language. -/
  language : Bytes := ascii "java"
  /-- The path of a definition, which is used in place of a built-in language; or nothing. -/
  definition : Bytes := []
  keep : Keep := {}
  /-- Whether the tables are printed. -/
  table : Bool := false
  /-- Whether tokens are printed with their categories and values. -/
  annotate : Bool := false
  /-- Whether numbering starts again for every file. -/
  perFile : Bool := false
  /-- The keys whose values are printed. -/
  lookups : List Bytes := []
  /-- The paths of the files. -/
  files : List Bytes := []
  deriving DecidableEq, Repr

/-- The flags of a command, which are options without a value. -/
inductive Flag
  | keepLiterals
  | keepComments
  | table
  | annotate
  | perFile
  deriving DecidableEq, Repr

namespace Flag

/-- The flags. -/
def all : List Flag := [keepLiterals, keepComments, table, annotate, perFile]

/-- A flag on the command line. -/
def argument : Flag → Bytes
  | keepLiterals => ascii "--keep-literals"
  | keepComments => ascii "--keep-comments"
  | table => ascii "--table"
  | annotate => ascii "--annotate"
  | perFile => ascii "--per-file"

/-- The flags that a command takes. -/
def takenBy : Command → List Flag
  | .tokens => []
  | .map => all
  | .strip => [keepLiterals, keepComments, table]

/-- Sets a flag. -/
def set (o : Options) : Flag → Options
  | keepLiterals => { o with keep := { o.keep with literals := true } }
  | keepComments => { o with keep := { o.keep with comments := true } }
  | table => { o with table := true }
  | annotate => { o with annotate := true }
  | perFile => { o with perFile := true }

/-- The flag of a command that an argument is. -/
def ofArgument? (c : Command) (arg : Bytes) : Option Flag :=
  (takenBy c).find? fun f => f.argument = arg

end Flag

/-- The start of the option that names a built-in language. -/
def languageOption : Bytes := ascii "--lang="

/-- The start of the option that names a definition. -/
def definitionOption : Bytes := ascii "--lang-file="

/-- The start of the option that looks up a key. -/
def lookupOption : Bytes := ascii "--lookup="

/-- The key that an argument looks up, if the command is one that looks up keys. -/
def lookup? (c : Command) (arg : Bytes) : Option Bytes :=
  if c = .map then Bytes.after? lookupOption arg else none

/-- Whether an argument can only be an option: it starts with a dash and is longer. -/
def looksLikeOption : Bytes → Bool
  | b :: _ :: _ => b = Byte.dash
  | _ => false

namespace Options

/-- Reads an argument; `none` for an option that the command does not take. -/
def read? (c : Command) (o : Options) (arg : Bytes) : Option Options :=
  if Log.isLogOption arg then some o
  else if let some name := Bytes.after? languageOption arg then some { o with language := name }
  else if let some path := Bytes.after? definitionOption arg then
    some { o with definition := path }
  else if let some f := Flag.ofArgument? c arg then some (f.set o)
  else if let some key := lookup? c arg then some { o with lookups := o.lookups ++ [key] }
  else if looksLikeOption arg then none
  else some { o with files := o.files ++ [arg] }

/-- Reads the arguments after those that gave `o`, up to an option that the command does not
take. -/
def parseFrom (c : Command) (o : Options) : List Bytes → Except Bytes Options
  | [] => .ok o
  | arg :: rest =>
    match o.read? c arg with
    | some o' => parseFrom c o' rest
    | none => .error arg

/-- Reads the arguments after the command. -/
def parse (c : Command) (args : List Bytes) : Except Bytes Options := parseFrom c {} args

end Options

end Command

end Lexicon
