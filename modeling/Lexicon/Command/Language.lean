import Lexicon.Command.Options
import Lexicon.Directory
import Lexicon.Journal

/-!
# The language of a run

A run uses a built-in language, or one that a definition gives.  A definition without a name is
named for its path.
-/

namespace Lexicon.Command

open Journal

/-- Why there is no language. -/
inductive LanguageError
  | unknown (name : Bytes)
  | unreadable (path : Bytes)
  | faulty (path text : Bytes) (f : Fault)
  deriving DecidableEq, Repr

/-- The text of an error. -/
def LanguageError.message : LanguageError → Bytes
  | unknown name =>
    ascii "Unknown language '" ++ name ++ ascii "' (built-in: " ++
      (ascii ", ").intercalate (Language.builtins.map (·.name)) ++ ascii ")"
  | unreadable path => ascii "Failed to open language file: " ++ path
  | faulty path text f => path ++ ascii ": " ++ f.message text

/-- The language with a name. -/
def builtinLanguage (name : Bytes) : Except LanguageError Language :=
  match Language.builtin? name with
  | some l => .ok l
  | none => .error (.unknown name)

/-- The language that the text of a definition gives. -/
def definedLanguage (path text : Bytes) : Except LanguageError Language :=
  match Language.read text with
  | .ok l => .ok (if l.name.isEmpty then { l with name := path } else l)
  | .error f => .error (.faulty path text f)

/-- The language that the options name. -/
def Options.language? (o : Options) (d : Directory) : Except LanguageError Language :=
  if o.definition.isEmpty then builtinLanguage o.language
  else
    match d.read? o.definition with
    | none => .error (.unreadable o.definition)
    | some text => definedLanguage o.definition text

/-- What is reported about a language that a definition gives. -/
def definitionLoaded (l : Language) (path : Bytes) : List Log.Event :=
  let message := ascii "Loaded language '" ++ l.name ++ ascii "' from " ++ path
  [event .debug .language message, event .info .cli message]

/-- What is reported while the language is loaded. -/
def Options.languageJournal (o : Options) (d : Directory) : List Log.Event :=
  let text := if o.definition.isEmpty then none else d.read? o.definition
  (text.map Journal.definition).getD [] ++
    match o.language? d with
    | .error e => [event .error .cli e.message]
    | .ok l =>
      (if o.definition.isEmpty then [] else definitionLoaded l o.definition) ++ Journal.language l

end Lexicon.Command
