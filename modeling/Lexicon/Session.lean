import Lexicon.Grouping
import Lexicon.Language.Builtin
import Lexicon.Step
import Lexicon.Stripped

/-!
# Sessions

A session tokenizes texts of one language, and keeps the values that it names in one registry.
Plain tokenizing needs no language: without one, tokens are separated by white space.

## Main definitions

* `Session` — the language, if any, and the registry.
* `Session.tokenize` — the tokens of a text, without literals and comments.
* `Session.map` — the tokens of a text with values replaced by keys.
* `Session.restore` — the texts behind a list of tokens.
-/

namespace Lexicon

/-- A language, if any, and the values that were named so far. -/
structure Session where
  language : Option Language := none
  registry : Registry := {}
  deriving DecidableEq, Repr

/-- Why a text cannot be mapped. -/
inductive MapError
  /-- There is no language to tell names from keywords. -/
  | noLanguage
  deriving DecidableEq, Repr

/-- The text of an error. -/
def MapError.message : MapError → Bytes
  | noLanguage => ascii "No language configured for identifier mapping"

/-- The scanned tokens of a text, and the registry with the literals and comments that were
named. -/
def Registry.scan (r : Registry) (l : Language) (keep : Keep) (text : Bytes) :
    List Token × Registry :=
  (l.scanTokens (r.strip keep text).1, (r.strip keep text).2)

/-- The mapped tokens of a text, and the registry with the values that were named. -/
def Registry.map (r : Registry) (l : Language) (keep : Keep) (text : Bytes) :
    List Token × Registry :=
  (r.scan l keep text).2.reassemble l (r.scan l keep text).1

/-- The tokens of a text without its literals and comments, and the registry afterwards. -/
def Registry.tokenize (r : Registry) (l : Language) (text : Bytes) : List Bytes × Registry :=
  (l.scan (render (r.strip {} text).1), (r.strip {} text).2)

namespace Session

/-- The session that uses another language, or none. -/
def withLanguage (s : Session) (l : Option Language) : Session := { s with language := l }

/-- The language that separates tokens in plain tokenizing. -/
def separators (s : Session) : Language := s.language.getD .whitespace

/-- The tokens of a text without its literals and comments, and the session afterwards. -/
def tokenize (s : Session) (text : Bytes) : List Bytes × Session :=
  ((s.registry.tokenize s.separators text).1,
    { s with registry := (s.registry.tokenize s.separators text).2 })

/-- The mapped tokens of a text, and the session afterwards. -/
def map (s : Session) (keep : Keep) (text : Bytes) : Except MapError (List Token × Session) :=
  match s.language with
  | none => .error .noLanguage
  | some l =>
    .ok ((s.registry.map l keep text).1, { s with registry := (s.registry.map l keep text).2 })

/-- The texts behind a list of tokens. -/
def restore (s : Session) (tokens : List Token) : List Bytes := tokens.map s.registry.restore

/-- Forgets all values. -/
def clear (s : Session) : Session := { s with registry := .empty }

end Session

end Lexicon
