import Lexicon.Definition
import Lexicon.Log.Record
import Lexicon.Session

/-!
# The journal

What the operations report while they work.  An operation and its report are separate functions
of the same arguments, so a result never depends on what is logged.

## Main definitions

* `Journal.language`, `Journal.definition` — for the making of a language.
* `Journal.strip`, `Journal.scan`, `Journal.scanTokens`, `Journal.group`, `Journal.reassemble` —
  for the stages.
* `Journal.tokenize`, `Journal.map` — for whole texts.
-/

namespace Lexicon.Journal

open Log

/-- A number as it stands in a message. -/
abbrev number (n : Nat) : Bytes := Bytes.decimal n

/-- The origins of events. -/
inductive Origin
  | cli
  | language
  | reassemble
  | registry
  | scan
  | strip
  | tokenizer
  deriving DecidableEq, Repr

/-- The name of an origin. -/
def Origin.name : Origin → Bytes
  | cli => ascii "cli"
  | language => ascii "language"
  | reassemble => ascii "reassemble"
  | registry => ascii "registry"
  | scan => ascii "scan"
  | strip => ascii "strip"
  | tokenizer => ascii "tokenizer"

/-- An event of one of the origins. -/
def event (l : Level) (o : Origin) (message : Bytes) : Event := ⟨l, o.name, message⟩

/-! ### Languages -/

/-- The making of a language: its entries without effect, and its size. -/
def language (l : Language) : List Event :=
  List.replicate l.emptyEntries
      (event .warn .language (ascii "Ignoring empty entry in language '" ++ l.name ++ ascii "'")) ++
    [event .debug .language
      (ascii "Language '" ++ l.name ++ ascii "': " ++ number l.keywordCount ++
        ascii " keywords, " ++ number l.delimiterCount ++ ascii " delimiters, lookahead " ++
        number l.lookahead)]

/-- The reading of a definition: the keys that have no meaning. -/
def definition (text : Bytes) : List Event :=
  (Language.unknownKeys text).map fun u =>
    event .warn .language
      (ascii "Line " ++ number u.2 ++ ascii ": ignoring unknown key '" ++ u.1 ++ ascii "'")

/-- The change to another language, or to none. -/
def languageSet (l : Option Language) : List Event :=
  [event .debug .tokenizer
    (ascii "Language set to " ++ (l.map (·.name)).getD (ascii "<none>"))]

/-! ### Values -/

/-- The naming of a number or a chain. -/
def found : Category → Bytes → List Event
  | .primitive, v => [event .trace .reassemble (ascii "Primitive " ++ v)]
  | .object, v => [event .trace .reassemble (ascii "Object " ++ v)]
  | _, _ => []

/-- The numbering of a value, if its table grows by it. -/
def numbered (r : Registry) (c : Category) (v : Bytes) : List Event :=
  if ((r.add c v).2.table c).size = (r.table c).size then []
  else
    [event .trace .registry
      (ascii "New " ++ c.name ++ Byte.space :: (r.add c v).1.display)]

/-- The naming of the values of a list of lexemes. -/
def assign (r : Registry) : List Lexeme → List Event
  | [] => []
  | .kept _ :: rest => assign r rest
  | .named c v :: rest => found c v ++ numbered r c v ++ assign (r.add c v).2 rest

/-- The clearing of a registry. -/
def cleared : List Event := [event .debug .registry (ascii "Cleared all category tables")]

/-! ### Stages -/

/-- What stripping drops of a fragment. -/
def dropped : Fragment → List Event
  | .openLiteral _ body =>
    [event .debug .strip
      (ascii "Dropping unterminated literal (" ++ number body.length ++ ascii " bytes)")]
  | .openComment body =>
    [event .debug .strip
      (ascii "Dropping unterminated block comment (" ++ number body.length ++ ascii " bytes)")]
  | _ => []

/-- Whether a fragment is a literal with both quotes. -/
def isLiteral : Fragment → Bool
  | .literal _ _ => true
  | _ => false

/-- Whether a fragment is a comment that ends. -/
def isComment : Fragment → Bool
  | .lineComment _ _ | .blockComment _ => true
  | _ => false

/-- The stripping of a source text. -/
def strip (r : Registry) (keep : Keep) (text : Bytes) : List Event :=
  let fragments := Fragment.split text
  assign r (strippedLexemes keep text) ++ fragments.flatMap dropped ++
    [event .debug .strip
      (ascii "Stripped " ++ number (fragments.countP isLiteral) ++ ascii " literals and " ++
        number (fragments.countP isComment) ++ ascii " comments from " ++ number text.length ++
        ascii " bytes")]

/-- The spacing delimiters of the steps of a text, which starts at position `pos`. -/
def spacing (l : Language) (pos : Nat) : List Step → List Event
  | [] => []
  | s :: rest =>
    let start := pos + s.run.length
    (if l.isSpace s.delimiter then
      [event .trace .scan (ascii "Spacing delimiter at " ++ number start)]
    else []) ++ spacing l (start + s.delimiter.length) rest

/-- The number of tokens that a scan found. -/
def scanned (tokens size : Nat) (unit : Bytes) : Event :=
  event .debug .scan
    (ascii "Scanned " ++ number tokens ++ ascii " tokens from " ++ number size ++
      Byte.space :: unit)

/-- The scanning of a text. -/
def scan (l : Language) (text : Bytes) : List Event :=
  spacing l 0 (l.steps text) ++ [scanned (l.scan text).length text.length (ascii "bytes")]

/-- The scanning of a stripped text. -/
def scanTokens (l : Language) (stripped : List Token) : List Event :=
  (stripped.filterMap Token.text?).flatMap (fun t => spacing l 0 (l.steps t)) ++
    [scanned (l.scanTokens stripped).length stripped.length (ascii "segments")]

/-- A pass over a list of tokens. -/
def group (r : Registry) (l : Language) (p : Pass) (tokens : List Token) : List Event :=
  assign r (p.lexemes l tokens)

/-- Some passes, one after the other. -/
def groupAll (r : Registry) (l : Language) (tokens : List Token) : List Pass → List Event
  | [] => []
  | p :: ps =>
    group r l p tokens ++ groupAll (r.group l p tokens).2 l (r.group l p tokens).1 ps

/-- All four passes. -/
def reassemble (r : Registry) (l : Language) (tokens : List Token) : List Event :=
  groupAll r l tokens Pass.all ++
    [event .debug .reassemble
      (ascii "Reassembled " ++ number tokens.length ++ ascii " tokens into " ++
        number (r.reassemble l tokens).1.length)]

/-! ### Whole texts -/

/-- The tokenizing of a text. -/
def tokenize (r : Registry) (l : Language) (text : Bytes) : List Event :=
  strip r {} text ++ scan l (render (r.strip {} text).1)

/-- The mapping of a text. -/
def map (r : Registry) (l : Language) (keep : Keep) (text : Bytes) : List Event :=
  let stripped := r.strip keep text
  let mapped := r.map l keep text
  strip r keep text ++ scanTokens l stripped.1 ++
    reassemble stripped.2 l (l.scanTokens stripped.1) ++
    [event .debug .tokenizer
      (ascii "Mapped " ++ number text.length ++ ascii " bytes to " ++ number mapped.1.length ++
        ascii " tokens; registry holds " ++ number mapped.2.size ++ ascii " values")]

/-- The mapping of a text in a session, which needs a language. -/
def sessionMap (s : Session) (keep : Keep) (text : Bytes) : List Event :=
  match s.language with
  | none =>
    [event .error .tokenizer (ascii "Identifier mode requested without a language")]
  | some l => map s.registry l keep text

end Lexicon.Journal
