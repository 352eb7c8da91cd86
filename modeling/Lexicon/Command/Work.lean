import Lexicon.Command.Options
import Lexicon.Journal
import Lexicon.Registry.Listing
import Lexicon.Source

/-!
# What commands do with a source

The work of a command on one source, and its work after the last source, as values: what is
printed, what is reported, whether it succeeded, and the registry afterwards.

## Main definitions

* `Work` — the result.
* `Command.work` — the work on a source.
* `Command.finish` — the work after the last source.
-/

namespace Lexicon

open Journal

/-- The result of a piece of work. -/
structure Work where
  registry : Registry
  output : Bytes := []
  events : List Log.Event := []
  /-- Whether everything succeeded. -/
  ok : Bool := true

namespace Work

/-- Does one piece of work after another. -/
def andThen (w : Work) (next : Registry → Work) : Work :=
  let v := next w.registry
  { registry := v.registry
    output := w.output ++ v.output
    events := w.events ++ v.events
    ok := w.ok && v.ok }

end Work

namespace Command

/-- Lines of texts. -/
def lines (texts : List Bytes) : Bytes := texts.flatMap Bytes.line

/-- Prints the tables. -/
def tableWork (r : Registry) : Work := { registry := r, output := Bytes.line r.listing }

/-- Prints the value behind a key. -/
def lookupWork (r : Registry) (text : Bytes) : Work :=
  match Key.parse? text with
  | some k =>
    { registry := r
      output := Bytes.line (text ++ Byte.tab :: (r.get? k).getD unknownValue) }
  | none =>
    { registry := r
      events := [event .error .cli (ascii "Not an identifier: '" ++ text ++ ascii "'")]
      ok := false }

/-- Prints the values behind keys. -/
def lookupsWork (r : Registry) : List Bytes → Work
  | [] => { registry := r }
  | text :: rest => (lookupWork r text).andThen fun r => lookupsWork r rest

/-- Prints the tables and values that the options ask for. -/
def answers (o : Options) (r : Registry) : Work :=
  (if o.table then tableWork r else { registry := r }).andThen fun r => lookupsWork r o.lookups

/-- The line above the output of a source, if there is more than one. -/
def heading (o : Options) (s : Source) : Bytes :=
  if 1 < o.files.length then Bytes.line (ascii "==> " ++ s.name ++ ascii " <==") else []

/-- Prints the tokens of a source. -/
def tokensWork (l : Language) (r : Registry) (s : Source) : Work :=
  let tokens := r.tokenize l s.content
  { registry := tokens.2
    output := lines tokens.1
    events :=
      Journal.tokenize r l s.content ++
        [event .info .cli
          (ascii "Tokenized " ++ s.name ++ ascii " into " ++ number tokens.1.length ++
            ascii " tokens")] }

/-- The mapped tokens as they are printed. -/
def mapped (o : Options) (r : Registry) (tokens : List Token) : Bytes :=
  if o.annotate then Bytes.line (r.tokenListing tokens) else lines (tokens.map Token.display)

/-- Prints the mapped tokens of a source.  If numbering starts again for every file, what else is
asked for is printed here, and the registry is cleared. -/
def mapWork (o : Options) (l : Language) (r : Registry) (s : Source) : Work :=
  let tokens := r.map l o.keep s.content
  let work : Work :=
    { registry := tokens.2
      output := mapped o tokens.2 tokens.1
      events := Journal.map r l o.keep s.content }
  if o.perFile then
    (work.andThen (answers o)).andThen fun _ => { registry := .empty, events := cleared }
  else work

/-- Prints a source without its literals and comments. -/
def stripWork (o : Options) (r : Registry) (s : Source) : Work :=
  let stripped := r.strip o.keep s.content
  { registry := stripped.2
    output := render stripped.1
    events := Journal.strip r o.keep s.content }

/-- The work on a source. -/
def work (c : Command) (o : Options) (l : Language) (r : Registry) (s : Source) : Work :=
  let body :=
    match c with
    | tokens => tokensWork l r s
    | map => mapWork o l r s
    | strip => stripWork o r s
  { body with output := heading o s ++ body.output }

/-- The work after the last source. -/
def finish (c : Command) (o : Options) (r : Registry) : Work :=
  match c with
  | tokens => { registry := r }
  | map => if o.perFile then { registry := r } else answers o r
  | strip => if o.table then tableWork r else { registry := r }

end Command

end Lexicon
