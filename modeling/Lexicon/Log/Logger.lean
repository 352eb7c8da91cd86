import Lexicon.Log.Filter
import Lexicon.Log.Record

/-!
# Loggers

A logger passes the events that its filter lets through to each of its sinks.  Beside the filter
it keeps the lowest level that the filter can let through, so that an event below it needs no
look-up.

## Main definitions

* `Logger` — the filter, the lowest level and the sinks.
* `Logger.accepts` — whether an event is passed on.
* `Logger.receivers` — the sinks that an event is passed to.
-/

namespace Lexicon.Log

/-- A filter and sinks.  Of the sinks a logger knows no more than that there are some. -/
structure Logger (Sink : Type) where
  /-- The lowest level that the filter lets through. -/
  lowest : Level := .warn
  filter : Filter := { general := .warn }
  sinks : List Sink := []
  deriving Repr

namespace Logger

variable {Sink : Type}

/-- The logger that a filter makes, without sinks. -/
def ofFilter (f : Filter) : Logger Sink := { lowest := f.least, filter := f }

/-- The logger at the start, without sinks. -/
def initial : Logger Sink := {}

/-- The logger for a level and a filter text, without sinks.  A general level in the text counts
more than the level; an empty text lists nothing. -/
def init (l : Level) (spec : Bytes) : Logger Sink :=
  ofFilter (if spec.isEmpty then { general := l } else Filter.parse { general := l } spec)

/-- Adds a sink after the others. -/
def addSink (g : Logger Sink) (s : Sink) : Logger Sink := { g with sinks := g.sinks ++ [s] }

/-- Replaces the filter. -/
def withFilter (g : Logger Sink) (f : Filter) : Logger Sink :=
  { g with lowest := f.least, filter := f }

/-- Sets the level of the origins that are not listed. -/
def setLevel (g : Logger Sink) (l : Level) : Logger Sink :=
  g.withFilter { g.filter with general := l }

/-- Reads the filter from a text. -/
def setFilter (g : Logger Sink) (spec : Bytes) : Logger Sink := g.withFilter (g.filter.parse spec)

/-- Whether an event is passed on. -/
def accepts (g : Logger Sink) (l : Level) (origin : Bytes) : Bool :=
  -- the lowest level answers for most events without a look-up
  g.lowest ≤ l && !g.sinks.isEmpty && g.filter.accepts l origin

/-- The sinks that an event is passed to, in order. -/
def receivers (g : Logger Sink) (e : Event) : List Sink :=
  if g.accepts e.level e.origin then g.sinks else []

end Logger

end Lexicon.Log
