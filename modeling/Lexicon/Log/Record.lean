import Lexicon.Log.Level

/-!
# Log records

A record is written as one line, in one of two formats.  A text line shows the time of day, the
level, the origin and the message.  A JSON line is an object with the time in milliseconds and the
same three texts, in which quotes, backslashes and control bytes are escaped.

## Main definitions

* `Event` — what is reported, and `Record`, an event at a time.
* `clockTime` — the time of day.
* `Record.format` — the line of a record, and `Record.colored`, the same for a terminal.
-/

namespace Lexicon.Log

/-- What a part of the program reports. -/
structure Event where
  level : Level
  /-- The part of the program that reports. -/
  origin : Bytes
  message : Bytes
  deriving DecidableEq, Repr

/-- An event, and the milliseconds since the epoch at which it was reported. -/
structure Record extends Event where
  time : Int
  deriving DecidableEq, Repr

/-- How a record is written. -/
inductive Format
  | text
  | json
  deriving DecidableEq, Repr, Inhabited

/-! ### The time of day -/

/-- A number of up to two digits, in two digits. -/
def twoDigits (n : Nat) : Bytes := Bytes.padLeft 2 Byte.zero (Bytes.decimal n)

/-- Hours, minutes and seconds of a time, and the milliseconds after the second.  Seconds are
counted toward zero, so that the milliseconds of a time before the epoch are negative. -/
def clockTime (ms : Int) : Bytes :=
  let second := (ms.tdiv 1000 % 86400).toNat
  twoDigits (second / 3600) ++ Byte.colon :: twoDigits (second / 60 % 60) ++
    Byte.colon :: twoDigits (second % 60) ++
    Byte.dot :: Bytes.padLeft 3 Byte.zero (Bytes.decimalInt (ms.tmod 1000))

/-! ### Escapes -/

/-- The digit of a number below sixteen. -/
def hexDigit (n : Nat) : UInt8 := if n < 10 then Bytes.digit n else 87 + n.toUInt8

/-- A byte as it stands in a JSON string. -/
def escapeByte (b : UInt8) : Bytes :=
  if b = Byte.doubleQuote then [Byte.backslash, Byte.doubleQuote]
  else if b = Byte.backslash then [Byte.backslash, Byte.backslash]
  else if b = Byte.newline then ascii "\\n"
  else if b = Byte.carriageReturn then ascii "\\r"
  else if b = Byte.tab then ascii "\\t"
  else if b < 32 then ascii "\\u00" ++ [hexDigit (b.toNat / 16), hexDigit (b.toNat % 16)]
  else [b]

/-- A text as it stands in a JSON string. -/
def escape (t : Bytes) : Bytes := t.flatMap escapeByte

/-! ### Lines -/

namespace Record

/-- The name of the level, followed by blanks up to the width of most names. -/
def paddedLevel (r : Record) : Bytes := Bytes.padRight 5 Byte.space r.level.name

/-- The text line of a record, with the level written as `level`. -/
def textWith (r : Record) (level : Bytes) : Bytes :=
  Bytes.line (clockTime r.time ++ Byte.space :: level ++ ascii " [" ++ r.origin ++ ascii "] " ++
    r.message)

/-- The text line of a record. -/
def text (r : Record) : Bytes := r.textWith r.paddedLevel

/-- The JSON line of a record. -/
def json (r : Record) : Bytes :=
  Bytes.line (ascii "\x7b\"ts\":" ++ Bytes.decimalInt r.time ++ ascii ",\"level\":\"" ++
    r.level.name ++ ascii "\",\"module\":\"" ++ escape r.origin ++ ascii "\",\"msg\":\"" ++
    escape r.message ++ ascii "\"\x7d")

/-- The line of a record. -/
def format (r : Record) : Format → Bytes
  | .text => r.text
  | .json => r.json

/-- The terminal sequence that starts the colour of a level. -/
def color (l : Level) : Bytes :=
  match l.rank with
  | 0 => ascii "\x1b[90m"
  | 1 => ascii "\x1b[36m"
  | 2 => ascii "\x1b[32m"
  | 3 => ascii "\x1b[33m"
  | 4 => ascii "\x1b[31m"
  | 5 => ascii "\x1b[1;31m"
  | _ => []

/-- The line of a record for a terminal: a text line shows the level in colour, a JSON line has no
colours. -/
def colored (r : Record) : Format → Bytes
  | .text => r.textWith (color r.level ++ r.paddedLevel ++ ascii "\x1b[0m")
  | .json => r.json

end Record

end Lexicon.Log
