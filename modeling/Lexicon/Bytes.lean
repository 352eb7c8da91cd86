/-!
# Byte text

Source text, names and messages are byte strings: lengths and positions count bytes, and a byte
string need not be valid UTF-8.  This module holds the named ASCII bytes, the ASCII character
classes, and decimal numbers written as bytes.

## Main definitions

* `Bytes` — a byte string, as a list.
* `ascii s` — the bytes of a text constant.
* `Bytes.decimal n`, `Bytes.number? t` — a natural number as decimal digits, and back.
-/

namespace Lexicon

/-- A byte string. -/
abbrev Bytes := List UInt8

/-- The bytes of a text constant. -/
def ascii (s : String) : Bytes := s.toUTF8.data.toList

/-! ### Named bytes -/

namespace Byte

/-- The end of a line. -/
abbrev newline : UInt8 := 10

/-- The horizontal tab. -/
abbrev tab : UInt8 := 9

/-- The carriage return. -/
abbrev carriageReturn : UInt8 := 13

/-- The blank between words. -/
abbrev space : UInt8 := 32

/-- The quote around a string literal. -/
abbrev doubleQuote : UInt8 := 34

/-- The quote around a character literal. -/
abbrev singleQuote : UInt8 := 39

/-- The byte that starts an escape. -/
abbrev backslash : UInt8 := 92

/-- The byte that starts a comment. -/
abbrev slash : UInt8 := 47

/-- The second byte of a block comment. -/
abbrev star : UInt8 := 42

/-- The decimal point. -/
abbrev dot : UInt8 := 46

/-- The first byte of a displayed key. -/
abbrev colon : UInt8 := 58

/-- The byte between the items of a list. -/
abbrev comma : UInt8 := 44

/-- The byte between a name and its value. -/
abbrev equals : UInt8 := 61

/-- The byte that starts a comment in a definition file. -/
abbrev hash : UInt8 := 35

/-- The byte that opens a list or a section name. -/
abbrev openBracket : UInt8 := 91

/-- The byte that closes a list or a section name. -/
abbrev closeBracket : UInt8 := 93

/-- The first byte of an option. -/
abbrev dash : UInt8 := 45

/-- The byte that may stand for a letter in a name. -/
abbrev underscore : UInt8 := 95

/-- The digit zero, which the other digits follow. -/
abbrev zero : UInt8 := 48

/-! ### Character classes

The classes are ASCII only: no byte above 127 is in any of them. -/

/-- A decimal digit. -/
def isDigit (b : UInt8) : Bool := 48 ≤ b && b ≤ 57

/-- A capital letter. -/
def isUpper (b : UInt8) : Bool := 65 ≤ b && b ≤ 90

/-- A small letter. -/
def isLower (b : UInt8) : Bool := 97 ≤ b && b ≤ 122

/-- A letter of either case. -/
def isLetter (b : UInt8) : Bool := isUpper b || isLower b

/-- White space: the blank, and the controls from tab to carriage return. -/
def isSpace (b : UInt8) : Bool := b == 32 || (9 ≤ b && b ≤ 13)

/-- The capital of a small letter; every other byte is its own. -/
def toUpper (b : UInt8) : UInt8 := if isLower b then b - 32 else b

end Byte

namespace Bytes

/-! ### Numbers -/

/-- The digit of a number below ten. -/
def digit (n : Nat) : UInt8 := Byte.zero + n.toUInt8

/-- A number in decimal digits, without superfluous zeros. -/
def decimal (n : Nat) : Bytes :=
  if n < 10 then [digit n] else decimal (n / 10) ++ [digit (n % 10)]

/-- An integer in decimal digits, after a dash if it is negative. -/
def decimalInt : Int → Bytes
  | .ofNat n => decimal n
  | .negSucc n => Byte.dash :: decimal (n + 1)

/-- The value of a list of digits, read after digits of value `n`. -/
def valueFrom (n : Nat) (t : Bytes) : Nat :=
  t.foldl (fun n b => 10 * n + (b - Byte.zero).toNat) n

/-- The number that a text of one or more decimal digits stands for.  Leading zeros are allowed. -/
def number? (t : Bytes) : Option Nat :=
  if !t.isEmpty && t.all Byte.isDigit then some (valueFrom 0 t) else none

/-! ### Parts of a text -/

/-- What follows `start` in `t`, if `t` starts so. -/
def after? (start t : Bytes) : Option Bytes :=
  if start.isPrefixOf t then some (t.drop start.length) else none

/-- The pieces between the commas of a text, at least one. -/
def splitAtCommas : Bytes → List Bytes
  | [] => [[]]
  | b :: t =>
    match splitAtCommas t with
    | [] => [[b]]
    | piece :: rest => if b = Byte.comma then [] :: piece :: rest else (b :: piece) :: rest

/-- A text with `fill` in front of it as often as needed for `width` bytes. -/
def padLeft (width : Nat) (fill : UInt8) (t : Bytes) : Bytes :=
  List.replicate (width - t.length) fill ++ t

/-- A text with `fill` after it as often as needed for `width` bytes. -/
def padRight (width : Nat) (fill : UInt8) (t : Bytes) : Bytes :=
  t ++ List.replicate (width - t.length) fill

/-- A text without the newlines, blanks and tabs at its end. -/
def trimEnd (t : Bytes) : Bytes :=
  (t.reverse.dropWhile fun b => b = Byte.newline || b = Byte.space || b = Byte.tab).reverse

/-- The text, and a newline after it. -/
def line (t : Bytes) : Bytes := t ++ [Byte.newline]

end Bytes

end Lexicon
