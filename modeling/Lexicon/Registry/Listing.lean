import Lexicon.Registry

/-!
# Listings

The printed forms of a registry and of a list of tokens.  Both start with a rule that names the
table, show one value on a line, and end without blanks or newlines.
-/

namespace Lexicon

/-- The line above a table. -/
def tableHeading (title : Bytes) : Bytes :=
  Bytes.line (ascii "----------" ++ title ++ ascii " TABLE----------")

/-- What listings show in place of a value that a key does not have. -/
def unknownValue : Bytes := ascii "<unknown>"

namespace Table

variable {c : Category}

/-- A heading, and a line for each live value. -/
def listing (t : Table c) : Bytes :=
  tableHeading (c.name.map Byte.toUpper ++ ascii " TOKEN") ++
    t.entries.flatMap fun e =>
      Bytes.line (ascii "Key  " ++ (Key.mk c e.1).display ++ ascii "\tValue  " ++ e.2)

end Table

namespace Registry

/-- The listings of all tables, with an empty line between them; nothing if no table has a
value. -/
def listing (r : Registry) : Bytes :=
  if r.isEmpty then []
  else
    Bytes.trimEnd
      ([Byte.newline].intercalate (Category.all.map fun c => (r.table c).listing))

/-- The line of a token: its category, key and value, or its text. -/
def tokenLine (r : Registry) : Token → Bytes
  | .text t => Bytes.line (ascii "Text:\t" ++ t)
  | .key k =>
    Bytes.line (k.category.name ++ ascii ":\tKey  " ++ k.display ++ ascii "\tValue  " ++
      (r.get? k).getD unknownValue)

/-- A heading, and a line for each token; nothing if there is no token. -/
def tokenListing (r : Registry) (tokens : List Token) : Bytes :=
  if tokens.isEmpty then []
  else Bytes.trimEnd (tableHeading (ascii "TOKEN") ++ tokens.flatMap r.tokenLine)

end Registry

end Lexicon
