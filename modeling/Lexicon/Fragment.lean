import Lexicon.Bytes

/-!
# Fragments of a source text

A source text is a sequence of ordinary code, literals in quotes, line comments and block
comments.  A quote closes its literal unless an odd number of backslashes stands directly before
it.  Inside a literal there are no comments, and inside a comment there are no literals.  The end
of the text ends a line comment; a literal or a block comment that is still open there is
unterminated.

## Main definitions

* `Fragment` — a part of a source text, and `Fragment.source`, the text it came from.
* `Fragment.split` — the fragments of a source text, in order.
* `isEscaped text pos` — whether the byte at a position stands behind an escape.
-/

namespace Lexicon

/-- The quotes around a literal. -/
inductive Quote
  | double
  | single
  deriving DecidableEq, Repr

/-- The byte of a quote. -/
def Quote.byte : Quote → UInt8
  | double => Byte.doubleQuote
  | single => Byte.singleQuote

/-- A part of a source text.  The bodies are without the delimiters. -/
inductive Fragment
  /-- Text outside literals and comments. -/
  | code (t : Bytes)
  /-- A literal in quotes. -/
  | literal (q : Quote) (body : Bytes)
  /-- A comment up to the end of its line, or of the text; `ended` tells of the newline. -/
  | lineComment (body : Bytes) (ended : Bool)
  /-- A comment between `/*` and `*/`. -/
  | blockComment (body : Bytes)
  /-- A literal that is open at the end of the text. -/
  | openLiteral (q : Quote) (body : Bytes)
  /-- A block comment that is open at the end of the text. -/
  | openComment (body : Bytes)
  deriving DecidableEq, Repr

/-- The delimiter that opens a line comment. -/
def lineCommentStart : Bytes := [Byte.slash, Byte.slash]

/-- The delimiter that opens a block comment. -/
def blockCommentStart : Bytes := [Byte.slash, Byte.star]

/-- The delimiter that closes a block comment. -/
def blockCommentEnd : Bytes := [Byte.star, Byte.slash]

/-- Whether an odd number of backslashes stands at the head of a text.  The text is what comes
before a byte, nearest byte first. -/
def behindEscape (before : Bytes) : Bool :=
  (before.takeWhile fun b => b == Byte.backslash).length % 2 == 1

/-- Whether the byte at a position stands directly behind an odd number of backslashes. -/
def isEscaped (text : Bytes) (pos : Nat) : Bool := behindEscape (text.take pos).reverse

namespace Fragment

/-- The text that a fragment came from. -/
def source : Fragment → Bytes
  | code t => t
  | literal q body => q.byte :: body ++ [q.byte]
  | lineComment body ended =>
    lineCommentStart ++ body ++ if ended then [Byte.newline] else []
  | blockComment body => blockCommentStart ++ body ++ blockCommentEnd
  | openLiteral q body => q.byte :: body
  | openComment body => blockCommentStart ++ body

/-- Whether a text that ends in this fragment ends outside literals and comments. -/
def isClosed : Fragment → Bool
  | code _ | literal _ _ | blockComment _ => true
  | lineComment _ ended => ended
  | openLiteral _ _ | openComment _ => false

/-! ### Splitting -/

/-- Where a reader of a source text is. -/
inductive Mode
  | code
  | literal (q : Quote)
  | lineComment
  | blockComment
  deriving DecidableEq, Repr

/-- The fragment that the end of the text leaves, given what was read of it in reverse.  Code
without text is no fragment. -/
def ofEnd : Mode → Bytes → List Fragment
  | .code, [] => []
  | .code, b :: seen => [.code (b :: seen).reverse]
  | .literal q, seen => [.openLiteral q seen.reverse]
  | .lineComment, seen => [.lineComment seen.reverse false]
  | .blockComment, seen => [.openComment seen.reverse]

/-- The fragments of `text` from the position `pos` on, where `rest` remains of it.  The reader is in
mode `m` and has read `seen`, in reverse, of the current fragment. -/
def readAt (text : Bytes) : Mode → Bytes → Nat → Bytes → List Fragment
  | m, seen, _, [] => ofEnd m seen
  | .code, seen, pos, b :: rest =>
    if b = Byte.doubleQuote then
      ofEnd .code seen ++ readAt text (.literal .double) [] (pos + 1) rest
    else if b = Byte.singleQuote then
      ofEnd .code seen ++ readAt text (.literal .single) [] (pos + 1) rest
    else if b = Byte.slash then
      -- a slash that starts no comment is code, at the end of the text too
      match rest with
      | [] => ofEnd .code (b :: seen)
      | d :: rest' =>
        if d = Byte.slash then ofEnd .code seen ++ readAt text .lineComment [] (pos + 2) rest'
        else if d = Byte.star then ofEnd .code seen ++ readAt text .blockComment [] (pos + 2) rest'
        else readAt text .code (b :: seen) (pos + 1) (d :: rest')
    else readAt text .code (b :: seen) (pos + 1) rest
  | .literal q, seen, pos, b :: rest =>
    -- the backslashes before a quote are counted in the whole text
    if b = q.byte && !isEscaped text pos then
      .literal q seen.reverse :: readAt text .code [] (pos + 1) rest
    else readAt text (.literal q) (b :: seen) (pos + 1) rest
  | .lineComment, seen, pos, b :: rest =>
    if b = Byte.newline then
      .lineComment seen.reverse true :: readAt text .code [] (pos + 1) rest
    else readAt text .lineComment (b :: seen) (pos + 1) rest
  | .blockComment, seen, pos, b :: rest =>
    if b = Byte.star then
      -- of `**/` the first star belongs to the body
      match rest with
      | [] => ofEnd .blockComment (b :: seen)
      | d :: rest' =>
        if d = Byte.slash then .blockComment seen.reverse :: readAt text .code [] (pos + 2) rest'
        else readAt text .blockComment (b :: seen) (pos + 1) (d :: rest')
    else readAt text .blockComment (b :: seen) (pos + 1) rest

/-- The fragments of a source text, in order. -/
def split (text : Bytes) : List Fragment := readAt text .code [] 0 text

end Fragment

/-- Whether a source text ends outside literals and comments. -/
def endsInCode (text : Bytes) : Bool := (Fragment.split text).all Fragment.isClosed

end Lexicon
