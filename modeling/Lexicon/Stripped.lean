import Lexicon.Fragment
import Lexicon.Lexeme

/-!
# Stripped text

Stripping takes the literals and comments out of a source text.  A literal leaves its key, or an
empty pair of quotes; a comment leaves its key, or what keeps the lines around it apart.  What is
unterminated leaves nothing.

## Main definitions

* `Keep` — what is taken out as keys rather than removed.
* `Fragment.stripped` — what a fragment leaves.
* `Registry.strip` — the stripped text, and the registry with the values that were named.
-/

namespace Lexicon

/-- What is taken out as keys rather than removed. -/
structure Keep where
  literals : Bool := false
  comments : Bool := false
  deriving DecidableEq, Repr

/-- What a fragment leaves.  A comment that is not kept takes the newline at its end with it; a
block comment leaves a newline in its place. -/
def Fragment.stripped (keep : Keep) : Fragment → List Lexeme
  | .code t => [.text t]
  | .literal q body =>
    if keep.literals then [.named .literal (q.byte :: body ++ [q.byte])]
    else [.text [q.byte, q.byte]]
  | .lineComment body ended =>
    if keep.comments then
      if ended then
        [.named .comment (lineCommentStart ++ body ++ [Byte.newline]), .text [Byte.newline]]
      else [.named .comment (lineCommentStart ++ body)]
    else []
  | .blockComment body =>
    if keep.comments then [.named .comment (blockCommentStart ++ body ++ blockCommentEnd)]
    else [.text [Byte.newline]]
  | .openLiteral _ _ | .openComment _ => []

/-- What a source text leaves, with the texts that touch joined. -/
def strippedLexemes (keep : Keep) (text : Bytes) : List Lexeme :=
  Lexeme.joinTexts ((Fragment.split text).flatMap (Fragment.stripped keep))

/-- The stripped text of a source text, and the registry with the values that were named. -/
def Registry.strip (r : Registry) (keep : Keep) (text : Bytes) : List Token × Registry :=
  r.assign (strippedLexemes keep text)

/-- The displayed form of a list of tokens, without anything between them. -/
def render (tokens : List Token) : Bytes := tokens.flatMap Token.display

end Lexicon
