import Lexicon.Key

/-!
# Tokens

A token is raw text of the source, or the key of a value that was taken out of it.  A text that
happens to read as a key is still a text.
-/

namespace Lexicon

/-- A piece of source text, or the key of a value. -/
inductive Token
  | text (t : Bytes)
  | key (k : Key)
  deriving DecidableEq, Repr, Inhabited

namespace Token

/-- A token as it is printed: a text as it is, a key in its written form. -/
def display : Token → Bytes
  | text t => t
  | key k => k.display

@[simp] theorem display_text (t : Bytes) : (text t).display = t := rfl

@[simp] theorem display_key (k : Key) : (key k).display = k.display := rfl

/-- The text of a token that is one. -/
def text? : Token → Option Bytes
  | text t => some t
  | key _ => none

end Token

end Lexicon
