import Lexicon.Language
import Lexicon.Lexeme

/-!
# Grouping tokens into values

The tokens of a text are grouped into the values that keys stand for, in four passes: numbers,
chains of names, keywords, delimiters.  A pass leaves keys and all other texts as they are, and
the next pass sees its result.

## Main definitions

* `isDigitRun`, `Language.isObjectName` — the texts that start a number and a chain.
* `Pass` — the four passes, and `Pass.lexemes`, what a pass makes of a list of tokens.
* `Registry.group` — one pass, and `Registry.reassemble`, all of them in order.
-/

namespace Lexicon

/-- Whether a text is one or more digits. -/
def isDigitRun (t : Bytes) : Bool := !t.isEmpty && t.all Byte.isDigit

/-- The decimal point. -/
def point : Bytes := [Byte.dot]

/-! ### Numbers -/

/-- The digits at the head of a list of tokens, if any, and the tokens after them. -/
def digitsOf : List Token → Bytes × List Token
  | .text t :: rest => if isDigitRun t then (t, rest) else ([], .text t :: rest)
  | tokens => ([], tokens)

/-- The point at the head of a list of tokens, if any, with the digits after it, and the tokens
after them. -/
def fractionOf : List Token → Bytes × List Token
  | .text t :: rest =>
    if t = point then (point ++ (digitsOf rest).1, (digitsOf rest).2) else ([], .text t :: rest)
  | tokens => ([], tokens)

theorem digitsOf_length_le (tokens : List Token) :
    (digitsOf tokens).2.length ≤ tokens.length := by
  unfold digitsOf
  split
  · split <;> simp
  · exact Nat.le_refl _

theorem fractionOf_length_le (tokens : List Token) :
    (fractionOf tokens).2.length ≤ tokens.length := by
  unfold fractionOf
  split
  · split
    · exact Nat.le_succ_of_le (digitsOf_length_le _)
    · exact Nat.le_refl _
  · exact Nat.le_refl _

/-- Names the numbers: digits with the fraction that follows them, and a point with the digits
that follow it. -/
def nameNumbers : List Token → List Lexeme
  | [] => []
  | .key k :: rest => .kept (.key k) :: nameNumbers rest
  | .text t :: rest =>
    if isDigitRun t then
      have := fractionOf_length_le rest
      .named .primitive (t ++ (fractionOf rest).1) :: nameNumbers (fractionOf rest).2
    else if t = point ∧ (digitsOf rest).1 ≠ [] then
      have := digitsOf_length_le rest
      .named .primitive (point ++ (digitsOf rest).1) :: nameNumbers (digitsOf rest).2
    else .text t :: nameNumbers rest
termination_by tokens => tokens.length

namespace Language

/-! ### Chains of names -/

/-- Whether a text is a name: letters, digits and underscores, the first of them not a digit, and
neither a keyword nor a delimiter. -/
def isObjectName (l : Language) : Bytes → Bool
  | [] => false
  | b :: t =>
    (Byte.isLetter b || b == Byte.underscore) &&
      (t.all fun d => Byte.isLetter d || Byte.isDigit d || d == Byte.underscore) &&
      !l.isKeyword (b :: t) && !l.isDelimiter (b :: t)

/-- The pairs of a call delimiter and a name at the head of a list of tokens, as one text, and the
tokens after them. -/
def callsOf (l : Language) : List Token → Bytes × List Token
  | .text d :: .text m :: rest =>
    if l.isCall d && l.isObjectName m then
      (d ++ m ++ (l.callsOf rest).1, (l.callsOf rest).2)
    else ([], .text d :: .text m :: rest)
  | tokens => ([], tokens)

theorem callsOf_length_le (l : Language) (tokens : List Token) :
    (l.callsOf tokens).2.length ≤ tokens.length := by
  fun_induction callsOf l tokens with
  | case1 d m rest h ih => simp only [List.length_cons]; omega
  | case2 d m rest h => exact Nat.le_refl _
  | case3 tokens h => exact Nat.le_refl _

/-- Names the objects: a name, and the calls that follow it. -/
def nameObjects (l : Language) : List Token → List Lexeme
  | [] => []
  | .key k :: rest => .kept (.key k) :: l.nameObjects rest
  | .text t :: rest =>
    if l.isObjectName t then
      have := l.callsOf_length_le rest
      .named .object (t ++ (l.callsOf rest).1) :: l.nameObjects (l.callsOf rest).2
    else .text t :: l.nameObjects rest
termination_by tokens => tokens.length

/-! ### Keywords and delimiters -/

/-- Names the texts that are in `p` as values of category `c`. -/
def nameTexts (c : Category) (p : Bytes → Bool) (tokens : List Token) : List Lexeme :=
  tokens.map fun
    | .text t => if p t then .named c t else .text t
    | .key k => .kept (.key k)

end Language

/-! ### The passes -/

/-- The passes over a list of tokens. -/
inductive Pass
  | numbers
  | objects
  | keywords
  | delimiters
  deriving DecidableEq, Repr

namespace Pass

/-- The passes in the order in which they are made. -/
def all : List Pass := [numbers, objects, keywords, delimiters]

/-- What a pass makes of a list of tokens. -/
def lexemes (l : Language) : Pass → List Token → List Lexeme
  | numbers => nameNumbers
  | objects => l.nameObjects
  | keywords => Language.nameTexts .keyword l.isKeyword
  | delimiters => Language.nameTexts .delimiter l.isDelimiter

end Pass

namespace Registry

/-- The tokens that a pass leaves, and the registry with the values that it named. -/
def group (r : Registry) (l : Language) (p : Pass) (tokens : List Token) :
    List Token × Registry :=
  r.assign (p.lexemes l tokens)

/-- Makes some passes, one after the other. -/
def groupAll (r : Registry) (l : Language) (tokens : List Token) :
    List Pass → List Token × Registry
  | [] => (tokens, r)
  | p :: ps => (r.group l p tokens).2.groupAll l (r.group l p tokens).1 ps

/-- Makes all four passes. -/
def reassemble (r : Registry) (l : Language) (tokens : List Token) : List Token × Registry :=
  r.groupAll l tokens Pass.all

end Registry

end Lexicon
