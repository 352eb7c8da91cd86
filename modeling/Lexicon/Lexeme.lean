import Lexicon.Registry

/-!
# Lexemes

Every stage that replaces text by keys works in two parts.  The first part looks at the text
alone and decides which values are to be named; its result is a list of lexemes.  The second part
is the same for all stages: it names the values from left to right.

## Main definitions

* `Lexeme` — a token that stays, or a value that is to be named.
* `Registry.assign` — names the values of a list of lexemes.
-/

namespace Lexicon

/-- A token that stays as it is, or a value that is to become a key. -/
inductive Lexeme
  | kept (t : Token)
  | named (c : Category) (v : Bytes)
  deriving DecidableEq, Repr

namespace Lexeme

/-- A text that stays. -/
abbrev text (t : Bytes) : Lexeme := kept (.text t)

/-- Joins texts that stand next to each other. -/
def joinTexts : List Lexeme → List Lexeme
  | [] => []
  | .kept (.text t) :: rest =>
    match joinTexts rest with
    | .kept (.text u) :: rest' => text (t ++ u) :: rest'
    | joined => text t :: joined
  | x :: rest => x :: joinTexts rest

@[simp] theorem joinTexts_nil : joinTexts [] = [] := rfl

@[simp] theorem joinTexts_key (k : Key) (rest : List Lexeme) :
    joinTexts (.kept (.key k) :: rest) = .kept (.key k) :: joinTexts rest := rfl

@[simp] theorem joinTexts_named (c : Category) (v : Bytes) (rest : List Lexeme) :
    joinTexts (.named c v :: rest) = .named c v :: joinTexts rest := rfl

end Lexeme

namespace Registry

/-- Names the values of a list of lexemes from left to right. -/
def assign (r : Registry) : List Lexeme → List Token × Registry
  | [] => ([], r)
  | .kept t :: rest => (t :: (r.assign rest).1, (r.assign rest).2)
  | .named c v :: rest =>
    (.key (r.add c v).1 :: ((r.add c v).2.assign rest).1, ((r.add c v).2.assign rest).2)

@[simp] theorem assign_nil (r : Registry) : r.assign [] = ([], r) := rfl

@[simp] theorem assign_kept (r : Registry) (t : Token) (rest : List Lexeme) :
    r.assign (.kept t :: rest) = (t :: (r.assign rest).1, (r.assign rest).2) := rfl

@[simp] theorem assign_named (r : Registry) (c : Category) (v : Bytes) (rest : List Lexeme) :
    r.assign (.named c v :: rest) =
      (.key (r.add c v).1 :: ((r.add c v).2.assign rest).1, ((r.add c v).2.assign rest).2) := rfl

/-- The values of the first lexemes are named before those of the others. -/
theorem assign_append (r : Registry) (xs ys : List Lexeme) :
    r.assign (xs ++ ys) =
      ((r.assign xs).1 ++ ((r.assign xs).2.assign ys).1, ((r.assign xs).2.assign ys).2) := by
  induction xs generalizing r with
  | nil => rfl
  | cons x xs ih =>
    cases x with
    | kept t => rw [List.cons_append, assign_kept, ih]; rfl
    | named c v => rw [List.cons_append, assign_named, ih]; rfl

theorem assign_kept_append (r : Registry) (ts : List Token) (xs : List Lexeme) :
    r.assign (ts.map .kept ++ xs) = (ts ++ (r.assign xs).1, (r.assign xs).2) := by
  induction ts with
  | nil => rfl
  | cons t ts ih => rw [List.map_cons, List.cons_append, assign_kept, ih]; rfl

end Registry

end Lexicon
