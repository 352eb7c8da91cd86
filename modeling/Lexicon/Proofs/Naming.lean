import Lexicon.Lexeme
import Lexicon.Proofs.Registry
import Mathlib.Data.List.Forall2

/-!
# What naming leaves

Naming turns a list of lexemes into a list of tokens of the same length: a token that is kept stays,
and a value becomes a key that leads back to it.  This relation between lexemes and tokens says all
that later stages need to know about naming, and it outlives every growth of the registry.

## Main definitions

* `Registry.Names s x t` — token `t` stands for lexeme `x` in `s`.
* `Registry.Live s ts` — every key of `ts` has a value in `s`.

## Main results

* `Registry.names_assign` — **the specification of `Registry.assign`.**
* `Registry.assign_eq_of_names` — naming again what is named already changes nothing.
* `Registry.Live.restore_eq` — live tokens are restored to the same texts later on.
-/

namespace Lexicon
namespace Registry

variable {r s : Registry}

/-! ### Lexemes and the tokens that stand for them -/

/-- `s.Names x t` says that the token `t` stands for the lexeme `x`: it is the token that is kept,
or a key with the value that was to be named. -/
inductive Names (s : Registry) : Lexeme → Token → Prop
  | kept (t : Token) : Names s (.kept t) t
  | named {k : Key} {v : Bytes} (h : s.get? k = some v) : Names s (.named k.category v) (.key k)

theorem Names.mono (h : r.Extends s) {x : Lexeme} {t : Token} (hx : r.Names x t) : s.Names x t := by
  cases hx with
  | kept t => exact .kept t
  | named hk => exact .named (h _ _ hk)

theorem adds_assign (r : Registry) (xs : List Lexeme) : r.Adds (r.assign xs).2 := by
  induction xs generalizing r with
  | nil => exact .refl r
  | cons x xs ih =>
    cases x with
    | kept t => exact ih r
    | named c v => exact .add c v (ih (r.add c v).2)

/-- Naming keeps texts, and makes none. -/
theorem text_mem_assign {t : Bytes} {xs : List Lexeme} :
    .text t ∈ (r.assign xs).1 ↔ .kept (.text t) ∈ xs := by
  induction xs generalizing r with
  | nil => simp
  | cons x xs ih =>
    cases x with
    | kept u => rw [assign_kept, List.mem_cons, List.mem_cons, ih, Lexeme.kept.injEq]
    | named c v => rw [assign_named, List.mem_cons, List.mem_cons, ih]; simp

/-- **The specification of naming**: the tokens stand for the lexemes, one by one. -/
theorem names_assign {xs : List Lexeme} (h : r.Grows (r.assign xs).2) :
    List.Forall₂ (r.assign xs).2.Names xs (r.assign xs).1 := by
  induction xs generalizing r with
  | nil => exact .nil
  | cons x xs ih =>
    cases x with
    | kept t => exact .cons (.kept t) (ih h)
    | named c v =>
      rw [assign_named] at h ⊢
      -- the key is live as soon as its value is named, and the rest of the naming keeps it so
      have htail := h.add (adds_assign (r.add c v).2 xs)
      have hk := htail.extends _ _ (get?_add_self h.sound c v)
      refine .cons ?_ (ih htail)
      simpa using Names.named hk

/-- Naming values that have their keys already changes nothing. -/
theorem assign_eq_of_names (hs : s.Sound) {xs : List Lexeme} {ts : List Token}
    (h : List.Forall₂ s.Names xs ts) : s.assign xs = (ts, s) := by
  induction h with
  | nil => rfl
  | cons hx _ ih =>
    cases hx with
    | kept t => rw [assign_kept, ih]
    | named hk => rw [assign_named, add_of_get? hs hk, ih]

/-! ### Live tokens -/

/-- Every key of a list of tokens has a value. -/
def Live (s : Registry) (ts : List Token) : Prop := ∀ k, .key k ∈ ts → ∃ v, s.get? k = some v

theorem Live.mono (h : r.Extends s) {ts : List Token} (hl : r.Live ts) : s.Live ts := by
  intro k hk
  obtain ⟨v, hv⟩ := hl k hk
  exact ⟨v, h k v hv⟩

/-- What naming leaves is live if the keys that were kept are. -/
theorem live_of_names {xs : List Lexeme} {ts : List Token} (h : List.Forall₂ s.Names xs ts)
    (hkept : ∀ k, .kept (.key k) ∈ xs → ∃ v, s.get? k = some v) : s.Live ts := by
  intro k hk
  induction h with
  | nil => simp at hk
  | @cons x t xs ts hx _ ih =>
    rcases List.mem_cons.mp hk with rfl | hk
    · cases hx with
      | kept => exact hkept k List.mem_cons_self
      | named hv => exact ⟨_, hv⟩
    · exact ih (fun k hk => hkept k (List.mem_cons_of_mem _ hk)) hk

/-- Live tokens are restored to the same texts in every extension. -/
theorem Live.restore_eq {ts : List Token} (hl : r.Live ts) (h : r.Extends s) :
    ts.map s.restore = ts.map r.restore := by
  refine List.map_congr_left fun t ht => ?_
  cases t with
  | text t => rfl
  | key k =>
    obtain ⟨v, hv⟩ := hl k ht
    exact h.restore_key hv

end Registry
end Lexicon
