import Lexicon.Registry
import Lexicon.Proofs.Table

/-!
# Registries in use

A registry in use grows by additions, and now and then a value is removed or a table cleared.  A
category runs out of numbers with its `2 ^ 32`-nd new value since it was cleared last; up to then
the registry is sound, and what was live before some additions is live after them.

## Main definitions

* `Registry.AgreesOff r c s` — `r` and `s` have the same tables, that of the category `c` apart.
* `Registry.Reached r n` — `r` came about by operations on the empty registry; `n c` counts the
  values that were numbered in category `c` since its table was cleared last.
* `Registry.Adds r s` — additions lead from `r` to `s`.
* `Registry.growth r s c` — how many values of category `c` they numbered.
* `Registry.Grows r s` — additions lead from the sound registry `r` to `s`, and no counter runs out.
* `Registry.Extends r s` — the values that are live in `r` are live in `s`, with the same keys.

## Main results

* `Registry.Reached.sound` — the tables are sound, and their counters tell the number of new values.
* `Registry.Grows.sound_right`, `Registry.Grows.extends` — **growth keeps a registry sound and
  forgets nothing.**
* `Registry.Grows.split` — growth can be cut at every registry on the way.
-/

namespace Lexicon
namespace Registry

variable {r s : Registry} {n : Category → Nat}

/-! ### Tables after an operation -/

@[simp] theorem table_empty (c : Category) : empty.table c = .empty := by cases c <;> rfl

@[simp] theorem table_add_self (r : Registry) (c : Category) (v : Bytes) :
    (r.add c v).2.table c = ((r.table c).add v).2 :=
  table_setTable_self r c _

theorem table_add_of_ne (r : Registry) {c d : Category} (v : Bytes) (h : c ≠ d) :
    (r.add c v).2.table d = r.table d :=
  table_setTable_of_ne r _ h

theorem setTable_self (r : Registry) (c : Category) : r.setTable c (r.table c) = r := by
  cases c <;> rfl

@[simp] theorem category_add (r : Registry) (c : Category) (v : Bytes) :
    (r.add c v).1.category = c :=
  Table.add_category _ v

theorem find?_eq_none_iff {c : Category} {v : Bytes} :
    r.find? c v = none ↔ (r.table c).index.lookup v = none :=
  Option.map_eq_none_iff

/-! ### Registries that agree off one category -/

/-- Two registries have the same tables, that of the category `c` apart. -/
def AgreesOff (r : Registry) (c : Category) (s : Registry) : Prop :=
  ∀ d, d ≠ c → r.table d = s.table d

section AgreesOff

variable {c d : Category}

theorem AgreesOff.refl (r : Registry) (c : Category) : r.AgreesOff c r := fun _ _ => rfl

/-- A value of the category itself makes no difference. -/
theorem AgreesOff.add_left (h : r.AgreesOff c s) (v : Bytes) : (r.add c v).2.AgreesOff c s := by
  intro d hd
  rw [table_add_of_ne r v hd.symm]
  exact h d hd

/-- A value of another category has the same key in both. -/
theorem AgreesOff.key_add (h : r.AgreesOff c s) (hd : d ≠ c) (v : Bytes) :
    (r.add d v).1 = (s.add d v).1 := by
  rw [Registry.add, Registry.add, h d hd]

theorem AgreesOff.add (h : r.AgreesOff c s) (hd : d ≠ c) (v : Bytes) :
    (r.add d v).2.AgreesOff c (s.add d v).2 := by
  intro e he
  by_cases hde : d = e
  · subst hde
    rw [table_add_self, table_add_self, h d hd]
  · rw [table_add_of_ne r v hde, table_add_of_ne s v hde]
    exact h e he

end AgreesOff

/-! ### Sound registries -/

/-- All tables are sound. -/
def Sound (r : Registry) : Prop := ∀ c, (r.table c).Sound

theorem sound_empty : empty.Sound := by
  intro c
  rw [table_empty]
  exact Table.sound_empty

theorem Sound.add (h : r.Sound) {c : Category} {v : Bytes} (hr : (r.table c).HasRoom v) :
    (r.add c v).2.Sound := by
  intro d
  by_cases hd : c = d
  · subst hd
    rw [table_add_self]
    exact (h c).add hr
  · rw [table_add_of_ne r v hd]
    exact h d

/-- The key of an added value leads back to it. -/
theorem get?_add_self (h : r.Sound) (c : Category) (v : Bytes) :
    (r.add c v).2.get? (r.add c v).1 = some v := by
  rw [get?, category_add, table_add_self]
  exact Table.get?_add_self (h c) v

/-- Adding a live value again gives its key and changes nothing. -/
theorem add_of_get? (h : r.Sound) {k : Key} {v : Bytes} (hk : r.get? k = some v) :
    r.add k.category v = (k, r) := by
  rw [add, Table.add_of_get? (h _) hk, setTable_self]

/-! ### Extension -/

/-- The values that are live in `r` are live in `s`, with the same keys. -/
def Extends (r s : Registry) : Prop := ∀ k v, r.get? k = some v → s.get? k = some v

theorem Extends.refl (r : Registry) : r.Extends r := fun _ _ h => h

theorem Extends.trans {r s t : Registry} (h : r.Extends s) (h' : s.Extends t) : r.Extends t :=
  fun k v hk => h' k v (h k v hk)

theorem extends_add (h : r.Sound) (c : Category) (v : Bytes) : r.Extends (r.add c v).2 := by
  intro k w hk
  rw [get?] at hk ⊢
  by_cases hc : c = k.category
  · subst hc
    rw [table_add_self]
    exact Table.get?_add_of_get? (h _) v hk
  · rw [table_add_of_ne r v hc]
    exact hk

/-- The text of a live key stays the same. -/
theorem Extends.restore_key (h : r.Extends s) {k : Key} {v : Bytes} (hk : r.get? k = some v) :
    s.restore (.key k) = r.restore (.key k) := by
  rw [restore, restore, hk, h k v hk]

/-! ### Operations and counters -/

/-- How many values of category `d` the addition of `v` to category `c` numbers: one if it is new. -/
def fresh (r : Registry) (c : Category) (v : Bytes) (d : Category) : Nat :=
  if d = c ∧ r.find? c v = none then 1 else 0

theorem fresh_of_ne (r : Registry) {c d : Category} (v : Bytes) (h : c ≠ d) :
    r.fresh c v d = 0 :=
  if_neg fun h' => h h'.1.symm

theorem fresh_of_lookup {c : Category} {v : Bytes} {m : UInt32}
    (h : (r.table c).index.lookup v = some m) (d : Category) : r.fresh c v d = 0 := by
  refine if_neg fun h' => ?_
  rw [find?_eq_none_iff, h] at h'
  simp at h'

theorem fresh_of_lookup_none {c : Category} {v : Bytes}
    (h : (r.table c).index.lookup v = none) : r.fresh c v c = 1 :=
  if_pos ⟨rfl, find?_eq_none_iff.mpr h⟩

/-- The counters move on by one for each value that is numbered. -/
theorem toNat_next_add {c : Category} {v : Bytes} (hr : (r.table c).HasRoom v) (d : Category) :
    ((r.add c v).2.table d).next.toNat = (r.table d).next.toNat + r.fresh c v d := by
  by_cases hd : c = d
  · subst hd
    rw [table_add_self]
    cases hv : (r.table c).index.lookup v with
    | some m =>
      rw [Table.add_of_lookup hv, fresh_of_lookup hv]
      rfl
    | none =>
      rw [Table.add_of_lookup_none hv, fresh_of_lookup_none hv]
      exact Table.toNat_next_add_one hr hv
  · rw [table_add_of_ne r v hd, fresh_of_ne r v hd]
    rfl

/-- `r.Reached n` says that operations on the empty registry led to `r`, and that `n c` values were
numbered in category `c` since its table was cleared last. -/
inductive Reached : Registry → (Category → Nat) → Prop
  | empty : Reached .empty fun _ => 0
  | add {r : Registry} {n : Category → Nat} (c : Category) (v : Bytes) :
      Reached r n → Reached (r.add c v).2 fun d => n d + r.fresh c v d
  | remove {r : Registry} {n : Category → Nat} (c : Category) (k : Key) :
      Reached r n → Reached (r.remove c k) n
  | clearTable {r : Registry} {n : Category → Nat} (c : Category) :
      Reached r n → Reached (r.clearTable c) fun d => if d = c then 0 else n d

/-- **A table is sound until its counter runs out**, and up to then its counter is the number of
new values since it was cleared last. -/
theorem Reached.sound (h : r.Reached n) {c : Category} (hn : n c < UInt32.size) :
    (r.table c).Sound ∧ (r.table c).next.toNat = n c := by
  induction h with
  | empty =>
    rw [table_empty]
    exact ⟨Table.sound_empty, rfl⟩
  | @add r n d v _ ih =>
    dsimp only at hn ⊢
    obtain ⟨hs, hc⟩ := ih (by omega)
    by_cases hd : d = c
    · subst hd
      -- a new value counts, so that its number is below the bound
      have hr : (r.table d).HasRoom v := by
        intro hv
        rw [fresh_of_lookup_none hv] at hn
        omega
      refine ⟨?_, ?_⟩
      · rw [table_add_self]
        exact hs.add hr
      · rw [toNat_next_add hr, hc]
    · -- whether the other table has wrapped around does not matter
      rw [table_add_of_ne r v hd, fresh_of_ne r v hd]
      exact ⟨hs, hc⟩
  | @remove r n d k _ ih =>
    obtain ⟨hs, hc⟩ := ih hn
    by_cases hd : d = c
    · subst hd
      rw [Registry.remove, table_setTable_self, Table.next_remove]
      exact ⟨hs.remove k, hc⟩
    · rw [Registry.remove, table_setTable_of_ne r _ hd]
      exact ⟨hs, hc⟩
  | @clearTable r n d _ ih =>
    dsimp only at hn ⊢
    by_cases hd : d = c
    · subst hd
      rw [Registry.clearTable, table_setTable_self, if_pos rfl]
      exact ⟨Table.sound_empty, rfl⟩
    · rw [if_neg (Ne.symm hd)] at hn ⊢
      rw [Registry.clearTable, table_setTable_of_ne r _ hd]
      exact ih hn

/-! ### Growth -/

/-- Additions lead from the first registry to the second. -/
inductive Adds : Registry → Registry → Prop
  | refl (r : Registry) : Adds r r
  | add {r s : Registry} (c : Category) (v : Bytes) : Adds (r.add c v).2 s → Adds r s

theorem Adds.trans {r s t : Registry} (h : r.Adds s) (h' : s.Adds t) : r.Adds t := by
  induction h with
  | refl => exact h'
  | add c v _ ih => exact .add c v (ih h')

/-- How many values of a category were numbered on the way from `r` to `s`, if nothing was removed:
every new value enters the index of its table. -/
def growth (r s : Registry) (c : Category) : Nat :=
  (s.table c).index.length - (r.table c).index.length

theorem index_length_add (r : Registry) (c d : Category) (v : Bytes) :
    ((r.add c v).2.table d).index.length = (r.table d).index.length + r.fresh c v d := by
  by_cases hd : c = d
  · subst hd
    rw [table_add_self]
    cases hv : (r.table c).index.lookup v with
    | some m =>
      rw [Table.add_of_lookup hv, fresh_of_lookup hv]
      rfl
    | none =>
      rw [Table.add_of_lookup_none hv, fresh_of_lookup_none hv]
      rfl
  · rw [table_add_of_ne r v hd, fresh_of_ne r v hd]
    rfl

theorem Adds.index_length_le (h : r.Adds s) (c : Category) :
    (r.table c).index.length ≤ (s.table c).index.length := by
  induction h with
  | refl => exact Nat.le_refl _
  | add d v _ ih =>
    rw [index_length_add] at ih
    omega

/-- Additions lead from the sound registry `r` to `s`, and no counter runs out on the way. -/
structure Grows (r s : Registry) : Prop where
  adds : r.Adds s
  sound : r.Sound
  room : ∀ c, (r.table c).next.toNat + r.growth s c < UInt32.size

/-- A registry grows as long as no category reaches its `2 ^ 32`-nd new value. -/
theorem Reached.grows (h : r.Reached n) (ha : r.Adds s) (hn : ∀ c, n c + r.growth s c < UInt32.size) :
    r.Grows s where
  adds := ha
  sound := fun c => (h.sound (by have := hn c; omega)).1
  room := fun c => by
    rw [(h.sound (by have := hn c; omega)).2]
    exact hn c

section Add

variable {c : Category} {v : Bytes}

theorem Grows.hasRoom (h : r.Grows s) (ha : (r.add c v).2.Adds s) : (r.table c).HasRoom v := by
  intro hv
  have hle := ha.index_length_le c
  rw [index_length_add, fresh_of_lookup_none hv] at hle
  have := h.room c
  rw [growth] at this
  omega

/-- The first addition on the way leaves the rest of the way to go. -/
theorem Grows.add (h : r.Grows s) (ha : (r.add c v).2.Adds s) : (r.add c v).2.Grows s where
  adds := ha
  sound := h.sound.add (h.hasRoom ha)
  room := by
    intro d
    have hroom := h.room d
    have hle := ha.index_length_le d
    -- what the addition takes from the room it also takes from the growth
    rw [growth] at hroom ⊢
    rw [index_length_add] at hle ⊢
    rw [toNat_next_add (h.hasRoom ha)]
    omega

end Add

/-- Growth can be cut at every registry on the way. -/
theorem Grows.split {r m s : Registry} (h : r.Grows s) (h₁ : r.Adds m) (h₂ : m.Adds s) :
    r.Grows m ∧ m.Grows s := by
  constructor
  · refine ⟨h₁, h.sound, fun c => ?_⟩
    have hroom := h.room c
    have hle := h₂.index_length_le c
    rw [growth] at hroom ⊢
    omega
  · induction h₁ with
    | refl => exact h
    | add c v h₁ ih => exact ih (h.add (h₁.trans h₂)) h₂

/-- **Growth keeps a registry sound.** -/
theorem Grows.sound_right (h : r.Grows s) : s.Sound :=
  (h.split h.adds (.refl s)).2.sound

/-- **Growth forgets nothing.** -/
theorem Grows.extends (h : r.Grows s) : r.Extends s := by
  obtain ⟨ha, hs, hr⟩ := h
  induction ha with
  | refl => exact .refl _
  | @add r s c v ha ih =>
    have hg : (r.add c v).2.Grows s := Grows.add ⟨.add c v ha, hs, hr⟩ ha
    exact (extends_add hs c v).trans (ih hg.sound hg.room)

/-- **Growth puts nothing behind the numbers that were handed out before it.** -/
theorem Grows.get?_of_lt (h : r.Grows s) {k : Key}
    (hk : k.sequence.toNat < (r.table k.category).next.toNat) : s.get? k = r.get? k := by
  obtain ⟨ha, hs, hr⟩ := h
  induction ha with
  | refl => rfl
  | @add r s c v ha ih =>
    have hg : (r.add c v).2.Grows s := Grows.add ⟨.add c v ha, hs, hr⟩ ha
    have hnext := toNat_next_add (Grows.hasRoom ⟨.add c v ha, hs, hr⟩ ha) k.category
    rw [ih (by omega) hg.sound hg.room, get?, get?]
    by_cases hc : c = k.category
    · subst hc
      rw [table_add_self, Table.get?_add_of_lt (hs _) v hk]
    · rw [table_add_of_ne r v hc]

end Registry
end Lexicon
