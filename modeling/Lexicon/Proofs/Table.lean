import Lexicon.Table

/-!
# Sound tables

A table keeps its values twice, by number and by value.  It is *sound* when the two agree and every
live number is below the counter.  Additions keep a table sound as long as the counter has a number
to spare, and removals always do.  In a sound table the key of an added value leads back to it, and
no other value loses its key.

## Main definitions

* `Table.Inverse t` — the index and the entries of `t` are inverse to each other.
* `Table.Sound t` — the invariant of a table whose counter has not wrapped around.
* `Table.HasRoom t v` — the counter has a number to spare for `v`, should `v` be new.

## Main results

* `Table.Sound.add`, `Table.Sound.remove` — the invariant is kept.
* `Table.get?_add_self`, `Table.get?_add_of_get?` — an added value is found, and so are all others.
* `Table.add_of_get?` — adding a live value again changes nothing.
-/

namespace Lexicon

section Lookup

variable {α β : Type} [BEq α] [LawfulBEq α] [DecidableEq α]

/-- Looking up a list of pairs from its first pair on. -/
theorem lookup_cons_eq_ite (x : α) (y : β) (l : List (α × β)) (b : α) :
    ((x, y) :: l).lookup b = if b = x then some y else l.lookup b := by
  rw [List.lookup_cons]
  split
  · next h => rw [if_pos (by simpa using h)]
  · next h => rw [if_neg (by simpa using h)]

/-- Looking up a list of pairs from which a first component was taken out. -/
theorem lookup_filter_fst_ne (l : List (α × β)) (a b : α) :
    (l.filter fun e => e.1 != a).lookup b = if b = a then none else l.lookup b := by
  induction l with
  | nil => simp
  | cons e l ih =>
    obtain ⟨x, y⟩ := e
    by_cases hx : x = a
    · rw [List.filter_cons_of_neg (by simpa using hx), ih, lookup_cons_eq_ite, hx]
      split <;> rfl
    · rw [List.filter_cons_of_pos (by simpa using hx), lookup_cons_eq_ite, lookup_cons_eq_ite, ih]
      split
      · next hb => rw [if_neg (hb ▸ hx)]
      · rfl

end Lookup

namespace Table

variable {c : Category} {t : Table c}

/-! ### The invariant -/

/-- The index and the entries of a table are inverse to each other. -/
def Inverse (t : Table c) : Prop :=
  ∀ v n, t.index.lookup v = some n ↔ t.entries.lookup n = some v

/-- The invariant of a table whose counter has not wrapped around. -/
structure Sound (t : Table c) : Prop where
  inverse : t.Inverse
  /-- No number that is still to come is in use. -/
  lt_next : ∀ n v, t.entries.lookup n = some v → n.toNat < t.next.toNat

/-- The counter has a number to spare for `v`, should `v` be new. -/
def HasRoom (t : Table c) (v : Bytes) : Prop :=
  t.index.lookup v = none → t.next.toNat + 1 < UInt32.size

theorem sound_empty : (empty : Table c).Sound where
  inverse := by
    intro v n
    simp [empty]
  lt_next := by
    intro n v h
    simp [empty] at h

/-- The number of the next new value is not in use. -/
theorem Sound.lookup_next (h : t.Sound) : t.entries.lookup t.next = none := by
  cases hv : t.entries.lookup t.next with
  | none => rfl
  | some v => exact absurd (h.lt_next _ _ hv) (Nat.lt_irrefl _)

/-! ### Lookups through keys -/

theorem get?_mk (t : Table c) (n : UInt32) : t.get? ⟨c, n⟩ = t.entries.lookup n := if_pos rfl

/-- A value behind a key of another category does not exist. -/
theorem category_of_get? {k : Key} {v : Bytes} (h : t.get? k = some v) : k.category = c := by
  unfold get? at h
  split at h
  · next hk => exact hk
  · simp at h

theorem lookup_of_get? {k : Key} {v : Bytes} (h : t.get? k = some v) :
    t.entries.lookup k.sequence = some v := by
  unfold get? at h
  split at h
  · exact h
  · simp at h

/-- In a sound table the two directions of the numbering agree. -/
theorem Sound.find?_eq_some_iff (h : t.Sound) {v : Bytes} {k : Key} :
    t.find? v = some k ↔ t.get? k = some v := by
  constructor
  · intro hf
    obtain ⟨n, hn, rfl⟩ := Option.map_eq_some_iff.mp hf
    rw [get?_mk]
    exact (h.inverse v n).mp hn
  · intro hg
    have hk := category_of_get? hg
    have hn := (h.inverse v _).mpr (lookup_of_get? hg)
    rw [find?, hn, Option.map_some, ← hk]

/-! ### Adding -/

/-- A value that is in the index keeps its key, and nothing else changes. -/
theorem add_of_lookup {v : Bytes} {n : UInt32} (h : t.index.lookup v = some n) :
    t.add v = (⟨c, n⟩, t) := by
  rw [add, h]

/-- A value that is not in the index takes the number of the counter. -/
theorem add_of_lookup_none {v : Bytes} (h : t.index.lookup v = none) :
    t.add v = (⟨c, t.next⟩,
      { next := t.next + 1
        entries := place t.next v t.entries
        index := (v, t.next) :: t.index }) := by
  rw [add, h]

/-- Placing a value at a free number changes the lookup there and nowhere else. -/
theorem lookup_place {n : UInt32} {es : List (UInt32 × Bytes)} (h : es.lookup n = none)
    (v : Bytes) (m : UInt32) :
    (place n v es).lookup m = if m = n then some v else es.lookup m := by
  induction es with
  | nil => rw [place, lookup_cons_eq_ite]
  | cons e es ih =>
    obtain ⟨x, w⟩ := e
    rw [lookup_cons_eq_ite] at h
    split at h
    · simp at h
    · next hx =>
      rw [place]
      split
      · rw [lookup_cons_eq_ite]
      · rw [lookup_cons_eq_ite, lookup_cons_eq_ite, ih h]
        split
        · next hm => rw [if_neg (hm ▸ Ne.symm hx)]
        · rfl

/-- Placing a value at a free number adds one entry. -/
theorem length_place {n : UInt32} {es : List (UInt32 × Bytes)} (h : es.lookup n = none)
    (v : Bytes) : (place n v es).length = es.length + 1 := by
  induction es with
  | nil => rfl
  | cons e es ih =>
    obtain ⟨x, w⟩ := e
    rw [lookup_cons_eq_ite] at h
    split at h
    · simp at h
    · next hx =>
      rw [place]
      split
      · rfl
      · rw [List.length_cons, List.length_cons, ih h]

theorem add_category (t : Table c) (v : Bytes) : (t.add v).1.category = c := by
  cases h : t.index.lookup v with
  | none => rw [add_of_lookup_none h]
  | some n => rw [add_of_lookup h]

/-- The next number moves on without wrapping around. -/
theorem toNat_next_add_one {v : Bytes} (hr : t.HasRoom v) (h : t.index.lookup v = none) :
    (t.next + 1).toNat = t.next.toNat + 1 := by
  have hlt := hr h
  rw [UInt32.toNat_add, UInt32.toNat_one]
  exact Nat.mod_eq_of_lt hlt

/-- A value that is live, or takes a free number, leaves the maps inverse to each other. -/
theorem Inverse.add (h : t.Inverse) (hfree : t.entries.lookup t.next = none) (v : Bytes) :
    (t.add v).2.Inverse := by
  cases hv : t.index.lookup v with
  | some n =>
    rw [add_of_lookup hv]
    exact h
  | none =>
    rw [add_of_lookup_none hv]
    intro w n
    show ((v, t.next) :: t.index).lookup w = some n ↔ (place t.next v t.entries).lookup n = some w
    rw [lookup_place hfree, lookup_cons_eq_ite]
    by_cases hw : w = v
    · subst hw
      by_cases hn : n = t.next
      · simp [hn]
      · -- no entry has the new value under another number
        have hno : t.entries.lookup n ≠ some w := by
          intro he
          rw [← h, hv] at he
          simp at he
        simp [hn, hno, Ne.symm hn]
    · by_cases hn : n = t.next
      · subst hn
        have hno : t.index.lookup w ≠ some t.next := by
          intro he
          rw [h, hfree] at he
          simp at he
        simp [hw, hno, Ne.symm hw]
      · simpa [hw, hn] using h w n

/-- The key of a value that is live, or takes a free number, leads back to it. -/
theorem Inverse.get?_add_self (h : t.Inverse) (hfree : t.entries.lookup t.next = none)
    (v : Bytes) : (t.add v).2.get? (t.add v).1 = some v := by
  cases hv : t.index.lookup v with
  | some n =>
    rw [add_of_lookup hv, get?_mk]
    exact (h v n).mp hv
  | none =>
    rw [add_of_lookup_none hv, get?_mk, lookup_place hfree, if_pos rfl]

theorem Sound.add (h : t.Sound) {v : Bytes} (hr : t.HasRoom v) : (t.add v).2.Sound := by
  refine ⟨h.inverse.add h.lookup_next v, ?_⟩
  cases hv : t.index.lookup v with
  | some n =>
    rw [add_of_lookup hv]
    exact h.lt_next
  | none =>
    rw [add_of_lookup_none hv]
    intro n w hn
    show n.toNat < (t.next + 1).toNat
    rw [toNat_next_add_one hr hv]
    change (place t.next v t.entries).lookup n = some w at hn
    rw [lookup_place h.lookup_next] at hn
    split at hn
    · next he => rw [he]; omega
    · have := h.lt_next n w hn
      omega

/-- The key of an added value leads back to it. -/
theorem get?_add_self (h : t.Sound) (v : Bytes) : (t.add v).2.get? (t.add v).1 = some v :=
  h.inverse.get?_add_self h.lookup_next v

/-- Adding a value takes no value from another key. -/
theorem get?_add_of_get? (h : t.Sound) (v : Bytes) {k : Key} {w : Bytes} (hk : t.get? k = some w) :
    (t.add v).2.get? k = some w := by
  cases hv : t.index.lookup v with
  | some n =>
    rw [add_of_lookup hv]
    exact hk
  | none =>
    rw [add_of_lookup_none hv, get?, if_pos (category_of_get? hk), lookup_place h.lookup_next,
      if_neg, lookup_of_get? hk]
    intro hn
    have := lookup_of_get? hk
    rw [hn, h.lookup_next] at this
    simp at this

/-- Adding a value puts nothing behind the numbers that were handed out before. -/
theorem get?_add_of_lt (h : t.Sound) (v : Bytes) {k : Key}
    (hk : k.sequence.toNat < t.next.toNat) : (t.add v).2.get? k = t.get? k := by
  cases hv : t.index.lookup v with
  | some n => rw [add_of_lookup hv]
  | none =>
    have hne : k.sequence ≠ t.next := by
      intro heq
      rw [heq] at hk
      omega
    rw [add_of_lookup_none hv, get?, get?, lookup_place h.lookup_next, if_neg hne]

/-- Adding a live value again gives its key and changes nothing. -/
theorem add_of_get? (h : t.Sound) {k : Key} {v : Bytes} (hk : t.get? k = some v) :
    t.add v = (k, t) := by
  obtain ⟨d, n⟩ := k
  obtain rfl : d = c := category_of_get? hk
  exact add_of_lookup ((h.inverse v n).mpr (lookup_of_get? hk))

/-! ### Removing -/

theorem next_remove (t : Table c) (k : Key) : (t.remove k).next = t.next := by
  rw [Table.remove]
  split <;> rfl

/-- Removal empties the number of the key and leaves the others alone. -/
theorem Sound.remove (h : t.Sound) (k : Key) : (t.remove k).Sound := by
  rw [Table.remove]
  split
  · exact h
  · next v hk =>
    have hlook := lookup_of_get? hk
    constructor
    · intro w n
      show (t.index.filter fun e => e.1 != v).lookup w = some n ↔
        (t.entries.filter fun e => e.1 != k.sequence).lookup n = some w
      rw [lookup_filter_fst_ne, lookup_filter_fst_ne]
      by_cases hn : n = k.sequence
      · subst hn
        rw [if_pos rfl]
        split
        · simp
        · next hw =>
          rw [h.inverse, hlook]
          simp [Ne.symm hw]
      · rw [if_neg hn, ← h.inverse]
        split
        · next hw =>
          rw [hw, (h.inverse v _).mpr hlook]
          simp [Ne.symm hn]
        · rfl
    · intro n w hn
      change (t.entries.filter fun e => e.1 != k.sequence).lookup n = some w at hn
      rw [lookup_filter_fst_ne] at hn
      split at hn
      · simp at hn
      · exact h.lt_next n w hn

end Table

end Lexicon
