import Lexicon.Proofs.Table

/-!
# Tables as lists of slots

A table can be pictured as a list of slots to which new values are appended.  The number of a value
is the position of its slot.  Removing a value blanks its slot, so that the slots behind it keep
their positions, and a value is found by scanning the slots from the first one on.  A sound table
answers every operation the way its slots do.

## Main definitions

* `Slots` — the values of a table by number, with the blank ones.
* `TableOperation`, `Answer` — the operations of a table, and what can be seen of them.
* `Table.perform`, `Slots.perform` — an operation on a table, and on slots.
* `Table.Keeps t s` — the table `t` keeps the values of the slots `s`.
* `Table.Orderly t` — equal values share a key, and keys and values come in ascending order.

## Main results

* `Slots.mem_live`, `Slots.live_append`, `Slots.live_blank` — the live values of slots, and how they
  change.
* `Table.Keeps.answer` — **a sound table answers as its slots do.**
* `Table.Keeps.perform` — **each operation does the same to a table and to its slots.**
* `Table.Keeps.orderly`, `Table.Keeps.add_ne_of_blank` — what the slots tell of the keys.
-/

namespace Lexicon

/-! ### Slots -/

/-- The values of a table by number.  The slot of a removed value is blank. -/
abbrev Slots := List (Option Bytes)

namespace Slots

/-- The live values with their numbers, where the first slot has the number `i`. -/
def liveFrom (i : Nat) : Slots → List (Nat × Bytes)
  | [] => []
  | none :: s => liveFrom (i + 1) s
  | some v :: s => (i, v) :: liveFrom (i + 1) s

/-- The live values with their numbers. -/
def live (s : Slots) : List (Nat × Bytes) := liveFrom 0 s

/-- The value of a slot. -/
def get? (s : Slots) (n : Nat) : Option Bytes := s[n]?.join

/-- The first slot with a value. -/
def find? (s : Slots) (v : Bytes) : Option Nat := s.findIdx? (· == some v)

/-- The first slot with a value, which is appended if there is none. -/
def add (s : Slots) (v : Bytes) : Nat × Slots :=
  match s.find? v with
  | some n => (n, s)
  | none => (s.length, s ++ [some v])

/-- Blanks a slot. -/
def blank (s : Slots) (n : Nat) : Slots := s.set n none

theorem get?_eq_some_iff {s : Slots} {n : Nat} {v : Bytes} :
    s.get? n = some v ↔ s[n]? = some (some v) := by
  rw [get?, Option.join_eq_some_iff]

theorem lt_length_of_get? {s : Slots} {n : Nat} {v : Bytes} (h : s.get? n = some v) :
    n < s.length := by
  obtain ⟨hlt, -⟩ := List.getElem?_eq_some_iff.mp (get?_eq_some_iff.mp h)
  exact hlt

theorem get?_of_find? {s : Slots} {n : Nat} {v : Bytes} (h : s.find? v = some n) :
    s.get? n = some v := by
  obtain ⟨hlt, hv, -⟩ := List.findIdx?_eq_some_iff_getElem.mp h
  rw [get?_eq_some_iff, List.getElem?_eq_getElem hlt, eq_of_beq hv]

theorem get?_ne_of_find?_none {s : Slots} {v : Bytes} (h : s.find? v = none) (n : Nat) :
    s.get? n ≠ some v := by
  intro hn
  have hmem := List.mem_of_getElem? (get?_eq_some_iff.mp hn)
  have hne := List.findIdx?_eq_none_iff.mp h _ hmem
  simp at hne

/-! ### The live values -/

theorem liveFrom_append (s s' : Slots) (i : Nat) :
    liveFrom i (s ++ s') = liveFrom i s ++ liveFrom (i + s.length) s' := by
  induction s generalizing i with
  | nil => rfl
  | cons o s ih =>
    have hlen : i + 1 + s.length = i + (o :: s).length := by
      rw [List.length_cons]
      omega
    cases o with
    | none => rw [List.cons_append, liveFrom, liveFrom, ih, hlen]
    | some v => rw [List.cons_append, liveFrom, liveFrom, ih, hlen, List.cons_append]

/-- A new value comes last. -/
theorem live_append (s : Slots) (v : Bytes) : live (s ++ [some v]) = live s ++ [(s.length, v)] := by
  rw [live, liveFrom_append, Nat.zero_add]
  rfl

theorem mem_liveFrom {s : Slots} {i n : Nat} {v : Bytes} :
    (n, v) ∈ liveFrom i s ↔ i ≤ n ∧ s[n - i]? = some (some v) := by
  induction s generalizing i with
  | nil => simp [liveFrom]
  | cons o s ih =>
    -- the slot of `n` is the first one, or a later one
    have hsplit : (i ≤ n ∧ (o :: s)[n - i]? = some (some v)) ↔
        (n = i ∧ o = some v) ∨ (i + 1 ≤ n ∧ s[n - (i + 1)]? = some (some v)) := by
      rcases Nat.lt_trichotomy n i with hn | rfl | hn
      · omega
      · have hlt : ¬n + 1 ≤ n := by omega
        simp [hlt]
      · have heq : n - i = n - (i + 1) + 1 := by omega
        have hne : n ≠ i := by omega
        have hle : i ≤ n := by omega
        have hle' : i + 1 ≤ n := by omega
        rw [heq, List.getElem?_cons_succ]
        simp [hne, hle, hle']
    rw [hsplit, ← ih]
    cases o with
    | none => simp [liveFrom]
    | some w => simp [liveFrom, eq_comm]

theorem mem_live {s : Slots} {n : Nat} {v : Bytes} : (n, v) ∈ s.live ↔ s.get? n = some v := by
  rw [live, mem_liveFrom, get?_eq_some_iff]
  simp

theorem liveFrom_pairwise (s : Slots) (i : Nat) :
    (liveFrom i s).Pairwise fun e e' => e.1 < e'.1 := by
  induction s generalizing i with
  | nil => exact .nil
  | cons o s ih =>
    cases o with
    | none => exact ih (i + 1)
    | some v =>
      refine .cons ?_ (ih (i + 1))
      rintro ⟨n, w⟩ hmem
      have hle := (mem_liveFrom.mp hmem).1
      exact hle

/-- The live values come in the order of their numbers. -/
theorem live_pairwise (s : Slots) : s.live.Pairwise fun e e' => e.1 < e'.1 :=
  liveFrom_pairwise s 0

theorem liveFrom_set (s : Slots) (i n : Nat) :
    liveFrom i (s.set n none) = (liveFrom i s).filter fun e => e.1 != i + n := by
  induction s generalizing i n with
  | nil => rfl
  | cons o s ih =>
    cases n with
    | zero =>
      -- no later slot has the number of the first one
      have hlater : (liveFrom (i + 1) s).filter (fun e => e.1 != i + 0) = liveFrom (i + 1) s := by
        rw [List.filter_eq_self]
        rintro ⟨m, w⟩ hmem
        have hle := (mem_liveFrom.mp hmem).1
        simp only [bne_iff_ne]
        omega
      cases o with
      | none => rw [List.set_cons_zero, liveFrom, hlater]
      | some v =>
        rw [List.set_cons_zero, liveFrom, liveFrom, List.filter_cons_of_neg (by simp), hlater]
    | succ n =>
      have heq : i + 1 + n = i + (n + 1) := by omega
      rw [List.set_cons_succ]
      cases o with
      | none => rw [liveFrom, liveFrom, ih, heq]
      | some v =>
        rw [liveFrom, liveFrom, ih, heq, List.filter_cons_of_pos (by simp)]

/-- Blanking a slot takes its value from the live ones. -/
theorem live_blank (s : Slots) (n : Nat) :
    (s.blank n).live = s.live.filter fun e => e.1 != n := by
  rw [live, blank, liveFrom_set, Nat.zero_add]
  rfl

end Slots

/-! ### Operations -/

/-- The operations of a table. -/
inductive TableOperation
  | add (v : Bytes)
  | get (k : Key)
  | find (v : Bytes)
  | contains (k : Key)
  | remove (k : Key)
  | clear
  | size
  | isEmpty
  | keys
  | values
  | next
  deriving DecidableEq, Repr

/-- What can be seen of an operation. -/
inductive Answer
  | done
  | key (k : Key)
  | value (v : Option Bytes)
  | found (k : Option Key)
  | flag (b : Bool)
  | count (n : Nat)
  | keys (ks : List Key)
  | values (vs : List Bytes)
  deriving DecidableEq, Repr

/-- An operation on a table. -/
def Table.perform {c : Category} (t : Table c) : TableOperation → Answer × Table c
  | .add v => (.key (t.add v).1, (t.add v).2)
  | .get k => (.value (t.get? k), t)
  | .find v => (.found (t.find? v), t)
  | .contains k => (.flag (t.contains k), t)
  | .remove k => (.done, t.remove k)
  | .clear => (.done, .empty)
  | .size => (.count t.size, t)
  | .isEmpty => (.flag t.isEmpty, t)
  | .keys => (.keys t.keys, t)
  | .values => (.values t.values, t)
  | .next => (.count t.next.toNat, t)

namespace Slots

/-- The key of a slot. -/
def key (c : Category) (n : Nat) : Key := ⟨c, n.toUInt32⟩

/-- The value behind a key.  A key of another category has none. -/
def behind (c : Category) (s : Slots) (k : Key) : Option Bytes :=
  if k.category = c then s.get? k.sequence.toNat else none

/-- Blanks the slot of a key.  A key of another category has none. -/
def remove (c : Category) (s : Slots) (k : Key) : Slots :=
  if k.category = c then s.blank k.sequence.toNat else s

/-- An operation on the slots of a category. -/
def perform (c : Category) (s : Slots) : TableOperation → Answer × Slots
  | .add v => (.key (key c (s.add v).1), (s.add v).2)
  | .get k => (.value (behind c s k), s)
  | .find v => (.found ((s.find? v).map (key c)), s)
  | .contains k => (.flag (behind c s k).isSome, s)
  | .remove k => (.done, remove c s k)
  | .clear => (.done, [])
  | .size => (.count s.live.length, s)
  | .isEmpty => (.flag s.live.isEmpty, s)
  | .keys => (.keys (s.live.map fun e => key c e.1), s)
  | .values => (.values (s.live.map (·.2)), s)
  | .next => (.count s.length, s)

/-- A blank slot stays blank until the slots are cleared. -/
theorem getElem?_perform_of_blank {s : Slots} {n : Nat} (h : s[n]? = some none) (c : Category)
    {op : TableOperation} (hop : op ≠ .clear) : (perform c s op).2[n]? = some none := by
  cases op with
  | clear => exact absurd rfl hop
  | add v =>
    show (s.add v).2[n]? = some none
    unfold add
    split
    · exact h
    · rw [List.getElem?_append_left (List.getElem?_eq_some_iff.mp h).1]
      exact h
  | remove k =>
    show (remove c s k)[n]? = some none
    unfold remove
    split
    · rw [blank, List.getElem?_set]
      have hlt := (List.getElem?_eq_some_iff.mp h).1
      split
      · next heq => rw [if_pos (heq ▸ hlt)]
      · exact h
    · exact h
  | _ => exact h

end Slots

/-! ### The slots of a table -/

/-- In a list of pairs with different first components, looking one up finds its pair. -/
theorem lookup_eq_some_iff_mem {α β : Type} [BEq α] [LawfulBEq α] [DecidableEq α]
    {l : List (α × β)} (h : l.Pairwise fun e e' => e.1 ≠ e'.1) {a : α} {b : β} :
    l.lookup a = some b ↔ (a, b) ∈ l := by
  induction l with
  | nil => simp
  | cons e l ih =>
    obtain ⟨x, y⟩ := e
    obtain ⟨hx, hl⟩ := List.pairwise_cons.mp h
    rw [lookup_cons_eq_ite, List.mem_cons, Prod.mk.injEq]
    by_cases ha : a = x
    · subst ha
      have hno : (a, b) ∉ l := fun hmem => hx _ hmem rfl
      simp [hno, eq_comm]
    · rw [if_neg ha, ih hl]
      simp [ha]

namespace Table

variable {c : Category} {t : Table c} {s : Slots}

/-- The table `t` keeps the values of the slots `s`. -/
structure Keeps (t : Table c) (s : Slots) : Prop where
  next : t.next.toNat = s.length
  entries : t.entries = s.live.map fun e => (e.1.toUInt32, e.2)

theorem keeps_empty : (empty : Table c).Keeps [] where
  next := rfl
  entries := rfl

/-- The numbers of the slots fit in 32 bits. -/
theorem Keeps.toNat_toUInt32 (h : t.Keeps s) {n : Nat} (hn : n < s.length) :
    n.toUInt32.toNat = n := by
  have hlt : s.length < 2 ^ 32 := h.next ▸ t.next.toNat_lt
  have hfits : n < 2 ^ 32 := by omega
  exact UInt32.toNat_ofNat_of_lt' hfits

theorem Keeps.mem_entries (h : t.Keeps s) {n : UInt32} {v : Bytes} :
    (n, v) ∈ t.entries ↔ s.get? n.toNat = some v := by
  rw [h.entries, List.mem_map, ← Slots.mem_live]
  constructor
  · rintro ⟨⟨m, w⟩, hmem, heq⟩
    rw [Prod.mk.injEq] at heq
    obtain ⟨rfl, rfl⟩ := heq
    rw [h.toNat_toUInt32 (Slots.lt_length_of_get? (Slots.mem_live.mp hmem))]
    exact hmem
  · intro hmem
    exact ⟨(n.toNat, v), hmem, by simp⟩

/-- The entries of a table come in the order of their numbers. -/
theorem Keeps.entries_pairwise (h : t.Keeps s) : t.entries.Pairwise fun e e' => e.1 < e'.1 := by
  rw [h.entries, List.pairwise_map]
  refine s.live_pairwise.imp_of_mem ?_
  rintro ⟨m, v⟩ ⟨m', v'⟩ hmem hmem' hlt
  rw [UInt32.lt_iff_toNat_lt,
    h.toNat_toUInt32 (Slots.lt_length_of_get? (Slots.mem_live.mp hmem)),
    h.toNat_toUInt32 (Slots.lt_length_of_get? (Slots.mem_live.mp hmem'))]
  exact hlt

theorem Keeps.lookup_eq_some_iff (h : t.Keeps s) {n : UInt32} {v : Bytes} :
    t.entries.lookup n = some v ↔ (n, v) ∈ t.entries :=
  lookup_eq_some_iff_mem (h.entries_pairwise.imp fun hlt => UInt32.ne_of_lt hlt)

/-- Looking up a number finds the value of its slot. -/
theorem Keeps.lookup (h : t.Keeps s) (n : UInt32) : t.entries.lookup n = s.get? n.toNat := by
  apply Option.ext
  intro v
  rw [h.lookup_eq_some_iff, h.mem_entries]

theorem Keeps.get? (h : t.Keeps s) (k : Key) : t.get? k = Slots.behind c s k := by
  unfold Table.get? Slots.behind
  rw [h.lookup]

/-- The index finds the slot that a scan finds. -/
theorem Keeps.find? (h : t.Keeps s) (hs : t.Sound) (v : Bytes) :
    t.find? v = (s.find? v).map (Slots.key c) := by
  cases hv : s.find? v with
  | none =>
    rw [Option.map_none, Option.eq_none_iff_forall_ne_some]
    intro k hk
    rw [hs.find?_eq_some_iff, h.get?, Slots.behind] at hk
    split at hk
    · exact Slots.get?_ne_of_find?_none hv _ hk
    · simp at hk
  | some n =>
    have hn := Slots.get?_of_find? hv
    rw [Option.map_some, hs.find?_eq_some_iff, Slots.key, get?_mk, h.lookup,
      h.toNat_toUInt32 (Slots.lt_length_of_get? hn)]
    exact hn

/-- A value in the index has a slot with its number. -/
theorem Keeps.find?_of_lookup (h : t.Keeps s) (hs : t.Sound) {v : Bytes} {m : UInt32}
    (hv : t.index.lookup v = some m) : ∃ n, s.find? v = some n ∧ Slots.key c n = ⟨c, m⟩ := by
  have hfind := h.find? hs v
  rw [Table.find?, hv, Option.map_some, eq_comm, Option.map_eq_some_iff] at hfind
  exact hfind

/-- A value that is not in the index has no slot. -/
theorem Keeps.find?_of_lookup_none (h : t.Keeps s) (hs : t.Sound) {v : Bytes}
    (hv : t.index.lookup v = none) : s.find? v = none := by
  have hfind := h.find? hs v
  rw [Table.find?, hv, Option.map_none, eq_comm, Option.map_eq_none_iff] at hfind
  exact hfind

/-- The number of the next new value is that of the next slot. -/
theorem Keeps.toUInt32_length (h : t.Keeps s) : s.length.toUInt32 = t.next := by
  rw [← h.next]
  simp

/-- The key of an added value is that of its slot. -/
theorem Keeps.add_fst (h : t.Keeps s) (hs : t.Sound) (v : Bytes) :
    (t.add v).1 = Slots.key c (s.add v).1 := by
  cases hv : t.index.lookup v with
  | some m =>
    obtain ⟨n, hn, hkey⟩ := h.find?_of_lookup hs hv
    rw [add_of_lookup hv, Slots.add, hn, hkey]
  | none =>
    rw [add_of_lookup_none hv, Slots.add, h.find?_of_lookup_none hs hv, Slots.key,
      h.toUInt32_length]

/-- A number above all others is placed at the end. -/
theorem place_of_lt {n : UInt32} {es : List (UInt32 × Bytes)} (h : ∀ e ∈ es, e.1 < n) (v : Bytes) :
    place n v es = es ++ [(n, v)] := by
  induction es with
  | nil => rfl
  | cons e es ih =>
    obtain ⟨he, hes⟩ := List.forall_mem_cons.mp h
    have hnlt : ¬n < e.1 := UInt32.not_lt.mpr (UInt32.le_of_lt he)
    have hne : n ≠ e.1 := Ne.symm (UInt32.ne_of_lt he)
    rw [place, if_neg hnlt, if_neg hne, ih hes, List.cons_append]

theorem Keeps.add (h : t.Keeps s) (hs : t.Sound) {v : Bytes} (hr : t.HasRoom v) :
    (t.add v).2.Keeps (s.add v).2 := by
  cases hv : t.index.lookup v with
  | some m =>
    obtain ⟨n, hn, -⟩ := h.find?_of_lookup hs hv
    rw [add_of_lookup hv, Slots.add, hn]
    exact h
  | none =>
    rw [add_of_lookup_none hv, Slots.add, h.find?_of_lookup_none hs hv]
    constructor
    · show (t.next + 1).toNat = (s ++ [some v]).length
      rw [toNat_next_add_one hr hv, h.next, List.length_append, List.length_singleton]
    · show place t.next v t.entries = _
      have hlt : ∀ e ∈ t.entries, e.1 < t.next := by
        rintro ⟨n, w⟩ hmem
        have hn := Slots.lt_length_of_get? (h.mem_entries.mp hmem)
        rw [UInt32.lt_iff_toNat_lt, h.next]
        exact hn
      rw [place_of_lt hlt, Slots.live_append, List.map_append, List.map_singleton,
        h.toUInt32_length, ← h.entries]

/-- Removal takes the entry of the key, if there is one. -/
theorem entries_remove {k : Key} (hk : k.category = c) :
    (t.remove k).entries = t.entries.filter fun e => e.1 != k.sequence := by
  unfold Table.remove
  split
  · next hnone =>
    rw [get?, if_pos hk, List.lookup_eq_none_iff] at hnone
    rw [eq_comm, List.filter_eq_self]
    intro e he
    have hne := hnone e he
    rw [bne_comm]
    simpa using hne
  · rfl

theorem Keeps.remove (h : t.Keeps s) (k : Key) : (t.remove k).Keeps (Slots.remove c s k) := by
  unfold Slots.remove
  split
  · next hk =>
    constructor
    · rw [next_remove, h.next, Slots.blank, List.length_set]
    · rw [entries_remove hk, h.entries, Slots.live_blank, List.filter_map]
      congr 1
      apply List.filter_congr
      rintro ⟨n, v⟩ hmem
      have hn := h.toNat_toUInt32 (Slots.lt_length_of_get? (Slots.mem_live.mp hmem))
      have hiff : n.toUInt32 = k.sequence ↔ n = k.sequence.toNat := by
        rw [← UInt32.toNat_inj, hn]
      show (n.toUInt32 != k.sequence) = (n != k.sequence.toNat)
      rw [Bool.eq_iff_iff, bne_iff_ne, bne_iff_ne]
      exact not_congr hiff
  · next hk =>
    have hnone : t.get? k = none := if_neg hk
    rw [Table.remove, hnone]
    exact h

theorem Keeps.size (h : t.Keeps s) : t.size = s.live.length := by
  rw [Table.size, h.entries, List.length_map]

theorem Keeps.isEmpty (h : t.Keeps s) : t.isEmpty = s.live.isEmpty := by
  rw [Table.isEmpty, h.entries, List.isEmpty_map]

theorem Keeps.keys (h : t.Keeps s) : t.keys = s.live.map fun e => Slots.key c e.1 := by
  rw [Table.keys, h.entries, List.map_map]
  rfl

theorem Keeps.values (h : t.Keeps s) : t.values = s.live.map (·.2) := by
  rw [Table.values, h.entries, List.map_map]
  rfl

/-! ### An operation on both -/

/-- **A sound table answers as its slots do.** -/
theorem Keeps.answer (h : t.Keeps s) (hs : t.Sound) (op : TableOperation) :
    (t.perform op).1 = (Slots.perform c s op).1 := by
  cases op with
  | add v => exact congrArg Answer.key (h.add_fst hs v)
  | get k => exact congrArg Answer.value (h.get? k)
  | find v => exact congrArg Answer.found (h.find? hs v)
  | contains k => exact congrArg (fun v => Answer.flag v.isSome) (h.get? k)
  | remove k => rfl
  | clear => rfl
  | size => exact congrArg Answer.count h.size
  | isEmpty => exact congrArg Answer.flag h.isEmpty
  | keys => exact congrArg Answer.keys h.keys
  | values => exact congrArg Answer.values h.values
  | next => exact congrArg Answer.count h.next

/-- **Each operation does the same to a sound table and to its slots**, as long as the counter has a
number to spare for an added value. -/
theorem Keeps.perform (h : t.Keeps s) (hs : t.Sound) {op : TableOperation}
    (hr : ∀ v, op = .add v → t.HasRoom v) : (t.perform op).2.Keeps (Slots.perform c s op).2 := by
  cases op with
  | add v => exact h.add hs (hr v rfl)
  | remove k => exact h.remove k
  | clear => exact keeps_empty
  | _ => exact h

/-! ### What the slots tell of a table -/

/-- Equal values of the table share one key, and the keys and values come in the order of the
numbers. -/
structure Orderly (t : Table c) : Prop where
  shared : ∀ k k' v, t.get? k = some v → t.get? k' = some v → k = k'
  again : ∀ k v, t.get? k = some v → (t.add v).1 = k
  ascending : t.keys.Pairwise fun k k' => k.sequence < k'.sequence
  values : t.keys.map t.get? = t.values.map some

theorem Keeps.orderly (h : t.Keeps s) (hs : t.Sound) : t.Orderly where
  shared := by
    intro k k' v hk hk'
    have hfind := hs.find?_eq_some_iff.mpr hk
    have hfind' := hs.find?_eq_some_iff.mpr hk'
    rw [hfind, Option.some.injEq] at hfind'
    exact hfind'
  again := by
    intro k v hk
    rw [add_of_get? hs hk]
  ascending := by
    rw [Table.keys, List.pairwise_map]
    exact h.entries_pairwise
  values := by
    rw [Table.keys, Table.values, List.map_map, List.map_map]
    apply List.map_congr_left
    intro e he
    show t.get? ⟨c, e.1⟩ = some e.2
    rw [get?_mk, h.lookup_eq_some_iff]
    exact he

/-- Removing a live value blanks its slot. -/
theorem Keeps.blank_of_remove (h : t.Keeps s) {k : Key} (hk : t.contains k) :
    (Slots.perform c s (.remove k)).2[k.sequence.toNat]? = some none := by
  obtain ⟨v, hv⟩ := Option.isSome_iff_exists.mp hk
  have hlook := lookup_of_get? hv
  rw [h.lookup] at hlook
  show (Slots.remove c s k)[k.sequence.toNat]? = some none
  rw [Slots.remove, if_pos (category_of_get? hv), Slots.blank,
    List.getElem?_set_self (Slots.lt_length_of_get? hlook)]

/-- The number of a blank slot has no value, and no value receives it. -/
theorem Keeps.add_ne_of_blank (h : t.Keeps s) (hs : t.Sound) {k : Key}
    (hk : s[k.sequence.toNat]? = some none) (v : Bytes) :
    t.get? k = none ∧ (t.add v).1 ≠ k := by
  have hnone : t.get? k = none := by
    rw [h.get?, Slots.behind, Slots.get?, hk]
    simp
  refine ⟨hnone, ?_⟩
  rintro rfl
  cases hv : t.index.lookup v with
  | some n =>
    rw [add_of_lookup hv, get?_mk, (hs.inverse v n).mp hv] at hnone
    simp at hnone
  | none =>
    rw [add_of_lookup_none hv, h.next] at hk
    have hlt := (List.getElem?_eq_some_iff.mp hk).1
    omega

end Table

end Lexicon
