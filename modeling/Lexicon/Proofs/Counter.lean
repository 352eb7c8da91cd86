import Lexicon.Proofs.Slots

/-!
# The limit of the counter

The counter of a table has 32 bits.  A new value is stored properly as long as the number that it
receives is free; if that number is in use, the value enters the index alone, and its key leads to
the value that was there before.  This comes to pass only when the counter has wrapped around, with
the `2 ^ 32`-nd value since the table was cleared, and then it does as soon as the first of these
values is still live.

## Main definitions

* `Table.Collides t` — the number of the next new value is in use.
* `Table.run t ops`, `Table.counts t n ops` — where operations lead, and how many values were
  numbered since the table was cleared last.
* `Table.Counted t n` — the table `t` numbered `n` values, as its counter tells.
* `Table.single v n` — the table that holds `v` alone, and numbered `n` values.

## Main results

* `Table.add_ok_iff` — **a new value is stored exactly if its number is free.**
* `Table.Counted.perform`, `Table.Counted.run` — operations keep the count.
* `Table.run_readding` — adding and removing one value moves the counter and nothing else.
* `Table.counter_limit` — **a number is in use again after `2 ^ 32` values at the earliest**,
  and then, too, if the first value was kept.
-/

namespace Lexicon
namespace Table

variable {c : Category} {t : Table c} {v : Bytes} {n : Nat}

/-! ### Numbers in use -/

/-- The number of the next new value is that of a live one. -/
def Collides (t : Table c) : Prop := t.contains ⟨c, t.next⟩

theorem not_collides_iff : ¬t.Collides ↔ t.entries.lookup t.next = none := by
  unfold Collides contains
  rw [get?_mk, Bool.not_eq_true, Option.isSome_eq_false_iff, Option.isNone_iff_eq_none]

/-- In inverse maps a value that is not live has no number. -/
theorem Inverse.lookup_eq_none (h : t.Inverse) (hv : ∀ k, t.get? k ≠ some v) :
    t.index.lookup v = none := by
  cases hn : t.index.lookup v with
  | none => rfl
  | some n =>
    have hlive := hv ⟨c, n⟩
    rw [get?_mk] at hlive
    exact absurd ((h v n).mp hn) hlive

/-- **A new value is stored exactly if its number is free.**  Its key then leads to it, and the maps
stay inverse to each other; otherwise one of the two fails. -/
theorem add_ok_iff (h : t.Inverse) (hv : ∀ k, t.get? k ≠ some v) :
    (t.add v).2.get? (t.add v).1 = some v ∧ (t.add v).2.Inverse ↔ ¬t.Collides := by
  have hnone := h.lookup_eq_none hv
  rw [not_collides_iff]
  constructor
  · rintro ⟨-, hinv⟩
    rw [Option.eq_none_iff_forall_ne_some]
    intro w hw
    -- the index would send both values to one number
    have hne : w ≠ v := by
      rintro rfl
      exact hv ⟨c, t.next⟩ ((get?_mk t t.next).trans hw)
    rw [add_of_lookup_none hnone] at hinv
    have hnew : (place t.next v t.entries).lookup t.next = some v := by
      apply (hinv v t.next).mp
      show ((v, t.next) :: t.index).lookup v = some t.next
      rw [lookup_cons_eq_ite, if_pos rfl]
    have hold : (place t.next v t.entries).lookup t.next = some w := by
      apply (hinv w t.next).mp
      show ((v, t.next) :: t.index).lookup w = some t.next
      rw [lookup_cons_eq_ite, if_neg hne]
      exact (h w t.next).mpr hw
    rw [hnew, Option.some.injEq] at hold
    exact hne hold.symm
  · intro hfree
    exact ⟨h.get?_add_self hfree v, h.add hfree v⟩

/-! ### Counting new values -/

/-- Where a list of operations leads. -/
def run (t : Table c) (ops : List TableOperation) : Table c :=
  ops.foldl (fun t op => (t.perform op).2) t

/-- How many values were numbered since the table was cleared last, after an operation on a table
that numbered `n` so far. -/
def count (t : Table c) (n : Nat) : TableOperation → Nat
  | .add v => if t.find? v = none then n + 1 else n
  | .clear => 0
  | _ => n

/-- How many values were numbered since the table was cleared last, after a list of operations. -/
def counts (t : Table c) (n : Nat) : List TableOperation → Nat
  | [] => n
  | op :: ops => (t.perform op).2.counts (t.count n op) ops

@[simp] theorem run_nil (t : Table c) : t.run [] = t := rfl

@[simp] theorem run_cons (t : Table c) (op : TableOperation) (ops : List TableOperation) :
    t.run (op :: ops) = (t.perform op).2.run ops := rfl

/-- Up to the bound, the table is sound and its counter tells the number of values. -/
def Counted (t : Table c) (n : Nat) : Prop := n < UInt32.size → t.Sound ∧ t.next.toNat = n

theorem counted_empty : (empty : Table c).Counted 0 := fun _ => ⟨sound_empty, rfl⟩

/-- **An operation keeps the count.** -/
theorem Counted.perform (h : t.Counted n) (op : TableOperation) :
    (t.perform op).2.Counted (t.count n op) := by
  cases op with
  | add v =>
    intro hn
    show (t.add v).2.Sound ∧ (t.add v).2.next.toNat = t.count n (.add v)
    cases hv : t.index.lookup v with
    | some m =>
      have hcount : t.count n (.add v) = n := if_neg (by simp [find?, hv])
      rw [hcount] at hn ⊢
      rw [add_of_lookup hv]
      exact h hn
    | none =>
      have hcount : t.count n (.add v) = n + 1 := if_pos (by simp [find?, hv])
      rw [hcount] at hn ⊢
      obtain ⟨hs, hnext⟩ := h (by omega)
      have hr : t.HasRoom v := by
        intro _
        omega
      refine ⟨hs.add hr, ?_⟩
      rw [add_of_lookup_none hv]
      show (t.next + 1).toNat = n + 1
      rw [toNat_next_add_one hr hv, hnext]
  | remove k =>
    intro hn
    obtain ⟨hs, hnext⟩ := h hn
    exact ⟨hs.remove k, (congrArg UInt32.toNat (next_remove t k)).trans hnext⟩
  | clear => exact counted_empty
  | _ => exact h

/-- **Operations keep the count.** -/
theorem Counted.run (h : t.Counted n) (ops : List TableOperation) :
    (t.run ops).Counted (t.counts n ops) := by
  induction ops generalizing t n with
  | nil => exact h
  | cons op ops ih => exact ih (h.perform op)

/-- Before the counter wraps around, every new value gets a free number. -/
theorem Counted.not_collides (h : t.Counted n) (hn : n < UInt32.size) : ¬t.Collides :=
  not_collides_iff.mpr (h hn).1.lookup_next

/-! ### Up to the limit -/

/-- The table that holds the value `v` alone, as the first of `n` values. -/
def single (v : Bytes) (n : Nat) : Table c where
  next := n.toUInt32
  entries := [(0, v)]
  index := [(v, 0)]

/-- Adds a value and removes it again, `k` times, from the number `m` on. -/
def readding (c : Category) (v : Bytes) (m : Nat) : Nat → List TableOperation
  | 0 => []
  | k + 1 => .add v :: .remove ⟨c, m.toUInt32⟩ :: readding c v (m + 1) k

theorem clear_notMem_readding (c : Category) (v : Bytes) (m k : Nat) :
    .clear ∉ readding c v m k := by
  induction k generalizing m with
  | zero => simp [readding]
  | succ k ih => simp [readding, ih]

section single

variable {a b : Bytes}

theorem lookup_index_single (h : b ≠ a) (m : Nat) :
    (single a m : Table c).index.lookup b = none := by
  show [(a, (0 : UInt32))].lookup b = none
  rw [lookup_cons_eq_ite, if_neg h]
  rfl

/-- Another value takes the number of the counter, which is one further after its removal. -/
theorem remove_add_single (h : b ≠ a) {m : Nat} (hpos : 0 < m) (hm : m < UInt32.size) :
    ((single a m : Table c).add b).2.remove ⟨c, m.toUInt32⟩ = single a (m + 1) := by
  have hzero : m.toUInt32 ≠ 0 := by
    rw [Ne, ← UInt32.toNat_inj, UInt32.toNat_ofNat_of_lt' hm]
    exact Nat.pos_iff_ne_zero.mp hpos
  have hnext : m.toUInt32 + 1 = (m + 1).toUInt32 := by
    simp
  have hplace : place m.toUInt32 b [(0, a)] = [(0, a), (m.toUInt32, b)] := by
    have hnlt : ¬m.toUInt32 < 0 := by simp
    rw [place, if_neg hnlt, if_neg hzero]
    rfl
  rw [add_of_lookup_none (lookup_index_single h m)]
  show Table.remove ⟨m.toUInt32 + 1, place m.toUInt32 b [(0, a)], [(b, m.toUInt32), (a, 0)]⟩ _ = _
  rw [hplace, hnext, Table.remove]
  have hget : (⟨(m + 1).toUInt32, [(0, a), (m.toUInt32, b)], [(b, m.toUInt32), (a, 0)]⟩ :
      Table c).get? ⟨c, m.toUInt32⟩ = some b := by
    rw [get?_mk, lookup_cons_eq_ite, if_neg hzero, lookup_cons_eq_ite, if_pos rfl]
  rw [hget]
  simp [single, Ne.symm hzero, Ne.symm h]

/-- **Adding and removing one value moves the counter and nothing else.** -/
theorem run_readding (h : b ≠ a) {m k : Nat} (hpos : 0 < m) (hk : m + k ≤ UInt32.size) :
    (single a m : Table c).run (readding c b m k) = single a (m + k) ∧
      (single a m : Table c).counts m (readding c b m k) = m + k := by
  induction k generalizing m with
  | zero => exact ⟨rfl, rfl⟩
  | succ k ih =>
    obtain ⟨hrun, hcounts⟩ := ih (m := m + 1) (by omega) (by omega)
    have hstep := remove_add_single (c := c) h hpos (by omega)
    have hcount : (single a m : Table c).count m (.add b) = m + 1 := by
      apply if_pos
      rw [find?, lookup_index_single h]
      rfl
    have heq : m + 1 + k = m + (k + 1) := by omega
    constructor
    · show (((single a m : Table c).add b).2.remove ⟨c, m.toUInt32⟩).run _ = _
      rw [hstep, hrun, heq]
    · show (((single a m : Table c).add b).2.remove ⟨c, m.toUInt32⟩).counts
        ((single a m : Table c).count m (.add b)) _ = _
      rw [hstep, hcount, hcounts, heq]

/-- So a run that clears nothing hands out all numbers and keeps the first value. -/
theorem exists_run_single (h : b ≠ a) :
    ∃ ops, .clear ∉ ops ∧ (empty : Table c).run ops = single a UInt32.size ∧
      (empty : Table c).counts 0 ops = UInt32.size := by
  obtain ⟨ops, hops, hrun, hcounts⟩ : ∃ ops, .clear ∉ ops ∧
      (single a 1 : Table c).run ops = single a UInt32.size ∧
      (single a 1 : Table c).counts 1 ops = UInt32.size :=
    ⟨readding c b 1 (UInt32.size - 1), clear_notMem_readding c b _ _,
      run_readding h Nat.one_pos (by decide)⟩
  exact ⟨.add a :: ops, by simp [hops], hrun, hcounts⟩

/-- With all numbers handed out the counter is back at the number of the first value. -/
theorem next_single_size : (single a UInt32.size : Table c).next = 0 := rfl

/-- A value that comes then gets the key of the first one. -/
theorem get?_add_single (h : b ≠ a) :
    ((single a UInt32.size : Table c).add b).2.get? ((single a UInt32.size : Table c).add b).1 =
      some a := by
  rw [add_of_lookup_none (lookup_index_single h _), get?_mk, next_single_size]
  rfl

end single

/-! ### The limit -/

/-- **The limit of the counter.**  A value that is not live is stored, and the maps stay inverse to
each other, exactly if the number of the counter is not in use.  No run of operations leads to a
number in use before it numbered `2 ^ 32` values without clearing the table.  With exactly these one
does, which keeps its first value and adds and removes another one, and then every new value gets a
key that leads to the first one. -/
theorem counter_limit (c : Category) :
    (∀ (t : Table c) (v : Bytes), t.Inverse → (∀ k, t.get? k ≠ some v) →
      ((t.add v).2.get? (t.add v).1 = some v ∧ (t.add v).2.Inverse ↔ ¬t.Collides)) ∧
    (∀ ops, (empty : Table c).counts 0 ops < UInt32.size → ¬((empty : Table c).run ops).Collides) ∧
    ∀ a b : Bytes, b ≠ a → ∃ ops, .clear ∉ ops ∧ (empty : Table c).counts 0 ops = UInt32.size ∧
      ((empty : Table c).run ops).Collides ∧ ((empty : Table c).run ops).get? ⟨c, 0⟩ = some a ∧
      ∀ v, (∀ k, ((empty : Table c).run ops).get? k ≠ some v) → v ≠ a ∧
        (((empty : Table c).run ops).add v).2.get? (((empty : Table c).run ops).add v).1 =
          some a := by
  refine ⟨fun t v h hv => add_ok_iff h hv, ?_, ?_⟩
  · intro ops hn
    exact (counted_empty.run ops).not_collides hn
  · intro a b hab
    obtain ⟨ops, hops, hrun, hcounts⟩ := exists_run_single (c := c) hab
    have hfirst : (single a UInt32.size : Table c).get? ⟨c, 0⟩ = some a := get?_mk _ 0
    refine ⟨ops, hops, hcounts, ?_⟩
    rw [hrun]
    refine ⟨?_, hfirst, ?_⟩
    · rw [Collides, next_single_size, contains, hfirst]
      rfl
    · intro v hv
      have hne : v ≠ a := by
        rintro rfl
        exact hv _ hfirst
      exact ⟨hne, get?_add_single hne⟩

/-- A table of which the counter has wrapped around to the number of a name, and one of which it
has not. -/
theorem counter_limit_object :
    (single (ascii "x") UInt32.size : Table .object).Inverse ∧
    ¬(((single (ascii "x") UInt32.size : Table .object).add (ascii "y")).2.get? ⟨.object, 0⟩ =
        some (ascii "y") ∧
      ((single (ascii "x") UInt32.size : Table .object).add (ascii "y")).2.Inverse) ∧
    ¬((empty : Table .object).run [.add (ascii "x"), .remove ⟨.object, 0⟩]).Collides ∧
    ∃ ops, ((empty : Table .object).run ops).get? ⟨.object, 0⟩ = some (ascii "x") ∧
      ((empty : Table .object).run ops).Collides := by
  obtain ⟨hadd, hrun, hlimit⟩ := counter_limit .object
  have hinv : (single (ascii "x") UInt32.size : Table .object).Inverse := by
    intro v n
    show [(ascii "x", (0 : UInt32))].lookup v = some n ↔
      [((0 : UInt32), ascii "x")].lookup n = some v
    simp [lookup_cons_eq_ite, and_comm, eq_comm]
  have hnew : ∀ k, (single (ascii "x") UInt32.size : Table .object).get? k ≠ some (ascii "y") := by
    intro k hk
    have hlook : [((0 : UInt32), ascii "x")].lookup k.sequence = some (ascii "y") :=
      lookup_of_get? hk
    rw [lookup_cons_eq_ite] at hlook
    split at hlook
    · revert hlook
      decide
    · cases hlook
  have hcollides : (single (ascii "x") UInt32.size : Table .object).Collides := rfl
  obtain ⟨ops, -, -, hc, hfirst, -⟩ := hlimit (ascii "x") (ascii "y") (by decide)
  exact ⟨hinv, fun h => (hadd _ _ hinv hnew).mp h hcollides, hrun _ (by decide), ops, hfirst, hc⟩

end Table
end Lexicon
