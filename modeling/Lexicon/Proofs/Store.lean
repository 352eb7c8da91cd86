import Lexicon.Proofs.Registry
import Lexicon.Proofs.Slots
import Mathlib.Logic.Function.Basic

/-!
# The registry as a store of slots

A registry behaves like a naive store: one list of slots for each category, where a value is found
by scanning.  The two are run side by side on the same operations.  As long as no category numbers
`2 ^ 32` values without being cleared, each table of the registry keeps the values of its slots, and
the answers are the same.

## Main definitions

* `Operation` — an operation on the table of a category, or on the whole registry.
* `Registry.perform`, `Store.perform` — an operation on a registry, and on a store.
* `Operation.run`, `Operation.answers` — where operations lead, and what can be seen of them.
* `Registry.counts` — how many values each category numbered since its table was cleared last.
* `Registry.Fits r n ops` — no category numbers `2 ^ 32` values without being cleared.
* `Registry.Refines r n s` — the tables of `r` keep the values of the slots `s`.

## Main results

* `Registry.Refines.answer`, `Registry.Refines.perform` — **an operation has the same answer on
  both**, and leads from one pair to the next.
* `Registry.Refines.run` — **so does a run of operations.**
* `Registry.refines_store` — **the registry refines the store**, with what follows for its keys.
-/

namespace Lexicon

/-! ### Operations -/

/-- An operation on the table of a category, or on the whole registry. -/
inductive Operation
  | on (c : Category) (op : TableOperation)
  | get (k : Key)
  | clearAll
  | size
  | isEmpty
  deriving DecidableEq, Repr

/-- Whether an operation clears the table of a category. -/
def Operation.clears (d : Category) : Operation → Bool
  | .on c .clear => c = d
  | .clearAll => true
  | _ => false

/-- An operation on a registry. -/
def Registry.perform (r : Registry) : Operation → Answer × Registry
  | .on c op => (((r.table c).perform op).1, r.setTable c ((r.table c).perform op).2)
  | .get k => (.value (r.get? k), r)
  | .clearAll => (.done, .empty)
  | .size => (.count r.size, r)
  | .isEmpty => (.flag r.isEmpty, r)

/-- The slots of each category. -/
abbrev Store := Category → Slots

namespace Store

/-- The store without slots. -/
def empty : Store := fun _ => []

/-- An operation on a store. -/
def perform (s : Store) : Operation → Answer × Store
  | .on c op => ((Slots.perform c (s c) op).1, Function.update s c (Slots.perform c (s c) op).2)
  | .get k => (.value ((s k.category).get? k.sequence.toNat), s)
  | .clearAll => (.done, empty)
  | .size => (.count ((Category.all.map fun c => (s c).live.length).foldr (· + ·) 0), s)
  | .isEmpty => (.flag (Category.all.all fun c => (s c).live.isEmpty), s)

end Store

namespace Operation

variable {S : Type} (step : S → Operation → Answer × S)

/-- Where a list of operations leads. -/
def run (s : S) (ops : List Operation) : S := ops.foldl (fun s op => (step s op).2) s

/-- What can be seen of a list of operations. -/
def answers (s : S) : List Operation → List Answer
  | [] => []
  | op :: ops => (step s op).1 :: answers (step s op).2 ops

theorem run_cons (s : S) (op : Operation) (ops : List Operation) :
    run step s (op :: ops) = run step (step s op).2 ops :=
  List.foldl_cons ..

theorem run_append (s : S) (ops ops' : List Operation) :
    run step s (ops ++ ops') = run step (run step s ops) ops' :=
  List.foldl_append

end Operation

namespace Registry

variable {r : Registry} {n : Category → Nat} {s : Store}

/-! ### Counting new values -/

/-- How many values each category numbered since its table was cleared last, after an operation on a
registry that numbered `n` so far. -/
def count (r : Registry) (n : Category → Nat) : Operation → Category → Nat
  | .on c (.add v) => fun d => n d + r.fresh c v d
  | .on c .clear => fun d => if d = c then 0 else n d
  | .clearAll => fun _ => 0
  | _ => n

/-- How many values each category numbered since its table was cleared last, after a list of
operations. -/
def counts (r : Registry) (n : Category → Nat) : List Operation → Category → Nat
  | [] => n
  | op :: ops => (r.perform op).2.counts (r.count n op) ops

theorem Reached.perform (h : r.Reached n) (op : Operation) :
    Reached (r.perform op).2 (r.count n op) := by
  cases op with
  | on c op =>
    -- an operation that only looks puts the table back
    have hsame : Reached (r.setTable c (r.table c)) n := by
      rw [setTable_self]
      exact h
    cases op with
    | add v => exact h.add c v
    | remove k => exact h.remove c k
    | clear => exact h.clearTable c
    | _ => exact hsame
  | clearAll => exact .empty
  | _ => exact h

/-- A category whose count stays below the bound has room for one more new value. -/
theorem Reached.hasRoom (h : r.Reached n) {c : Category} {v : Bytes}
    (hn : r.count n (.on c (.add v)) c < UInt32.size) : (r.table c).HasRoom v := by
  intro hv
  have hcount : n c + r.fresh c v c < UInt32.size := hn
  rw [fresh_of_lookup_none hv] at hcount
  have hlt : n c < UInt32.size := by omega
  rw [(h.sound hlt).2]
  exact hcount

/-- An operation numbers at most one value of each category. -/
theorem count_le (r : Registry) (n : Category → Nat) (op : Operation) (d : Category) :
    r.count n op d ≤ n d + 1 := by
  unfold count
  split
  · unfold fresh
    split <;> omega
  · split <;> omega
  · omega
  · omega

/-- A run numbers no more values than it has operations. -/
theorem counts_le (r : Registry) (n : Category → Nat) (ops : List Operation) (d : Category) :
    r.counts n ops d ≤ n d + ops.length := by
  induction ops generalizing r n with
  | nil => exact Nat.le_refl _
  | cons op ops ih =>
    have hle := ih (r.perform op).2 (r.count n op)
    have hone := count_le r n op d
    rw [counts, List.length_cons]
    omega

/-- No category numbers `2 ^ 32` values during the operations without being cleared. -/
def Fits (r : Registry) (n : Category → Nat) (ops : List Operation) : Prop :=
  ∀ pre, pre <+: ops → ∀ c, r.counts n pre c < UInt32.size

theorem Fits.head {ops : List Operation} (h : r.Fits n ops) : ∀ c, n c < UInt32.size :=
  h [] List.nil_prefix

theorem Fits.tail {op : Operation} {ops : List Operation} (h : r.Fits n (op :: ops)) :
    (r.perform op).2.Fits (r.count n op) ops :=
  fun pre hpre => h (op :: pre) (List.cons_prefix_cons.mpr ⟨rfl, hpre⟩)

theorem Fits.mono {pre ops : List Operation} (h : r.Fits n ops) (hpre : pre <+: ops) :
    r.Fits n pre :=
  fun pre' hpre' => h pre' (hpre'.trans hpre)

/-! ### Registry and store side by side -/

/-- The tables of `r` keep the values of the slots `s`, and `n` counts the new values. -/
structure Refines (r : Registry) (n : Category → Nat) (s : Store) : Prop where
  reached : r.Reached n
  keeps : ∀ c, (r.table c).Keeps (s c)

theorem refines_empty : Refines .empty (fun _ => 0) .empty where
  reached := .empty
  keeps := by
    intro c
    rw [table_empty]
    exact Table.keeps_empty

/-- **An operation has the same answer on a registry and on its store.** -/
theorem Refines.answer (h : r.Refines n s) (hn : ∀ c, n c < UInt32.size) (op : Operation) :
    (r.perform op).1 = (s.perform op).1 := by
  cases op with
  | on c op => exact (h.keeps c).answer (h.reached.sound (hn c)).1 op
  | get k =>
    have hget : r.get? k = (s k.category).get? k.sequence.toNat := by
      rw [Registry.get?, (h.keeps _).get?, Slots.behind, if_pos rfl]
    exact congrArg Answer.value hget
  | clearAll => rfl
  | size =>
    have hsize : r.size = (Category.all.map fun c => (s c).live.length).foldr (· + ·) 0 := by
      simp only [Registry.size, (h.keeps _).size]
    exact congrArg Answer.count hsize
  | isEmpty =>
    have hempty : r.isEmpty = Category.all.all fun c => (s c).live.isEmpty := by
      simp only [Registry.isEmpty, (h.keeps _).isEmpty]
    exact congrArg Answer.flag hempty

/-- **An operation leads from a registry and its store to a registry and its store.** -/
theorem Refines.perform (h : r.Refines n s) (hn : ∀ c, n c < UInt32.size) {op : Operation}
    (hn' : ∀ c, r.count n op c < UInt32.size) :
    (r.perform op).2.Refines (r.count n op) (s.perform op).2 where
  reached := h.reached.perform op
  keeps := by
    cases op with
    | on c op =>
      intro d
      show ((r.setTable c ((r.table c).perform op).2).table d).Keeps
        (Function.update s c (Slots.perform c (s c) op).2 d)
      by_cases hd : c = d
      · subst hd
        rw [table_setTable_self, Function.update_self]
        refine (h.keeps c).perform (h.reached.sound (hn c)).1 ?_
        rintro v rfl
        exact h.reached.hasRoom (hn' c)
      · rw [table_setTable_of_ne r _ hd, Function.update_of_ne (Ne.symm hd)]
        exact h.keeps d
    | clearAll => exact refines_empty.keeps
    | _ => exact h.keeps

/-- **A run has the same answers on a registry and on its store**, and leads from one pair to the
next. -/
theorem Refines.run (h : r.Refines n s) {ops : List Operation} (hf : r.Fits n ops) :
    Operation.answers Registry.perform r ops = Operation.answers Store.perform s ops ∧
      (Operation.run Registry.perform r ops).Refines (r.counts n ops)
        (Operation.run Store.perform s ops) := by
  induction ops generalizing r n s with
  | nil => exact ⟨rfl, h⟩
  | cons op ops ih =>
    have hnext := h.perform hf.head hf.tail.head
    obtain ⟨hanswers, hrun⟩ := ih hnext hf.tail
    refine ⟨?_, hrun⟩
    rw [Operation.answers, Operation.answers, h.answer hf.head, hanswers]

/-! ### Removed numbers -/

/-- A blank slot of a store stays blank until its category is cleared. -/
theorem blank_run {c : Category} {i : Nat} {ops : List Operation} (h : (s c)[i]? = some none)
    (hops : ∀ op ∈ ops, op.clears c = false) :
    (Operation.run Store.perform s ops c)[i]? = some none := by
  induction ops generalizing s with
  | nil => exact h
  | cons op ops ih =>
    obtain ⟨hop, hops⟩ := List.forall_mem_cons.mp hops
    refine ih ?_ hops
    cases op with
    | on d op =>
      show (Function.update s d (Slots.perform d (s d) op).2 c)[i]? = some none
      by_cases hd : c = d
      · subst hd
        rw [Function.update_self]
        apply Slots.getElem?_perform_of_blank h
        rintro rfl
        simp [Operation.clears] at hop
      · rw [Function.update_of_ne hd]
        exact h
    | clearAll => simp [Operation.clears] at hop
    | _ => exact h

/-! ### The registry refines the store -/

/-- **The registry refines the store.**  As long as no category numbers `2 ^ 32` values without being
cleared, every answer is that of the store.  Equal values share a key, a removed number is not given
out again until its category is cleared, keys and values come in ascending order, and an operation
on one category leaves the others alone. -/
theorem refines_store (ops : List Operation) (hf : Fits .empty (fun _ => 0) ops) :
    Operation.answers Registry.perform .empty ops = Operation.answers Store.perform .empty ops ∧
    (∀ c, ((Operation.run Registry.perform .empty ops).table c).Orderly) ∧
    (∀ pre post c k, ops = pre ++ .on c (.remove k) :: post →
      ((Operation.run Registry.perform .empty pre).table c).contains k →
      (∀ op ∈ post, op.clears c = false) →
      ∀ v, ((Operation.run Registry.perform .empty ops).table c).get? k = none ∧
        ((Operation.run Registry.perform .empty ops).add c v).1 ≠ k) ∧
    (∀ c d op, c ≠ d →
      ((Operation.run Registry.perform .empty ops).perform (.on c op)).2.table d =
        (Operation.run Registry.perform .empty ops).table d) := by
  obtain ⟨hanswers, hrun⟩ := refines_empty.run hf
  have hsound : ∀ c, ((Operation.run Registry.perform .empty ops).table c).Sound :=
    fun c => (hrun.reached.sound (hf ops (List.prefix_refl ops) c)).1
  refine ⟨hanswers, fun c => (hrun.keeps c).orderly (hsound c), ?_, ?_⟩
  · intro pre post c k hops hk hpost v
    have hpre : pre <+: ops := by
      rw [hops]
      exact List.prefix_append pre _
    obtain ⟨-, hrun'⟩ := refines_empty.run (hf.mono hpre)
    -- the removal blanks the slot, and the rest of the operations keep it blank
    have hremoved : ((Operation.run Store.perform Store.empty pre).perform (.on c (.remove k))).2
        c = (Slots.perform c (Operation.run Store.perform Store.empty pre c) (.remove k)).2 :=
      Function.update_self ..
    have hblank : (Operation.run Store.perform Store.empty ops c)[k.sequence.toNat]? =
        some none := by
      rw [hops, Operation.run_append, Operation.run_cons]
      apply blank_run _ hpost
      rw [hremoved]
      exact (hrun'.keeps c).blank_of_remove hk
    exact (hrun.keeps c).add_ne_of_blank (hsound c) hblank v
  · intro c d op hcd
    exact table_setTable_of_ne _ _ hcd

/-- Two names, of which the first is removed and added again. -/
def readding : List Operation :=
  [.on .object (.add (ascii "x")), .on .object (.add (ascii "y")),
    .on .object (.remove ⟨.object, 0⟩), .on .literal (.remove ⟨.object, 1⟩),
    .on .object (.add (ascii "x")), .on .object .keys, .on .object .values, .size]

theorem refines_store_readding :
    Fits .empty (fun _ => 0) readding ∧
      Operation.answers Registry.perform .empty readding =
        [.key ⟨.object, 0⟩, .key ⟨.object, 1⟩, .done, .done, .key ⟨.object, 2⟩,
          .keys [⟨.object, 1⟩, ⟨.object, 2⟩], .values [ascii "y", ascii "x"], .count 2] := by
  have hfits : Fits .empty (fun _ => 0) readding := by
    intro pre hpre c
    have hle := counts_le .empty (fun _ => 0) pre c
    have hlen : pre.length ≤ 8 := hpre.length_le
    have hsize : 8 < UInt32.size := by decide
    omega
  refine ⟨hfits, (refines_store readding hfits).1.trans ?_⟩
  decide +kernel

end Registry

end Lexicon
