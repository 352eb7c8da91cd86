import Lexicon.Proofs.Session
import Lexicon.Proofs.SinglePass

/-!
# Numbers in order of appearance

Literals and comments are named first, and then each pass names the values of its category, but in
the tokens that are left the new keys of every category still appear in the order of their numbers:
a category has one stage that names its values, that stage goes from left to right and leaves a key
wherever it names a value, and the other stages neither move nor drop that key.

## Main definitions

* `numbersOf c ts` — the numbers of the keys of category `c` among the tokens `ts`.
* `Table.newAmong t ns` — the numbers among `ns` that `t` has not handed out, as they first appear.
* `Table.Numbers t t' ns` — `t'` is `t` after it handed out the numbers that are new among `ns`, in
  the order of their first appearance.
* `Session.returnedAll s calls` — the tokens that some calls return.

## Main results

* `Registry.numbers_assign` — naming numbers values as their keys appear.
* `Registry.numbersOf_groupAll` — passes leave the keys of other categories where they are.
* `Table.Numbers.append` — one numbering after another is one numbering.
* `Session.map_numbers_in_order` — **mapping numbers values in the order in which their keys
  appear**, and leaves no value without a key among the tokens.
-/

namespace Lexicon

/-! ### Numbers among tokens -/

/-- The numbers of the keys of category `c` among some tokens, from left to right. -/
def numbersOf (c : Category) (ts : List Token) : List Nat :=
  ts.filterMap fun
    | .text _ => none
    | .key k => if k.category = c then some k.sequence.toNat else none

section numbersOf

variable {c : Category}

@[simp] theorem numbersOf_nil (c : Category) : numbersOf c [] = [] := rfl

@[simp] theorem numbersOf_text (c : Category) (t : Bytes) (ts : List Token) :
    numbersOf c (.text t :: ts) = numbersOf c ts := rfl

theorem numbersOf_key {k : Key} (h : k.category = c) (ts : List Token) :
    numbersOf c (.key k :: ts) = k.sequence.toNat :: numbersOf c ts :=
  List.filterMap_cons_some (if_pos h)

theorem numbersOf_key_of_ne {k : Key} (h : k.category ≠ c) (ts : List Token) :
    numbersOf c (.key k :: ts) = numbersOf c ts :=
  List.filterMap_cons_none (if_neg h)

theorem numbersOf_append (c : Category) (ts us : List Token) :
    numbersOf c (ts ++ us) = numbersOf c ts ++ numbersOf c us :=
  List.filterMap_append

theorem numbersOf_map_text (c : Category) (g : List Bytes) :
    numbersOf c (g.map .text) = [] := by
  induction g with
  | nil => rfl
  | cons t g ih => rw [List.map_cons, numbersOf_text, ih]

theorem mem_numbersOf {ts : List Token} {m : Nat} :
    m ∈ numbersOf c ts ↔ ∃ k, .key k ∈ ts ∧ k.category = c ∧ k.sequence.toNat = m := by
  rw [numbersOf, List.mem_filterMap]
  constructor
  · rintro ⟨t, ht, hm⟩
    cases t with
    | text t => simp at hm
    | key k =>
      obtain ⟨hc, heq⟩ : k.category = c ∧ k.sequence.toNat = m := by simpa using hm
      exact ⟨k, ht, hc, heq⟩
  · rintro ⟨k, hk, hc, hm⟩
    exact ⟨.key k, hk, by simp [hc, hm]⟩

theorem numbersOf_eq_nil_iff {ts : List Token} :
    numbersOf c ts = [] ↔ ∀ k, .key k ∈ ts → k.category ≠ c := by
  rw [List.eq_nil_iff_forall_not_mem]
  constructor
  · intro h k hk hc
    exact h _ (mem_numbersOf.mpr ⟨k, hk, hc, rfl⟩)
  · intro h m hm
    obtain ⟨k, hk, hc, -⟩ := mem_numbersOf.mp hm
    exact h k hk hc

/-- Scanning leaves the keys where they are. -/
theorem numbersOf_scanTokens (l : Language) (c : Category) (ts : List Token) :
    numbersOf c (l.scanTokens ts) = numbersOf c ts := by
  induction ts with
  | nil => rfl
  | cons t ts ih =>
    rw [Language.scanTokens, List.flatMap_cons, numbersOf_append]
    cases t with
    | text t =>
      show numbersOf c ((l.scan t).map .text) ++ numbersOf c (l.scanTokens ts) = _
      rw [numbersOf_map_text, ih]
      rfl
    | key k =>
      show numbersOf c [.key k] ++ numbersOf c (l.scanTokens ts) = _
      rw [ih, ← numbersOf_append]
      rfl

end numbersOf

/-! ### Numbering -/

namespace Table

variable {c : Category} {t t' : Table c} {ns : List Nat}

/-- The numbers among `ns` that the table has not handed out yet, in the order of their first
appearance. -/
def newAmong (t : Table c) (ns : List Nat) : List Nat :=
  (ns.filter fun m => t.next.toNat ≤ m).eraseDups

/-- `t.Numbers t' ns` says that `t'` is `t` after it handed out the numbers that are new among `ns`:
they first appear in the order of the counter and without gaps, and for each of them the counter
moved on by one and the table grew by one value. -/
structure Numbers (t t' : Table c) (ns : List Nat) : Prop where
  inOrder : t.newAmong ns = List.range' t.next.toNat (t.newAmong ns).length
  next : t'.next.toNat = t.next.toNat + (t.newAmong ns).length
  size : t'.size = t.size + (t.newAmong ns).length

theorem numbers_nil (t : Table c) : t.Numbers t [] := ⟨rfl, rfl, rfl⟩

/-- A number that was handed out before is not new. -/
theorem newAmong_of_lt {m : Nat} (h : m < t.next.toNat) : t.newAmong (m :: ns) = t.newAmong ns := by
  rw [newAmong, List.filter_cons_of_neg (by simpa using h), newAmong]

/-- After the number of the counter, those are new that are new to the table with the counter one
further. -/
theorem newAmong_next (h : t'.next.toNat = t.next.toNat + 1) :
    t.newAmong (t.next.toNat :: ns) = t.next.toNat :: t'.newAmong ns := by
  have hlater : ∀ m, (!(m == t.next.toNat) && decide (t.next.toNat ≤ m)) =
      decide (t'.next.toNat ≤ m) := by
    intro m
    rw [h]
    by_cases hm : m = t.next.toNat
    · simp [hm]
    · have hle : t.next.toNat ≤ m ↔ t.next.toNat + 1 ≤ m := by omega
      simp [hm, hle]
  rw [newAmong, List.filter_cons_of_pos (by simp), List.eraseDups_cons, List.filter_filter,
    newAmong]
  simp only [hlater]

/-- **The first value that a table numbers, or finds, has the first of the numbers.** -/
theorem Numbers.add (hs : t.Sound) {v : Bytes} (hr : t.HasRoom v)
    (h : (t.add v).2.Numbers t' ns) : t.Numbers t' ((t.add v).1.sequence.toNat :: ns) := by
  cases hv : t.index.lookup v with
  | some n =>
    rw [add_of_lookup hv] at h ⊢
    have hlt := hs.lt_next n v ((hs.inverse v n).mp hv)
    have hnew : t.newAmong (n.toNat :: ns) = t.newAmong ns := newAmong_of_lt hlt
    constructor
    · rw [hnew]
      exact h.inOrder
    · rw [hnew]
      exact h.next
    · rw [hnew]
      exact h.size
  | none =>
    have hkey : (t.add v).1.sequence = t.next := by rw [add_of_lookup_none hv]
    have hone : (t.add v).2.next.toNat = t.next.toNat + 1 := by
      rw [add_of_lookup_none hv]
      exact toNat_next_add_one hr hv
    have hgrown : (t.add v).2.size = t.size + 1 := by
      rw [add_of_lookup_none hv]
      exact length_place hs.lookup_next v
    have hnew : t.newAmong (t.next.toNat :: ns) = t.next.toNat :: (t.add v).2.newAmong ns :=
      newAmong_next hone
    have horder := h.inOrder
    have hnext := h.next
    have hsize := h.size
    rw [hkey]
    constructor
    · rw [hnew, List.length_cons, List.range'_succ, ← hone, ← horder]
    · rw [hnew, List.length_cons]
      omega
    · rw [hnew, List.length_cons]
      omega

/-- **One numbering after another**: what the second table has handed out before the second step has
appeared in the first. -/
theorem Numbers.append {t'' : Table c} {ns' : List Nat} (h : t.Numbers t' ns)
    (h' : t'.Numbers t'' ns') : t.Numbers t'' (ns ++ ns') := by
  have hseen : ∀ m, m ∈ ns.filter (fun m => t.next.toNat ≤ m) ↔
      t.next.toNat ≤ m ∧ m < t'.next.toNat := by
    intro m
    rw [← List.mem_eraseDups]
    show m ∈ t.newAmong ns ↔ _
    rw [h.inOrder, List.mem_range'_1, h.next]
  have hlater : (ns'.filter fun m => t.next.toNat ≤ m).removeAll
      (ns.filter fun m => t.next.toNat ≤ m) = ns'.filter fun m => t'.next.toNat ≤ m := by
    have hle := h.next
    rw [List.removeAll, List.filter_filter]
    refine List.filter_congr fun m _ => ?_
    rw [Bool.eq_iff_iff]
    simp only [Bool.and_eq_true, Bool.not_eq_true', List.elem_eq_mem, decide_eq_true_eq,
      decide_eq_false_iff_not, hseen]
    omega
  have hnew : t.newAmong (ns ++ ns') = t.newAmong ns ++ t'.newAmong ns' := by
    rw [newAmong, List.filter_append, List.eraseDups_append, hlater]
    rfl
  have horder := h.inOrder
  have horder' := h'.inOrder
  have hnext := h.next
  have hnext' := h'.next
  have hsize := h.size
  have hsize' := h'.size
  constructor
  · rw [hnew, List.length_append, ← List.range'_append_1, ← horder, ← hnext, ← horder']
  · rw [hnew, List.length_append]
    omega
  · rw [hnew, List.length_append]
    omega

end Table

/-! ### Stages that name values of a category, and stages that do not -/

/-- The passes before a pass and those behind it name values of other categories. -/
theorem Pass.exists_all_eq (p : Pass) :
    ∃ ps qs, Pass.all = ps ++ p :: qs ∧ (∀ q ∈ ps, p.category ≠ q.category) ∧
      ∀ q ∈ qs, p.category ≠ q.category := by
  cases p with
  | numbers => exact ⟨[], [objects, keywords, delimiters], rfl, by simp, by simp [category]⟩
  | objects => exact ⟨[numbers], [keywords, delimiters], rfl, by simp [category], by simp [category]⟩
  | keywords => exact ⟨[numbers, objects], [delimiters], rfl, by simp [category], by simp [category]⟩
  | delimiters => exact ⟨[numbers, objects, keywords], [], rfl, by simp [category], by simp⟩

/-- Stripping names no values of a pass. -/
theorem Pass.names_category (keep : Keep) (p : Pass) : keep.names p.category = false := by
  cases p <;> rfl

namespace Registry

variable {r s : Registry} {l : Language} {c : Category}

/-- **Naming numbers values in the order in which their keys appear.** -/
theorem numbers_assign {xs : List Lexeme} (h : r.Grows (r.assign xs).2)
    (hkept : ∀ k, .kept (.key k) ∈ xs → k.category ≠ c) :
    (r.table c).Numbers ((r.assign xs).2.table c) (numbersOf c (r.assign xs).1) := by
  induction xs generalizing r with
  | nil => exact Table.numbers_nil _
  | cons x xs ih =>
    have hrest : ∀ k, .kept (.key k) ∈ xs → k.category ≠ c :=
      fun k hk => hkept k (List.mem_cons_of_mem _ hk)
    cases x with
    | kept t =>
      rw [assign_kept]
      cases t with
      | text t => exact ih h hrest
      | key k =>
        rw [numbersOf_key_of_ne (hkept k List.mem_cons_self)]
        exact ih h hrest
    | named d v =>
      rw [assign_named] at h ⊢
      have hadds := adds_assign (r.add d v).2 xs
      have hlater := ih (h.add hadds) hrest
      by_cases hd : d = c
      · subst hd
        rw [numbersOf_key (category_add r d v)]
        rw [table_add_self] at hlater
        exact hlater.add (h.sound d) (h.hasRoom hadds)
      · rw [numbersOf_key_of_ne (by rwa [category_add])]
        rwa [table_add_of_ne r v hd] at hlater

/-- Naming leaves the table of a category alone if it names no value of it. -/
theorem table_assign {xs : List Lexeme} (h : ∀ v, .named c v ∉ xs) (r : Registry) :
    (r.assign xs).2.table c = r.table c := by
  induction xs generalizing r with
  | nil => rfl
  | cons x xs ih =>
    have hrest : ∀ v, .named c v ∉ xs := fun v hv => h v (List.mem_cons_of_mem _ hv)
    cases x with
    | kept t => exact ih hrest r
    | named d v =>
      have hd : d ≠ c := by
        rintro rfl
        exact h v List.mem_cons_self
      rw [assign_named, ih hrest, table_add_of_ne r v hd]

/-- What covers some tokens has their keys where they were, apart from the keys of new values. -/
theorem numbersOf_assign_of_covers {xs : List Lexeme} {ts : List Token} (hc : l.Covers xs ts)
    (h : ∀ v, .named c v ∉ xs) (r : Registry) :
    numbersOf c (r.assign xs).1 = numbersOf c ts := by
  induction hc generalizing r with
  | nil => rfl
  | @kept t xs ts _ ih =>
    have hlater := ih (fun v hv => h v (List.mem_cons_of_mem _ hv)) r
    rw [assign_kept]
    cases t with
    | text t => exact hlater
    | key k =>
      by_cases hk : k.category = c
      · rw [numbersOf_key hk, numbersOf_key hk, hlater]
      · rw [numbersOf_key_of_ne hk, numbersOf_key_of_ne hk, hlater]
  | @named d g hg xs ts _ ih =>
    have hd : d ≠ c := by
      rintro rfl
      exact h _ List.mem_cons_self
    have hkey : ((r.add d g.flatten).1).category ≠ c := by rwa [category_add]
    rw [assign_named, numbersOf_key_of_ne hkey, numbersOf_append, numbersOf_map_text,
      List.nil_append]
    exact ih (fun v hv => h v (List.mem_cons_of_mem _ hv)) _

/-- **Passes leave the keys and the table of every other category as they are.** -/
theorem numbersOf_groupAll {ps : List Pass} (h : ∀ p ∈ ps, c ≠ p.category) (r : Registry)
    (ts : List Token) :
    numbersOf c (r.groupAll l ts ps).1 = numbersOf c ts ∧
      (r.groupAll l ts ps).2.table c = r.table c := by
  induction ps generalizing r ts with
  | nil => exact ⟨rfl, rfl⟩
  | cons p ps ih =>
    obtain ⟨hp, hps⟩ := List.forall_mem_cons.mp h
    have hnone : ∀ v, .named c v ∉ p.lexemes l ts := fun v hv => hp (Pass.category_of_mem hv)
    obtain ⟨hnumbers, htable⟩ := ih hps (r.group l p ts).2 (r.group l p ts).1
    rw [groupAll, hnumbers, htable]
    exact ⟨numbersOf_assign_of_covers (Language.covers_lexemes l p ts) hnone r,
      table_assign hnone r⟩

/-- The pass of a category numbers its values as their keys appear in the end, if no key of the
category stood among the tokens before. -/
theorem numbers_groupAll {ps qs : List Pass} {p : Pass} (hps : ∀ q ∈ ps, p.category ≠ q.category)
    (hqs : ∀ q ∈ qs, p.category ≠ q.category) {ts : List Token}
    (h : r.Grows (r.groupAll l ts (ps ++ p :: qs)).2) (hts : numbersOf p.category ts = []) :
    (r.table p.category).Numbers ((r.groupAll l ts (ps ++ p :: qs)).2.table p.category)
      (numbersOf p.category (r.groupAll l ts (ps ++ p :: qs)).1) := by
  obtain ⟨hnumbers, htable⟩ := numbersOf_groupAll (l := l) hps r ts
  rw [groupAll_append] at h ⊢
  have hpass := (h.split (adds_groupAll r l ts ps) (adds_groupAll _ l _ _)).2.group.1
  rw [groupAll]
  obtain ⟨hnumbers', htable'⟩ := numbersOf_groupAll (l := l) hqs
    ((r.groupAll l ts ps).2.group l p (r.groupAll l ts ps).1).2
    ((r.groupAll l ts ps).2.group l p (r.groupAll l ts ps).1).1
  rw [hnumbers', htable', ← htable]
  apply numbers_assign hpass
  intro k hk
  have hmem := (Language.covers_lexemes l p _).mem_of_kept hk
  exact numbersOf_eq_nil_iff.mp (hnumbers.trans hts) k hmem

/-! ### Mapping -/

variable {keep : Keep} {text : Bytes}

/-- Stripping numbers literals and comments as their keys appear. -/
theorem numbers_scan (h : r.Grows (r.scan l keep text).2) (c : Category) :
    (r.table c).Numbers ((r.scan l keep text).2.table c)
      (numbersOf c (r.scan l keep text).1) := by
  show (r.table c).Numbers ((r.strip keep text).2.table c)
    (numbersOf c (l.scanTokens (r.strip keep text).1))
  rw [numbersOf_scanTokens]
  apply numbers_assign h
  intro k hk
  cases ofSource_strippedLexemes keep text _ hk

theorem numbersOf_scan (h : r.Grows (r.scan l keep text).2) (p : Pass) :
    numbersOf p.category (r.scan l keep text).1 = [] := by
  rw [numbersOf_eq_nil_iff]
  intro k hk
  have hmem : .key k ∈ (r.strip keep text).1 := key_mem_scanTokens.mp hk
  rcases category_of_mem_strip h hmem with hc | hc
  · rw [hc]
    cases p <;> simp [Pass.category]
  · rw [hc]
    cases p <;> simp [Pass.category]

/-- **Mapping numbers the values of every category in the order in which their keys appear.** -/
theorem numbers_map (h : r.Grows (r.map l keep text).2) (c : Category) :
    (r.table c).Numbers ((r.map l keep text).2.table c) (numbersOf c (r.map l keep text).1) := by
  obtain ⟨hscan, hpasses⟩ := h.map
  by_cases hc : ∃ p : Pass, c = p.category
  · obtain ⟨p, rfl⟩ := hc
    obtain ⟨ps, qs, hall, hps, hqs⟩ := p.exists_all_eq
    have htable : (r.scan l keep text).2.table p.category = r.table p.category :=
      table_assign (named_notMem_strippedLexemes (p.names_category keep) text) r
    rw [map, reassemble, hall] at hpasses ⊢
    rw [← htable]
    exact numbers_groupAll hps hqs hpasses (numbersOf_scan hscan p)
  · -- literals and comments are left by all passes
    have hother : ∀ p ∈ Pass.all, c ≠ p.category := fun p _ hp => hc ⟨p, hp⟩
    obtain ⟨hnumbers, htable⟩ := numbersOf_groupAll (l := l) hother (r.scan l keep text).2
      (r.scan l keep text).1
    rw [map, reassemble, hnumbers, htable]
    exact numbers_scan hscan c

/-- **Every value that was numbered on the way is behind a key that appears**, if the numbers of its
category appear among the tokens. -/
theorem key_mem_of_numbers {ts : List Token} {k : Key} {v : Bytes} (h : r.Grows s)
    (hn : (r.table k.category).Numbers (s.table k.category) (numbersOf k.category ts))
    (hs : s.get? k = some v) (hr : r.get? k = none) : .key k ∈ ts := by
  have hlt := (h.sound_right k.category).lt_next _ _ (Table.lookup_of_get? hs)
  have hle : (r.table k.category).next.toNat ≤ k.sequence.toNat := by
    -- a number that was handed out before would have its value before
    by_contra hlt
    rw [h.get?_of_lt (by omega), hr] at hs
    simp at hs
  have hmem : k.sequence.toNat ∈ (r.table k.category).newAmong (numbersOf k.category ts) := by
    rw [hn.inOrder, List.mem_range'_1]
    have hnext := hn.next
    omega
  rw [Table.newAmong, List.mem_eraseDups, List.mem_filter, mem_numbersOf] at hmem
  obtain ⟨⟨k', hk', hc, hseq⟩, -⟩ := hmem
  have heq : k' = k := by
    cases k
    cases k'
    rw [Key.mk.injEq]
    exact ⟨hc, UInt32.toNat_inj.mp hseq⟩
  rwa [heq] at hk'

end Registry

/-! ### Sessions -/

namespace Session

variable {s : Session} {l : Language}

/-- The tokens that a call returns, if it maps a text. -/
def returned (s : Session) : Call → List Token
  | .map keep text =>
    match s.map keep text with
    | .ok (tokens, _) => tokens
    | .error _ => []
  | _ => []

/-- The tokens that some calls return, one list after the other. -/
def returnedAll (s : Session) : List Call → List Token
  | [] => []
  | c :: calls => s.returned c ++ (s.perform c).returnedAll calls

/-- A call numbers values in the order in which their keys appear. -/
theorem numbers_perform {c : Call} (h : s.registry.Grows (s.perform c).registry) (d : Category) :
    (s.registry.table d).Numbers ((s.perform c).registry.table d) (numbersOf d (s.returned c)) := by
  cases c with
  | tokenize text =>
    rw [perform, tokenize_snd]
    exact Table.numbers_nil _
  | map keep text =>
    cases hl : s.language with
    | none =>
      have herror := (map_eq_error_iff keep text (e := .noLanguage)).mpr hl
      rw [perform_map_of_error herror, returned, herror]
      exact Table.numbers_nil _
    | some l =>
      have hmap := map_of_language hl keep text
      rw [perform_map_of_ok hmap] at h ⊢
      rw [returned, hmap]
      exact Registry.numbers_map h d
  | setLanguage l => exact Table.numbers_nil _
  | restore tokens => exact Table.numbers_nil _

/-- **A run numbers values in the order in which their keys appear.** -/
theorem numbers_run {calls : List Call} (h : s.registry.Grows (s.run calls).registry)
    (d : Category) :
    (s.registry.table d).Numbers ((s.run calls).registry.table d)
      (numbersOf d (s.returnedAll calls)) := by
  induction calls generalizing s with
  | nil => exact Table.numbers_nil _
  | cons c calls ih =>
    rw [run_cons] at h ⊢
    obtain ⟨hfirst, hlater⟩ := h.split (adds_perform s c) (adds_run _ calls)
    rw [returnedAll, numbersOf_append]
    exact (numbers_perform hfirst d).append (ih hlater)

/-- **Mapping numbers values in the order in which their keys appear.**  In every category the keys
with new numbers first appear in the order of the counter and without gaps; the counter and the size
of the table grow by the number of different ones; and every value that is new to the session is
behind a key that was returned.  After the session is cleared, the keys of every category first
appear in the order of their numbers from zero on, as long as it remembers its values. -/
theorem map_numbers_in_order {n : Category → Nat} (hl : s.language = some l)
    (hr : s.registry.Reached n) (keep : Keep) (text : Bytes)
    (hn : ∀ c, n c + s.registry.growth (s.registry.map l keep text).2 c < UInt32.size) :
    (∃ tokens s', s.map keep text = .ok (tokens, s') ∧
      (∀ c, (s.registry.table c).Numbers (s'.registry.table c) (numbersOf c tokens)) ∧
      ∀ k v, s'.registry.get? k = some v → s.registry.get? k = none → .key k ∈ tokens) ∧
    ∀ calls, (∀ c, s.clear.registry.growth (s.clear.run calls).registry c < UInt32.size) →
      ∀ c, (numbersOf c (s.clear.returnedAll calls)).eraseDups =
        List.range ((s.clear.run calls).registry.table c).next.toNat := by
  constructor
  · have hg := hr.grows (Registry.adds_map _ l keep text) hn
    refine ⟨_, _, map_of_language hl keep text, Registry.numbers_map hg, ?_⟩
    intro k v hs hnone
    exact Registry.key_mem_of_numbers hg (Registry.numbers_map hg _) hs hnone
  · intro calls hroom c
    have hcleared : s.clear.registry.Reached fun _ => 0 := .empty
    have hg := hcleared.grows (adds_run _ calls) fun d => by
      rw [Nat.zero_add]
      exact hroom d
    have hnumbers := numbers_run hg c
    have hzero : (s.clear.registry.table c).next.toNat = 0 := by cases c <;> rfl
    have horder := hnumbers.inOrder
    have hnext := hnumbers.next
    rw [hzero, Nat.zero_add] at hnext
    rw [hnext, List.range_eq_range']
    rw [hzero] at horder
    rw [← horder, Table.newAmong, hzero, List.filter_eq_self.mpr (by simp)]

/-- Of the names of a text, `b` is live already and has its number still, `a` was removed and gets a
new one behind that of `c`, and `c` appears twice. -/
theorem map_numbers_in_order_removed :
    ∃ tokens s',
      Session.map
          { language := some .java
            registry := ((Registry.empty.add .object (ascii "a")).2.add .object
              (ascii "b")).2.remove .object ⟨.object, 0⟩ }
          {} (ascii "c=a+b+c") = .ok (tokens, s') ∧
        numbersOf .object tokens = [2, 3, 1, 2] ∧
        (s'.registry.table .object).next.toNat = 4 := by
  let r := ((Registry.empty.add .object (ascii "a")).2.add .object (ascii "b")).2.remove .object
    ⟨.object, 0⟩
  let s : Session := { language := some .java, registry := r }
  have hr : r.Reached _ := .remove .object _ (.add .object _ (.add .object _ .empty))
  obtain ⟨⟨tokens, s', hmap, hnumbers, -⟩, -⟩ :=
    map_numbers_in_order (s := s) rfl hr {} (ascii "c=a+b+c") (by
      intro c
      cases c <;> decide +kernel)
  have hreturned : numbersOf .object (s.registry.map .java {} (ascii "c=a+b+c")).1 =
      [2, 3, 1, 2] := by
    decide +kernel
  rw [map_of_language (s := s) rfl] at hmap
  obtain ⟨rfl, -⟩ := Prod.mk.inj (Except.ok.inj hmap)
  have hnext := (hnumbers .object).next
  rw [hreturned] at hnext
  refine ⟨_, s', ?_, hreturned, hnext.trans (by decide +kernel)⟩
  rw [← hmap]
  rfl

end Session
end Lexicon
