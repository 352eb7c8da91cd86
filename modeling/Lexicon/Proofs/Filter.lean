import Lexicon.Proofs.LogOptions
import Lexicon.Proofs.Logger
import Lexicon.Proofs.Table
import Mathlib.Data.List.TakeWhile
import Mathlib.Order.Bounds.Basic

/-!
# What the text of a filter means

The text of a filter is a list of entries between commas, and an entry gives an origin its level.
Reading such a text into a filter comes to this: for each origin the last of its entries counts, for
an origin without an entry the last one of the name that stands for all origins, and without such an
entry the general level that the filter had before.  Nothing else of the filter before is left.

## Main definitions

* `Filter.entries spec` — the entries of a text.
* `Filter.Sets e origin l` — the entry `e` gives `origin` the level `l`.
* `Filter.SetsLast es origin l` — the last entry of `origin` among `es` gives it the level `l`.
* `Filter.Means general es origin l` — the least level for `origin` is `l` after the entries `es`.
* `Filter.Reorders es es'` — entries of different origins have changed places.

## Main results

* `Filter.sets_iff` — what an entry is read as.
* `Filter.threshold_parse_eq_iff` — **the last entry counts.**
* `Filter.isLeast_least_parse` — the lowest level of a filter that was read.
* `Filter.reorders_of_perm`, `Filter.threshold_parse_congr` — the order of different origins does
  not matter.
* `Filter.parse_exact` — **a filter means what the last entries of its text say.**
-/

namespace Lexicon.Log
namespace Filter

variable {f : Filter} {e origin spec : Bytes} {l : Level} {es es' : List Bytes}

/-! ### Entries -/

/-- The entries of a text: what stands between the commas and is not empty. -/
def entries (spec : Bytes) : List Bytes :=
  (spec.splitOn Byte.comma).filter fun e => !e.isEmpty

/-- `Sets e origin l` says that the entry `e` gives `origin` the level `l`.  The origin stands
before the first equals sign, and the name of a level behind it. -/
inductive Sets : Bytes → Bytes → Level → Prop
  | bare {origin : Bytes} (h : Byte.equals ∉ origin) : Sets origin origin .trace
  | level {origin name : Bytes} {l : Level} (h : Byte.equals ∉ origin)
      (hl : Level.ofName? name = some l) : Sets (origin ++ Byte.equals :: name) origin l
  | unknown {origin name : Bytes} (h : Byte.equals ∉ origin) (hl : Level.ofName? name = none) :
      Sets (origin ++ Byte.equals :: name) origin .info

theorem takeWhile_ne_equals (h : Byte.equals ∉ origin) {t : Bytes}
    (ht : t.takeWhile (· != Byte.equals) = []) :
    (origin ++ t).takeWhile (· != Byte.equals) = origin ∧
      (origin ++ t).dropWhile (· != Byte.equals) = t.dropWhile (· != Byte.equals) := by
  have hall : ∀ b ∈ origin, (b != Byte.equals) = true := by
    intro b hb
    rw [bne_iff_ne]
    rintro rfl
    exact h hb
  rw [List.takeWhile_append_of_pos hall, List.dropWhile_append_of_pos hall, ht, List.append_nil]
  exact ⟨rfl, rfl⟩

theorem ofEntry_bare (h : Byte.equals ∉ origin) : ofEntry origin = (origin, .trace) := by
  obtain ⟨htake, hdrop⟩ := takeWhile_ne_equals h (t := []) rfl
  rw [List.append_nil] at htake hdrop
  simp [ofEntry, htake, hdrop]

theorem ofEntry_level (h : Byte.equals ∉ origin) (name : Bytes) :
    ofEntry (origin ++ Byte.equals :: name) = (origin, (Level.ofName? name).getD .info) := by
  obtain ⟨htake, hdrop⟩ := takeWhile_ne_equals h (t := Byte.equals :: name) (by simp)
  rw [List.dropWhile_cons_of_neg (by simp)] at hdrop
  simp [ofEntry, htake, hdrop]

/-- An entry has an origin without equals signs, and nothing or an equals sign and a name after
it. -/
theorem exists_origin (e : Bytes) :
    ∃ origin, Byte.equals ∉ origin ∧ (e = origin ∨ ∃ name, e = origin ++ Byte.equals :: name) := by
  refine ⟨e.takeWhile (· != Byte.equals), ?_, ?_⟩
  · intro hmem
    simpa using List.mem_takeWhile_imp hmem
  · have hsplit := List.takeWhile_append_dropWhile (p := (· != Byte.equals)) (l := e)
    cases hdrop : e.dropWhile (· != Byte.equals) with
    | nil =>
      rw [hdrop, List.append_nil] at hsplit
      exact .inl hsplit.symm
    | cons b name =>
      have hhead := List.head_dropWhile_not (· != Byte.equals) (l := e) (by simp [hdrop])
      simp only [hdrop, List.head_cons, bne_eq_false_iff_eq] at hhead
      rw [hdrop, hhead] at hsplit
      exact .inr ⟨name, hsplit.symm⟩

/-- **What an entry is read as.** -/
theorem sets_iff : Sets e origin l ↔ ofEntry e = (origin, l) := by
  constructor
  · intro h
    cases h with
    | bare h => exact ofEntry_bare h
    | level h hl => rw [ofEntry_level h, hl, Option.getD_some]
    | unknown h hl => rw [ofEntry_level h, hl, Option.getD_none]
  · intro h
    obtain ⟨origin', h', rfl | ⟨name, rfl⟩⟩ := exists_origin e
    · rw [ofEntry_bare h', Prod.mk.injEq] at h
      obtain ⟨rfl, rfl⟩ := h
      exact .bare h'
    · rw [ofEntry_level h', Prod.mk.injEq] at h
      obtain ⟨rfl, rfl⟩ := h
      cases hl : Level.ofName? name with
      | none => exact .unknown h' hl
      | some l => exact .level h' hl

/-! ### The last entry of an origin -/

/-- `Names e origin` says that the entry `e` is one for `origin`. -/
def Names (e origin : Bytes) : Prop := ∃ l, Sets e origin l

theorem names_iff : Names e origin ↔ (ofEntry e).1 = origin := by
  constructor
  · rintro ⟨l, h⟩
    rw [sets_iff.mp h]
  · rintro rfl
    exact ⟨(ofEntry e).2, sets_iff.mpr rfl⟩

/-- No entry is one for the origin. -/
def Silent (es : List Bytes) (origin : Bytes) : Prop := ∀ e ∈ es, ¬Names e origin

/-- `SetsLast es origin l` says that the last entry of the origin gives it the level `l`. -/
def SetsLast (es : List Bytes) (origin : Bytes) (l : Level) : Prop :=
  ∃ before e after, es = before ++ e :: after ∧ Sets e origin l ∧ Silent after origin

/-- The level that an entry gives an origin, if it does. -/
def levelFor? (origin e : Bytes) : Option Level :=
  if (ofEntry e).1 = origin then some (ofEntry e).2 else none

theorem levelFor?_eq_some_iff : levelFor? origin e = some l ↔ Sets e origin l := by
  rw [sets_iff, levelFor?, Prod.ext_iff]
  split
  · next h => simp [h]
  · next h => simp [h]

theorem levelFor?_eq_none_iff : levelFor? origin e = none ↔ ¬Names e origin := by
  rw [Option.eq_none_iff_forall_ne_some, Names, not_exists]
  exact forall_congr' fun l => not_congr levelFor?_eq_some_iff

/-- The level that the last entry of an origin gives it. -/
def lastLevel? (es : List Bytes) (origin : Bytes) : Option Level :=
  es.reverse.findSome? (levelFor? origin)

theorem lastLevel?_append (es es' : List Bytes) (origin : Bytes) :
    lastLevel? (es ++ es') origin = (lastLevel? es' origin).or (lastLevel? es origin) :=
  lastOf?_append (levelFor? origin) es es'

theorem lastLevel?_cons (e : Bytes) (es : List Bytes) (origin : Bytes) :
    lastLevel? (e :: es) origin = (lastLevel? es origin).or (levelFor? origin e) :=
  lastOf?_cons (levelFor? origin) e es

theorem lastLevel?_eq_none_iff : lastLevel? es origin = none ↔ Silent es origin := by
  rw [lastLevel?, List.findSome?_eq_none_iff]
  simp only [List.mem_reverse, levelFor?_eq_none_iff]
  rfl

theorem lastLevel?_eq_some_iff : lastLevel? es origin = some l ↔ SetsLast es origin l := by
  rw [lastLevel?, List.findSome?_eq_some_iff]
  constructor
  · rintro ⟨after, e, before, hes, he, hafter⟩
    refine ⟨before.reverse, e, after.reverse, ?_, levelFor?_eq_some_iff.mp he, ?_⟩
    · rw [List.reverse_eq_append_iff] at hes
      simpa using hes
    · intro e' he'
      exact levelFor?_eq_none_iff.mp (hafter e' (List.mem_reverse.mp he'))
  · rintro ⟨before, e, after, rfl, he, hafter⟩
    refine ⟨after.reverse, e, before.reverse, by simp, levelFor?_eq_some_iff.mpr he, ?_⟩
    intro e' he'
    exact levelFor?_eq_none_iff.mpr (hafter e' (List.mem_reverse.mp he'))

/-! ### Reading a text -/

theorem splitAtCommas_eq (t : Bytes) : Bytes.splitAtCommas t = t.splitOn Byte.comma := by
  induction t with
  | nil => rfl
  | cons b t ih =>
    rw [Bytes.splitAtCommas, ih, List.splitOn, List.splitOn,
      List.splitOnP_cons_eq_if_modifyHead]
    cases h : t.splitOnP (· == Byte.comma) with
    | nil => exact absurd h (List.splitOnP_ne_nil _ _)
    | cons piece rest =>
      dsimp only
      by_cases hb : b = Byte.comma
      · rw [if_pos hb, if_pos (by simpa using hb)]
      · rw [if_neg hb, if_neg (by simpa using hb)]
        rfl

/-- A text is read entry by entry, into a filter that lists nothing. -/
theorem parse_eq (f : Filter) (spec : Bytes) :
    f.parse spec = (entries spec).foldl addEntry { f with listed := [] } := by
  rw [parse, splitAtCommas_eq, entries, List.foldl_filter]
  congr 1
  funext g e
  by_cases h : e.isEmpty
  · rw [addEntry, if_pos h, if_neg (by simp [h])]
  · rw [if_pos (by simpa using h)]

theorem ne_nil_of_mem_entries (h : e ∈ entries spec) : e ≠ [] := by
  simpa using (List.mem_filter.mp h).2

/-- An entry for all origins changes the general level, and no other entry does. -/
theorem general_addEntry (he : e ≠ []) :
    (f.addEntry e).general = (levelFor? anyOrigin e).getD f.general := by
  rw [addEntry, if_neg (by simpa using he), levelFor?]
  split <;> rfl

/-- An entry for an origin changes the level that is listed for it, and no other entry does. -/
theorem lookup_addEntry (he : e ≠ []) (ho : origin ≠ anyOrigin) :
    (f.addEntry e).listed.lookup origin = (levelFor? origin e).or (f.listed.lookup origin) := by
  rw [addEntry, if_neg (by simpa using he), levelFor?]
  by_cases hany : (ofEntry e).1 = anyOrigin
  · rw [if_pos hany, if_neg (by rw [hany]; exact Ne.symm ho), Option.none_or]
  · rw [if_neg hany, list, lookup_cons_eq_ite, lookup_filter_fst_ne]
    by_cases hname : origin = (ofEntry e).1
    · rw [if_pos hname, if_pos hname.symm, Option.some_or]
    · rw [if_neg hname, if_neg hname, if_neg (Ne.symm hname), Option.none_or]

theorem general_foldl (hes : ∀ e ∈ es, e ≠ []) (f : Filter) :
    (es.foldl addEntry f).general = (lastLevel? es anyOrigin).getD f.general := by
  induction es generalizing f with
  | nil => rfl
  | cons e es ih =>
    obtain ⟨he, hes⟩ := List.forall_mem_cons.mp hes
    rw [List.foldl_cons, ih hes, general_addEntry he, lastLevel?_cons]
    cases lastLevel? es anyOrigin <;> rfl

theorem lookup_foldl (hes : ∀ e ∈ es, e ≠ []) (ho : origin ≠ anyOrigin) (f : Filter) :
    (es.foldl addEntry f).listed.lookup origin =
      (lastLevel? es origin).or (f.listed.lookup origin) := by
  induction es generalizing f with
  | nil => rfl
  | cons e es ih =>
    obtain ⟨he, hes⟩ := List.forall_mem_cons.mp hes
    rw [List.foldl_cons, ih hes, lookup_addEntry he ho, lastLevel?_cons, Option.or_assoc]

/-! ### The listed origins -/

/-- Each origin is listed once, and the name that stands for all origins is not listed. -/
structure Tidy (f : Filter) : Prop where
  once : ∀ e ∈ f.listed, f.listed.lookup e.1 = some e.2
  ne_anyOrigin : ∀ e ∈ f.listed, e.1 ≠ anyOrigin

theorem Tidy.addEntry (h : f.Tidy) (e : Bytes) : (f.addEntry e).Tidy := by
  rw [Filter.addEntry]
  split
  · exact h
  · split
    · exact ⟨h.once, h.ne_anyOrigin⟩
    · next hany =>
      constructor
      · intro d hd
        rw [list, lookup_cons_eq_ite, lookup_filter_fst_ne]
        rcases List.mem_cons.mp hd with rfl | hd
        · rw [if_pos rfl]
        · obtain ⟨hmem, hne⟩ := List.mem_filter.mp hd
          have hne : d.1 ≠ (ofEntry e).1 := by simpa using hne
          rw [if_neg hne, if_neg hne, h.once d hmem]
      · intro d hd
        rcases List.mem_cons.mp hd with rfl | hd
        · exact hany
        · exact h.ne_anyOrigin d (List.mem_filter.mp hd).1

theorem Tidy.foldl (h : f.Tidy) (es : List Bytes) : (es.foldl Filter.addEntry f).Tidy := by
  induction es generalizing f with
  | nil => exact h
  | cons e es ih => exact ih (h.addEntry e)

theorem tidy_parse (f : Filter) (spec : Bytes) : (f.parse spec).Tidy := by
  rw [parse_eq]
  exact Tidy.foldl ⟨by simp, by simp⟩ _

theorem Tidy.lookup_anyOrigin (h : f.Tidy) : f.listed.lookup anyOrigin = none := by
  rw [List.lookup_eq_none_iff]
  intro e he
  simpa using (h.ne_anyOrigin e he).symm

theorem Tidy.threshold_anyOrigin (h : f.Tidy) : f.threshold anyOrigin = f.general := by
  rw [threshold, h.lookup_anyOrigin, Option.getD_none]

/-! ### What a text means -/

theorem general_parse (f : Filter) (spec : Bytes) :
    (f.parse spec).general = (lastLevel? (entries spec) anyOrigin).getD f.general := by
  rw [parse_eq, general_foldl fun e he => ne_nil_of_mem_entries he]

/-- The listed origins are those with an entry, and the last one counts. -/
theorem lookup_parse (ho : origin ≠ anyOrigin) (f : Filter) (spec : Bytes) :
    (f.parse spec).listed.lookup origin = lastLevel? (entries spec) origin := by
  rw [parse_eq, lookup_foldl (fun e he => ne_nil_of_mem_entries he) ho, List.lookup_nil,
    Option.or_none]

theorem threshold_parse (f : Filter) (spec origin : Bytes) :
    (f.parse spec).threshold origin =
      ((lastLevel? (entries spec) origin).or (lastLevel? (entries spec) anyOrigin)).getD
        f.general := by
  by_cases ho : origin = anyOrigin
  · rw [ho, (f.tidy_parse spec).threshold_anyOrigin, general_parse, Option.or_self]
  · rw [threshold, lookup_parse ho, general_parse]
    cases lastLevel? (entries spec) origin <;> rfl

/-- `Means general es origin l` says that after the entries `es` the least level for `origin` is
`l`: the last entry of the origin sets it, or without one the last entry for all origins, and
without such an entry it is the general level before. -/
inductive Means (general : Level) (es : List Bytes) (origin : Bytes) : Level → Prop
  | last {l : Level} (h : SetsLast es origin l) : Means general es origin l
  | any {l : Level} (h : Silent es origin) (hany : SetsLast es anyOrigin l) :
      Means general es origin l
  | general (h : Silent es origin) (hany : Silent es anyOrigin) : Means general es origin general

theorem means_iff {general : Level} :
    Means general es origin l ↔
      ((lastLevel? es origin).or (lastLevel? es anyOrigin)).getD general = l := by
  constructor
  · intro h
    cases h with
    | last h => rw [lastLevel?_eq_some_iff.mpr h, Option.some_or, Option.getD_some]
    | any h hany =>
      rw [lastLevel?_eq_none_iff.mpr h, lastLevel?_eq_some_iff.mpr hany, Option.none_or,
        Option.getD_some]
    | general h hany =>
      rw [lastLevel?_eq_none_iff.mpr h, lastLevel?_eq_none_iff.mpr hany, Option.none_or,
        Option.getD_none]
  · rintro rfl
    cases h : lastLevel? es origin with
    | some l => exact .last (lastLevel?_eq_some_iff.mp h)
    | none =>
      cases hany : lastLevel? es anyOrigin with
      | some l => exact .any (lastLevel?_eq_none_iff.mp h) (lastLevel?_eq_some_iff.mp hany)
      | none => exact .general (lastLevel?_eq_none_iff.mp h) (lastLevel?_eq_none_iff.mp hany)

/-- **The last entry counts.** -/
theorem threshold_parse_eq_iff :
    (f.parse spec).threshold origin = l ↔ Means f.general (entries spec) origin l := by
  rw [threshold_parse, means_iff]

/-! ### The lowest level -/

/-- The lowest level is the general one, or one that is listed. -/
theorem least_cases (f : Filter) : f.least = f.general ∨ ∃ e ∈ f.listed, f.least = e.2 := by
  obtain ⟨general, listed⟩ := f
  show (listed.map (·.2)).foldl min general = general ∨
    ∃ e ∈ listed, (listed.map (·.2)).foldl min general = e.2
  induction listed generalizing general with
  | nil => exact .inl rfl
  | cons e listed ih =>
    rw [List.map_cons, List.foldl_cons]
    rcases ih (min general e.2) with h | ⟨d, hd, h⟩
    · rw [h]
      exact (min_choice general e.2).imp_right fun h => ⟨e, List.mem_cons_self, h⟩
    · exact .inr ⟨d, List.mem_cons_of_mem e hd, h⟩

/-- **The lowest level of a filter that was read** is the lowest one of the general level and of the
levels that the listed origins have. -/
theorem isLeast_least_parse (f : Filter) (spec : Bytes) :
    IsLeast (insert (f.parse spec).general ((f.parse spec).threshold ''
      {origin | origin ≠ anyOrigin ∧ ¬Silent (entries spec) origin})) (f.parse spec).least := by
  constructor
  · rcases (f.parse spec).least_cases with h | ⟨e, he, h⟩
    · exact .inl h
    · have hne := (f.tidy_parse spec).ne_anyOrigin e he
      have honce := (f.tidy_parse spec).once e he
      refine .inr ⟨e.1, ⟨hne, ?_⟩, ?_⟩
      · rw [← lastLevel?_eq_none_iff, ← lookup_parse hne f, honce]
        exact Option.some_ne_none _
      · rw [h, threshold, honce, Option.getD_some]
  · rintro _ (rfl | ⟨origin, -, rfl⟩)
    · exact (le_least_iff.mp (le_refl _)).1
    · exact least_le_threshold _ origin

/-! ### The order of the entries -/

/-- Two entries are for different origins. -/
def Apart (e e' : Bytes) : Prop := ∀ origin, Names e origin → ¬Names e' origin

theorem apart_iff {e e' : Bytes} : Apart e e' ↔ (ofEntry e).1 ≠ (ofEntry e').1 := by
  simp only [Apart, names_iff]
  constructor
  · intro h heq
    exact h _ rfl heq.symm
  · rintro hne origin rfl heq
    exact hne heq.symm

instance (e e' : Bytes) : Decidable (Apart e e') := decidable_of_iff _ apart_iff.symm

theorem Apart.symm {e e' : Bytes} (h : Apart e e') : Apart e' e :=
  fun origin he' he => h origin he he'

/-- `Reorders es es'` says that `es'` comes from `es` if entries of different origins that stand
next to each other change places, as often as it takes. -/
inductive Reorders : List Bytes → List Bytes → Prop
  | refl (es : List Bytes) : Reorders es es
  | swap (before after : List Bytes) {e e' : Bytes} (h : Apart e e') :
      Reorders (before ++ e :: e' :: after) (before ++ e' :: e :: after)
  | trans {es₁ es₂ es₃ : List Bytes} :
      Reorders es₁ es₂ → Reorders es₂ es₃ → Reorders es₁ es₃

theorem Reorders.cons (h : Reorders es es') (e : Bytes) : Reorders (e :: es) (e :: es') := by
  induction h with
  | refl es => exact .refl _
  | swap before after h => exact .swap (e :: before) after h
  | trans _ _ ih₁ ih₂ => exact ih₁.trans ih₂

/-- **Entries of different origins can be brought into any order.** -/
theorem reorders_of_perm (h : es.Perm es') (hes : es.Pairwise Apart) : Reorders es es' := by
  induction h with
  | nil => exact .refl []
  | cons e _ ih => exact (ih (List.Pairwise.of_cons hes)).cons e
  | swap e e' es =>
    have hapart := (List.pairwise_cons.mp hes).1 e List.mem_cons_self
    exact .swap [] es hapart
  | trans h₁ _ ih₁ ih₂ => exact (ih₁ hes).trans (ih₂ (h₁.pairwise hes Apart.symm))

/-- The last entry of an origin stays its last one. -/
theorem Reorders.lastLevel?_eq (h : Reorders es es') (origin : Bytes) :
    lastLevel? es origin = lastLevel? es' origin := by
  induction h with
  | refl es => rfl
  | trans _ _ ih₁ ih₂ => rw [ih₁, ih₂]
  | @swap before after e e' h =>
    have hone : levelFor? origin e = none ∨ levelFor? origin e' = none := by
      rw [levelFor?_eq_none_iff, levelFor?_eq_none_iff, ← not_and_or]
      exact fun hboth => h origin hboth.1 hboth.2
    have hcomm : (levelFor? origin e').or (levelFor? origin e) =
        (levelFor? origin e).or (levelFor? origin e') := by
      rcases hone with hone | hone
      · rw [hone, Option.or_none, Option.none_or]
      · rw [hone, Option.or_none, Option.none_or]
    have hpair : lastLevel? (e :: e' :: after) origin = lastLevel? (e' :: e :: after) origin := by
      rw [lastLevel?_cons, lastLevel?_cons, lastLevel?_cons, lastLevel?_cons, Option.or_assoc,
        Option.or_assoc, hcomm]
    rw [lastLevel?_append, lastLevel?_append, hpair]

theorem threshold_parse_congr {spec' : Bytes} (h : Reorders (entries spec) (entries spec'))
    (f : Filter) (origin : Bytes) :
    (f.parse spec').threshold origin = (f.parse spec).threshold origin := by
  rw [threshold_parse, threshold_parse, h.lastLevel?_eq, h.lastLevel?_eq]

theorem least_parse_congr {spec' : Bytes} (h : Reorders (entries spec) (entries spec'))
    (f : Filter) : (f.parse spec').least = (f.parse spec).least := by
  have hgeneral : (f.parse spec').general = (f.parse spec).general := by
    rw [general_parse, general_parse, h.lastLevel?_eq]
  have hthreshold : (f.parse spec').threshold = (f.parse spec).threshold :=
    funext (threshold_parse_congr h f)
  have hsilent : ∀ origin, Silent (entries spec') origin ↔ Silent (entries spec) origin := by
    intro origin
    rw [← lastLevel?_eq_none_iff, ← lastLevel?_eq_none_iff, h.lastLevel?_eq]
  have hleast := f.isLeast_least_parse spec'
  simp only [hgeneral, hthreshold, hsilent] at hleast
  exact hleast.unique (f.isLeast_least_parse spec)

/-- **A filter means what the last entries of its text say.**  After a text was read, the least
level for an origin is the one that the last entry of the origin sets, or else the last entry for
all origins, or else the general level that the filter had before; nothing else of the filter before
counts.  An event is let through from that level on, unless it is off.  The lowest level is the
lowest one of the general level and of the levels for the listed origins.  Entries of different
origins may change places, and if no two entries are for one origin they may come in any order. -/
theorem parse_exact (f : Filter) (spec : Bytes) :
    (∀ origin t, (f.parse spec).threshold origin = t ↔ Means f.general (entries spec) origin t) ∧
      (∀ l origin, (f.parse spec).accepts l origin ↔
        l ≠ .off ∧ (f.parse spec).threshold origin ≤ l) ∧
      (f.parse spec).general = (f.parse spec).threshold anyOrigin ∧
      IsLeast (insert (f.parse spec).general ((f.parse spec).threshold ''
        {origin | origin ≠ anyOrigin ∧ ¬Silent (entries spec) origin})) (f.parse spec).least ∧
      ((entries spec).Pairwise Apart →
        ∀ spec', (entries spec).Perm (entries spec') → Reorders (entries spec) (entries spec')) ∧
      ∀ spec', Reorders (entries spec) (entries spec') →
        (f.parse spec').least = (f.parse spec).least ∧
          ∀ l origin, (f.parse spec').accepts l origin = (f.parse spec).accepts l origin := by
  refine ⟨fun origin t => threshold_parse_eq_iff, ?_,
    (f.tidy_parse spec).threshold_anyOrigin.symm, f.isLeast_least_parse spec,
    fun hapart spec' hperm => reorders_of_perm hperm hapart, ?_⟩
  · intro l origin
    rw [accepts, Bool.and_eq_true, decide_eq_true_iff, decide_eq_true_iff]
  · intro spec' h
    refine ⟨least_parse_congr h f, ?_⟩
    intro l origin
    rw [accepts, accepts, threshold_parse_congr h]

/-- Entries in another order, with an origin named twice, an empty entry and an unknown level, read
into a filter that lists an origin already. -/
theorem parse_exact_reordered :
    let f : Filter := { general := .error, listed := [(ascii "strip", .trace)] }
    let spec := ascii "scan=debug,*=warn,map,scan=loud,"
    let spec' := ascii "*=warn,,scan=debug,map,scan=loud"
    Reorders (entries spec) (entries spec') ∧
      (f.parse spec').least = (f.parse spec).least ∧
      Means .error (entries spec) (ascii "strip") .warn ∧
      (f.parse spec').accepts .trace (ascii "map") = true ∧
      (f.parse spec').accepts .debug (ascii "scan") = false := by
  intro f spec spec'
  have hspec : entries spec =
      ascii "scan=debug" :: ascii "*=warn" :: [ascii "map", ascii "scan=loud"] := by
    decide +kernel
  have hspec' : entries spec' =
      ascii "*=warn" :: ascii "scan=debug" :: [ascii "map", ascii "scan=loud"] := by
    decide +kernel
  have hreorders : Reorders (entries spec) (entries spec') := by
    rw [hspec, hspec']
    exact .swap [] _ (by decide +kernel)
  obtain ⟨hmeans, -, -, -, -, hsame⟩ := f.parse_exact spec
  obtain ⟨hleast, haccepts⟩ := hsame spec' hreorders
  refine ⟨hreorders, hleast, (hmeans _ _).mp (by decide +kernel), ?_, ?_⟩
  · rw [haccepts]
    decide +kernel
  · rw [haccepts]
    decide +kernel

end Filter
end Lexicon.Log
