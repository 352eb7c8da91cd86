import Lexicon.Proofs.Decoding
import Lexicon.Proofs.SinglePass
import Mathlib.Logic.Equiv.Basic

/-!
# Renaming the names of a text

Mapped tokens do not tell how the names of a text are spelled.  If different names are replaced by
different names, the passes join the same tokens as before, and two chains of names are equal after
the renaming exactly if they were before, so that every value gets the number that it had.  Only the
values of the objects change.

## Main definitions

* `Language.rename f t` — the text `t`, with another name in its place if it is a name.
* `Language.renameChain f v` — the chain of names `v` with all its names replaced.
* `Registry.mapObjects g r` — the registry `r` with other texts as values of the objects.

## Main results

* `Language.taken?_rename` — renaming changes neither categories nor widths.
* `Language.renameChain_inj` — different chains are renamed to different chains.
* `Registry.reassemble_mapObjects` — **the passes commute with renaming.**
* `Registry.reassemble_rename` — **mapped tokens are invariant under renaming.**
-/

namespace Lexicon

/-! ### Renaming texts and tokens -/

namespace Language

variable {l : Language}

/-- The names of a language. -/
abbrev Name (l : Language) : Type := {t : Bytes // l.isObjectName t}

/-- A text, with another name in its place if it is a name. -/
def rename (l : Language) (f : l.Name → l.Name) (t : Bytes) : Bytes :=
  if h : l.isObjectName t then (f ⟨t, h⟩).1 else t

theorem rename_of_isObjectName {t : Bytes} (f : l.Name → l.Name) (h : l.isObjectName t) :
    l.rename f t = (f ⟨t, h⟩).1 :=
  dif_pos h

theorem rename_of_not {t : Bytes} (f : l.Name → l.Name) (h : l.isObjectName t = false) :
    l.rename f t = t :=
  dif_neg (by simp [h])

@[simp] theorem isObjectName_rename (f : l.Name → l.Name) (t : Bytes) :
    l.isObjectName (l.rename f t) = l.isObjectName t := by
  cases h : l.isObjectName t with
  | true =>
    rw [rename_of_isObjectName f h]
    exact (f ⟨t, h⟩).2
  | false => rw [rename_of_not f h, h]

/-- Different texts are renamed to different texts. -/
theorem rename_injective {f : l.Name → l.Name} (hf : Function.Injective f) :
    Function.Injective (l.rename f) := by
  intro t u h
  have hname : l.isObjectName t = l.isObjectName u := by
    rw [← isObjectName_rename f t, h, isObjectName_rename]
  cases ht : l.isObjectName t with
  | true =>
    have hu := hname.symm.trans ht
    rw [rename_of_isObjectName f ht, rename_of_isObjectName f hu] at h
    exact congrArg Subtype.val (hf (Subtype.ext h))
  | false =>
    have hu := hname.symm.trans ht
    rwa [rename_of_not f ht, rename_of_not f hu] at h

/-- Renaming does not matter to a property that no name has. -/
theorem apply_rename {p : Bytes → Bool} (hp : ∀ t, l.isObjectName t → p t = false)
    (f : l.Name → l.Name) (t : Bytes) : p (l.rename f t) = p t := by
  cases h : l.isObjectName t with
  | true => rw [hp _ ((isObjectName_rename f t).trans h), hp t h]
  | false => rw [rename_of_not f h]

/-- A text with a property that no name has stays. -/
theorem rename_eq_self {p : Bytes → Bool} (hp : ∀ t, l.isObjectName t → p t = false)
    (f : l.Name → l.Name) {t : Bytes} (h : p t) : l.rename f t = t := by
  refine rename_of_not f ?_
  by_contra hname
  rw [Bool.not_eq_false] at hname
  rw [hp t hname] at h
  simp at h

theorem isKeyword_of_isObjectName {t : Bytes} (h : l.isObjectName t) : l.isKeyword t = false := by
  cases t with
  | nil => simp [isObjectName] at h
  | cons b t =>
    simp only [isObjectName, Bool.and_eq_true, Bool.not_eq_true'] at h
    exact h.1.2

theorem isDelimiter_of_isObjectName {t : Bytes} (h : l.isObjectName t) :
    l.isDelimiter t = false := by
  cases t with
  | nil => simp [isObjectName] at h
  | cons b t =>
    simp only [isObjectName, Bool.and_eq_true, Bool.not_eq_true'] at h
    exact h.2

/-- Call delimiters are delimiters. -/
theorem isDelimiter_of_isCall {t : Bytes} (h : l.isCall t) : l.isDelimiter t := by
  have hmem := List.mem_filter.mp (List.contains_iff_mem.mp h)
  refine List.contains_iff_mem.mpr (List.mem_filter.mpr ⟨?_, hmem.2⟩)
  exact List.mem_append_right _ hmem.1

theorem isCall_of_isObjectName {t : Bytes} (h : l.isObjectName t) : l.isCall t = false := by
  by_contra hcall
  rw [Bool.not_eq_false] at hcall
  have hdelimiter := isDelimiter_of_isCall hcall
  rw [isDelimiter_of_isObjectName h] at hdelimiter
  simp at hdelimiter

theorem ne_point_of_isObjectName {t : Bytes} (h : l.isObjectName t) : (t == point) = false := by
  rw [beq_eq_false_iff_ne]
  rintro rfl
  rw [not_isObjectName_point] at h
  simp at h

end Language

/-- A token with its text replaced, if it is one. -/
def Token.mapText (g : Bytes → Bytes) : Token → Token
  | .text t => .text (g t)
  | .key k => .key k

@[simp] theorem Token.mapText_text (g : Bytes → Bytes) (t : Bytes) :
    (Token.text t).mapText g = .text (g t) := rfl

@[simp] theorem Token.mapText_key (g : Bytes → Bytes) (k : Key) :
    (Token.key k).mapText g = .key k := rfl

theorem Token.isText_mapText {p : Bytes → Bool} {g : Bytes → Bytes} (h : ∀ t, p (g t) = p t)
    (t : Token) : (t.mapText g).isText p = t.isText p := by
  cases t with
  | text t => exact h t
  | key k => rfl

theorem textAt_map {p : Bytes → Bool} {g : Bytes → Bytes} (h : ∀ t, p (g t) = p t)
    (ts : List Token) (i : Nat) : textAt p (ts.map (Token.mapText g)) i = textAt p ts i := by
  induction ts generalizing i with
  | nil => rfl
  | cons t ts ih =>
    cases i with
    | zero => exact Token.isText_mapText h t
    | succ i => simpa using ih i

theorem filterMap_text?_map (g : Bytes → Bytes) (ts : List Token) :
    (ts.map (Token.mapText g)).filterMap Token.text? = (ts.filterMap Token.text?).map g := by
  induction ts with
  | nil => rfl
  | cons t ts ih =>
    cases t with
    | text t => simpa [Token.text?] using ih
    | key k => exact ih

/-! ### Groups -/

namespace Language

variable {l : Language}

theorem numberWidth_rename (f : l.Name → l.Name) (ts : List Token) :
    numberWidth (ts.map (Token.mapText (l.rename f))) = numberWidth ts := by
  have hdigits := apply_rename (p := isDigitRun) (fun t => isDigitRun_of_isObjectName) f
  have hpoint := apply_rename (p := fun t => t == point) (fun t => ne_point_of_isObjectName) f
  simp only [numberWidth, textAt_map hdigits, textAt_map (p := fun t => t == point) hpoint]

theorem linksWidth_rename (f : l.Name → l.Name) (ts : List Token) :
    l.linksWidth (ts.map (Token.mapText (l.rename f))) = l.linksWidth ts := by
  have hcall := apply_rename (p := fun t => l.isCall t && !isDigitRun t)
    (fun t ht => by simp [isCall_of_isObjectName ht]) f
  have hname := isObjectName_rename (l := l) f
  fun_induction linksWidth l ts with
  | case1 d m rest h ih =>
    rw [List.map_cons, List.map_cons, linksWidth, Token.isText_mapText hcall,
      Token.isText_mapText hname, if_pos h, ih]
  | case2 d m rest h =>
    rw [List.map_cons, List.map_cons, linksWidth, Token.isText_mapText hcall,
      Token.isText_mapText hname, if_neg h]
  | case3 ts h =>
    cases ts with
    | nil => rfl
    | cons d ts =>
      cases ts with
      | nil => rfl
      | cons m rest => exact absurd rfl (h d m rest)

/-- **Renaming changes neither the categories of values nor their widths.** -/
theorem taken?_rename (f : l.Name → l.Name) (ts : List Token) :
    l.taken? (ts.map (Token.mapText (l.rename f))) = l.taken? ts := by
  have hname := isObjectName_rename (l := l) f
  have hkeyword := apply_rename (p := l.isKeyword) (fun t => isKeyword_of_isObjectName) f
  have hdelimiter := apply_rename (p := l.isDelimiter) (fun t => isDelimiter_of_isObjectName) f
  simp only [taken?, numberWidth_rename, textAt_map hname, textAt_map hkeyword,
    textAt_map hdelimiter, ← List.map_tail, linksWidth_rename]

/-- Only chains of names hold names. -/
theorem IsGroup.map_rename_of_ne {c : Category} {g : List Bytes} (h : l.IsGroup c g)
    (hc : c ≠ .object) (f : l.Name → l.Name) : g.map (l.rename f) = g := by
  have hpoint : l.rename f point = point := rename_of_not f not_isObjectName_point
  have hdigits : ∀ {d}, isDigitRun d → l.rename f d = d :=
    rename_eq_self (fun _ => isDigitRun_of_isObjectName) f
  cases h with
  | digits hd => simp [hdigits hd]
  | digitsPoint hd => simp [hdigits hd, hpoint]
  | decimal hd he => simp [hdigits hd, hdigits he, hpoint]
  | fraction he => simp [hdigits he, hpoint]
  | name hm => exact absurd rfl hc
  | call hm hd hg => exact absurd rfl hc
  | keyword hk => simp [rename_eq_self (fun _ => isKeyword_of_isObjectName) f hk]
  | delimiter hd => simp [rename_eq_self (fun _ => isDelimiter_of_isObjectName) f hd]

/-- A chain of names stays one when its names are replaced. -/
theorem IsGroup.map_rename {g : List Bytes} (h : l.IsGroup .object g) (f : l.Name → l.Name) :
    l.IsGroup .object (g.map (l.rename f)) := by
  generalize hc : Category.object = c at h
  induction h with
  | name hm => exact .name ((isObjectName_rename f _).trans hm)
  | call hm hd _ ih =>
    rw [List.map_cons, List.map_cons, rename_eq_self (fun _ => isCall_of_isObjectName) f hd]
    exact .call ((isObjectName_rename f _).trans hm) hd (ih rfl)
  | _ => simp at hc

/-- The text of a chain of names. -/
def IsCallChain (l : Language) (v : Bytes) : Prop := ∃ g, l.IsGroup .object g ∧ v = g.flatten

/-- A chain of names with all its names replaced. -/
def renameChain (l : Language) (f : l.Name → l.Name) (v : Bytes) : Bytes :=
  ((parts .object v).map (l.rename f)).flatten

theorem renameChain_flatten (hl : l.PlainCalls) {g : List Bytes} (h : l.IsGroup .object g)
    (f : l.Name → l.Name) : l.renameChain f g.flatten = (g.map (l.rename f)).flatten := by
  rw [renameChain, h.parts_flatten hl]

/-- **Different chains are renamed to different chains.** -/
theorem renameChain_inj (hl : l.PlainCalls) {f : l.Name → l.Name} (hf : Function.Injective f)
    {v w : Bytes} (hv : l.IsCallChain v) (hw : l.IsCallChain w)
    (h : l.renameChain f v = l.renameChain f w) : v = w := by
  obtain ⟨g, hg, rfl⟩ := hv
  obtain ⟨g', hg', rfl⟩ := hw
  rw [renameChain_flatten hl hg, renameChain_flatten hl hg'] at h
  -- a chain can be taken apart again, after the renaming as before it
  have hparts : g.map (l.rename f) = g'.map (l.rename f) := by
    rw [← (hg.map_rename f).parts_flatten hl, h, (hg'.map_rename f).parts_flatten hl]
  rw [List.map_injective_iff.mpr (rename_injective hf) hparts]

end Language

/-! ### Tables with other values -/

namespace Table

variable {c : Category}

/-- A table with other texts as values. -/
def mapValues (g : Bytes → Bytes) (t : Table c) : Table c where
  next := t.next
  entries := t.entries.map fun e => (e.1, g e.2)
  index := t.index.map fun e => (g e.1, e.2)

@[simp] theorem keys_mapValues (g : Bytes → Bytes) (t : Table c) :
    (t.mapValues g).keys = t.keys := by
  simp [keys, mapValues]

theorem place_map (g : Bytes → Bytes) (n : UInt32) (v : Bytes) (es : List (UInt32 × Bytes)) :
    place n (g v) (es.map fun e => (e.1, g e.2)) = (place n v es).map fun e => (e.1, g e.2) := by
  induction es with
  | nil => rfl
  | cons e es ih =>
    rw [List.map_cons, place, place]
    split
    · rfl
    · split
      · rfl
      · rw [List.map_cons, ih]

/-- Looking up another text in a list of pairs with other texts. -/
theorem lookup_map_fst {g : Bytes → Bytes} {v : Bytes} {ix : List (Bytes × UInt32)}
    (h : ∀ e ∈ ix, g v = g e.1 → v = e.1) :
    (ix.map fun e => (g e.1, e.2)).lookup (g v) = ix.lookup v := by
  induction ix with
  | nil => rfl
  | cons e ix ih =>
    obtain ⟨w, n⟩ := e
    obtain ⟨he, hix⟩ := List.forall_mem_cons.mp h
    rw [List.map_cons, lookup_cons_eq_ite, lookup_cons_eq_ite, ih hix]
    by_cases hv : v = w
    · rw [if_pos hv, if_pos (congrArg g hv)]
    · rw [if_neg hv, if_neg fun hg => hv (he hg)]

/-- A value that is new stays new, and an old one keeps its number. -/
theorem add_mapValues {g : Bytes → Bytes} {v : Bytes} {t : Table c}
    (h : ∀ e ∈ t.index, g v = g e.1 → v = e.1) :
    (t.mapValues g).add (g v) = ((t.add v).1, (t.add v).2.mapValues g) := by
  have hlookup : (t.mapValues g).index.lookup (g v) = t.index.lookup v := lookup_map_fst h
  cases hv : t.index.lookup v with
  | some n => rw [add_of_lookup hv, add_of_lookup (hlookup.trans hv)]
  | none =>
    rw [add_of_lookup_none hv, add_of_lookup_none (hlookup.trans hv)]
    simp only [mapValues, place_map, List.map_cons]

/-- Every value in the index is an old one or the one that is added. -/
theorem mem_index_add {t : Table c} {v : Bytes} {e : Bytes × UInt32}
    (h : e ∈ (t.add v).2.index) : e.1 = v ∨ e ∈ t.index := by
  cases hv : t.index.lookup v with
  | some n =>
    rw [add_of_lookup hv] at h
    exact .inr h
  | none =>
    rw [add_of_lookup_none hv] at h
    rcases List.mem_cons.mp h with rfl | h
    · exact .inl rfl
    · exact .inr h

end Table

namespace Registry

variable {r : Registry} {l : Language}

/-- A registry with other texts as values of the objects. -/
def mapObjects (g : Bytes → Bytes) (r : Registry) : Registry :=
  { r with object := r.object.mapValues g }

theorem table_mapObjects_of_ne (g : Bytes → Bytes) (r : Registry) {c : Category}
    (h : c ≠ .object) : (r.mapObjects g).table c = r.table c := by
  cases c with
  | object => exact absurd rfl h
  | _ => rfl

theorem add_mapObjects_of_ne (g : Bytes → Bytes) (r : Registry) {c : Category}
    (h : c ≠ .object) (v : Bytes) :
    (r.mapObjects g).add c v = ((r.add c v).1, (r.add c v).2.mapObjects g) := by
  cases c with
  | object => exact absurd rfl h
  | _ => rfl

/-- All objects of a registry are chains of names. -/
def HoldsChains (l : Language) (r : Registry) : Prop := ∀ e ∈ r.object.index, l.IsCallChain e.1

theorem holdsChains_empty (l : Language) : empty.HoldsChains l := by
  intro e he
  simp [empty] at he

theorem HoldsChains.add_of_ne (h : r.HoldsChains l) {c : Category} (hc : c ≠ .object) (v : Bytes) :
    (r.add c v).2.HoldsChains l := by
  have htable : (r.add c v).2.table .object = r.table .object := table_add_of_ne r v hc
  change (r.add c v).2.object = r.object at htable
  rw [HoldsChains, htable]
  exact h

theorem HoldsChains.add_object (h : r.HoldsChains l) {v : Bytes} (hv : l.IsCallChain v) :
    (r.add .object v).2.HoldsChains l := by
  intro e he
  rcases Table.mem_index_add he with heq | hold
  · rw [heq]
    exact hv
  · exact h e hold

theorem add_object_mapObjects (hl : l.PlainCalls) {f : l.Name → l.Name}
    (hf : Function.Injective f) (h : r.HoldsChains l) {v : Bytes} (hv : l.IsCallChain v) :
    (r.mapObjects (l.renameChain f)).add .object (l.renameChain f v) =
      ((r.add .object v).1, (r.add .object v).2.mapObjects (l.renameChain f)) := by
  have hadd := Table.add_mapValues (t := r.object) (v := v) (g := l.renameChain f)
    fun e he => Language.renameChain_inj hl hf hv (h e he)
  have htable : (r.mapObjects (l.renameChain f)).table .object =
      r.object.mapValues (l.renameChain f) := rfl
  rw [add, htable, hadd]
  rfl

/-- Renaming commutes with the naming of a value. -/
theorem add_mapObjects (hl : l.PlainCalls) {f : l.Name → l.Name} (hf : Function.Injective f)
    (h : r.HoldsChains l) {c : Category} {g : List Bytes} (hg : l.IsGroup c g) :
    (r.mapObjects (l.renameChain f)).add c (g.map (l.rename f)).flatten =
        ((r.add c g.flatten).1, (r.add c g.flatten).2.mapObjects (l.renameChain f)) ∧
      (r.add c g.flatten).2.HoldsChains l := by
  by_cases hc : c = .object
  · subst hc
    have hv : l.IsCallChain g.flatten := ⟨g, hg, rfl⟩
    rw [← Language.renameChain_flatten hl hg f]
    exact ⟨add_object_mapObjects hl hf h hv, h.add_object hv⟩
  · rw [hg.map_rename_of_ne hc f]
    exact ⟨add_mapObjects_of_ne _ r hc _, h.add_of_ne hc _⟩

/-! ### The passes -/

/-- **The passes commute with renaming**: the tokens are the same, and so is the registry but for
the values of the objects. -/
theorem reassemble_mapObjects (hl : l.PlainCalls) {f : l.Name → l.Name}
    (hf : Function.Injective f) (h : r.HoldsChains l) (ts : List Token) :
    (r.mapObjects (l.renameChain f)).reassemble l (ts.map (Token.mapText (l.rename f))) =
      ((r.reassemble l ts).1, (r.reassemble l ts).2.mapObjects (l.renameChain f)) := by
  induction hn : ts.length using Nat.strongRecOn generalizing r ts with
  | _ n ih =>
    cases ts with
    | nil => simp
    | cons t rest =>
      have hsame := Language.taken?_rename f (t :: rest)
      cases htaken : l.taken? (t :: rest) with
      | some cn =>
        obtain ⟨c, w⟩ := cn
        have htakes := Language.takes_of_taken htaken
        have htakes' := Language.takes_of_taken (hsame.trans htaken)
        have hpos := htakes.pos
        obtain ⟨hadd, hchains⟩ := add_mapObjects hl hf h htakes.isGroup
        -- the tokens that are joined are the renamed ones
        have htext : textOf (((t :: rest).map (Token.mapText (l.rename f))).take w) =
            ((((t :: rest).take w).filterMap Token.text?).map (l.rename f)).flatten := by
          rw [textOf, ← List.map_take, filterMap_text?_map]
        have hlater := ih ((t :: rest).drop w).length (by simp at hn ⊢; omega) hchains _ rfl
        rw [reassemble_of_takes htakes', reassemble_of_takes htakes, htext, hadd, ← List.map_drop,
          hlater]
        rfl
      | none =>
        obtain ⟨-, hm, -, -⟩ := Language.taken?_eq_none htaken
        have ht : t.mapText (l.rename f) = t := by
          cases t with
          | key k => rfl
          | text t => rw [Token.mapText_text, Language.rename_of_not f (by simpa using hm)]
        rw [List.map_cons] at hsame ⊢
        rw [reassemble_of_taken_none (hsame.trans htaken), reassemble_of_taken_none htaken,
          ih rest.length (by simp at hn; omega) h _ rfl, ht]

/-- **Mapped tokens are invariant under renaming.**  If different names are replaced by different
names, the passes over a new registry return the same tokens, and registries that agree in all tables
but that of the objects, where they have the same numbers. -/
theorem reassemble_rename (hl : l.PlainCalls) {f : l.Name → l.Name} (hf : Function.Injective f)
    (ts : List Token) :
    let before := empty.reassemble l ts
    let after := empty.reassemble l (ts.map (Token.mapText (l.rename f)))
    after.1 = before.1 ∧ (∀ c, c ≠ .object → after.2.table c = before.2.table c) ∧
      after.2.object.keys = before.2.object.keys := by
  have hall := reassemble_mapObjects hl hf (holdsChains_empty l) ts
  have hempty : empty.mapObjects (l.renameChain f) = empty := rfl
  rw [hempty] at hall
  intro before after
  have hafter : after = (before.1, before.2.mapObjects (l.renameChain f)) := hall
  refine ⟨by rw [hafter], fun c hc => ?_, ?_⟩
  · rw [hafter]
    exact table_mapObjects_of_ne _ _ hc
  · rw [hafter]
    exact Table.keys_mapValues _ _

/-- Two names that change places, in a chain and by themselves. -/
theorem reassemble_rename_swap :
    (empty.reassemble .java
        (["go", ".", "x", "(", "1", ".", "5", ")", ";", "x"].map fun t => .text (ascii t))).1 =
      (empty.reassemble .java
        (["x", ".", "go", "(", "1", ".", "5", ")", ";", "go"].map fun t => .text (ascii t))).1 := by
  have hcalls : Language.java.PlainCalls := by decide +kernel
  let x : Language.java.Name := ⟨ascii "x", by decide +kernel⟩
  let go : Language.java.Name := ⟨ascii "go", by decide +kernel⟩
  obtain ⟨htokens, -, -⟩ := reassemble_rename hcalls (Equiv.swap x go).injective
    (["x", ".", "go", "(", "1", ".", "5", ")", ";", "go"].map fun t => .text (ascii t))
  have hrenamed : (["x", ".", "go", "(", "1", ".", "5", ")", ";", "go"].map fun t =>
        Token.text (ascii t)).map (Token.mapText (Language.java.rename (Equiv.swap x go))) =
      ["go", ".", "x", "(", "1", ".", "5", ")", ";", "x"].map fun t => .text (ascii t) := by
    decide +kernel
  rw [hrenamed] at htokens
  exact htokens

end Registry
end Lexicon
