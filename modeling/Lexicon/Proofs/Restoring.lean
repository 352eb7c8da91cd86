import Lexicon.Session
import Lexicon.Proofs.Grouping
import Lexicon.Proofs.Stripped

/-!
# Mapped tokens and their texts

Mapping a text joins some of its scanned tokens and replaces others by keys, but it neither loses
nor adds a byte: restored through the final registry, the mapped tokens are the scanned tokens with
some neighbours joined.

## Main definitions

* `Registry.Coarsens s ts us` — restored through `s`, the tokens `ts` are the tokens `us` with some
  neighbours joined.
* `Session.start l` — a new session with the language `l`.

## Main results

* `Registry.coarsens_groupAll` — passes make their tokens coarser.
* `Registry.live_map` — all keys of mapped tokens are live.
* `Session.restore_map` — **the restored tokens of a mapped text are a coarsening of the scanned
  tokens**, and concatenate to the same text as the plain tokens if nothing is kept.
-/

namespace Lexicon
namespace Registry

variable {r s : Registry} {l : Language}

/-! ### Coarsening -/

/-- `s.Coarsens ts us` says that the tokens `us` split into consecutive groups, none of them empty,
one for each token of `ts`, and that `s` restores each token to the texts of its group. -/
inductive Coarsens (s : Registry) : List Token → List Token → Prop
  | nil : Coarsens s [] []
  | cons {t : Token} {g ts us : List Token} (hne : g ≠ [])
      (hg : s.restore t = g.flatMap s.restore) : Coarsens s ts us → Coarsens s (t :: ts) (g ++ us)

theorem Coarsens.refl (s : Registry) (ts : List Token) : s.Coarsens ts ts := by
  induction ts with
  | nil => exact .nil
  | cons t ts ih => exact .cons (g := [t]) (by simp) (by simp) ih

theorem Coarsens.flatMap_restore {ts us : List Token} (h : s.Coarsens ts us) :
    ts.flatMap s.restore = us.flatMap s.restore := by
  induction h with
  | nil => rfl
  | cons hne hg _ ih => rw [List.flatMap_cons, List.flatMap_append, hg, ih]

theorem Coarsens.ne_nil {ts us : List Token} (h : s.Coarsens ts us) (hts : ts ≠ []) : us ≠ [] := by
  cases h with
  | nil => exact hts
  | cons hne _ _ =>
    intro h
    exact hne (List.append_eq_nil_iff.mp h).1

/-- What some tokens coarsen splits where the tokens do. -/
theorem Coarsens.split {ts ts' us : List Token} (h : s.Coarsens (ts ++ ts') us) :
    ∃ u u', us = u ++ u' ∧ s.Coarsens ts u ∧ s.Coarsens ts' u' := by
  induction ts generalizing us with
  | nil => exact ⟨[], us, rfl, .nil, h⟩
  | cons t ts ih =>
    -- the group of the first token comes first
    cases h with
    | cons hne hg h =>
      obtain ⟨u, u', rfl, hu, hu'⟩ := ih h
      exact ⟨_ ++ u, u', (List.append_assoc ..).symm, .cons hne hg hu, hu'⟩

theorem Coarsens.trans {ts us vs : List Token} (h : s.Coarsens ts us) (h' : s.Coarsens us vs) :
    s.Coarsens ts vs := by
  induction h generalizing vs with
  | nil => exact h'
  | cons hne hg _ ih =>
    obtain ⟨v, v', rfl, hv, hv'⟩ := h'.split
    exact .cons (hv.ne_nil hne) (hg.trans hv.flatMap_restore) (ih hv')

/-- The groups of a coarsening. -/
theorem Coarsens.exists_groups {ts us : List Token} (h : s.Coarsens ts us) :
    ∃ groups : List (List Token), groups.flatten = us ∧ (∀ g ∈ groups, g ≠ []) ∧
      ts.map s.restore = groups.map fun g => g.flatMap s.restore := by
  induction h with
  | nil => exact ⟨[], rfl, by simp, rfl⟩
  | @cons t g ts us hne hg _ ih =>
    obtain ⟨groups, rfl, hall, hmap⟩ := ih
    refine ⟨g :: groups, rfl, List.forall_mem_cons.mpr ⟨hne, hall⟩, ?_⟩
    rw [List.map_cons, List.map_cons, hg, hmap]

/-- The tokens that stand for the lexemes of a pass coarsen the tokens of the pass. -/
theorem coarsens_of_covers {xs : List Lexeme} {ts us : List Token} (hc : l.Covers xs us)
    (hn : List.Forall₂ s.Names xs ts) : s.Coarsens ts us := by
  induction hc generalizing ts with
  | nil =>
    cases hn
    exact .nil
  | kept t _ ih =>
    cases hn with
    | cons ht hn =>
      cases ht
      exact .cons (g := [t]) (by simp) (by simp) (ih hn)
  | @named c g hg xs us _ ih =>
    cases hn with
    | cons ht hn =>
      cases ht with
      | named hk =>
        refine .cons ?_ ?_ (ih hn)
        · simpa using hg.ne_nil
        · rw [restore, hk, Option.getD_some, List.flatMap_map]
          exact List.flatMap_id'.symm

/-- **Passes make their tokens coarser.** -/
theorem coarsens_groupAll {ps : List Pass} {ts : List Token}
    (h : r.Grows (r.groupAll l ts ps).2) (he : (r.groupAll l ts ps).2.Extends s) :
    s.Coarsens (r.groupAll l ts ps).1 ts := by
  induction ps generalizing r ts with
  | nil => exact .refl s ts
  | cons p ps ih =>
    obtain ⟨h₁, h₂⟩ := h.group
    have hnames := names_group h₁ (h₂.extends.trans he)
    have hfirst := coarsens_of_covers (Language.covers_lexemes l p ts) hnames
    exact (ih h₂ he).trans hfirst

/-! ### The stages of mapping -/

theorem key_mem_scanTokens {ts : List Token} {k : Key} :
    .key k ∈ l.scanTokens ts ↔ .key k ∈ ts := by
  rw [Language.scanTokens, List.mem_flatMap]
  constructor
  · rintro ⟨t, ht, hk⟩
    cases t with
    | text t => simp at hk
    | key k' =>
      rw [List.mem_singleton.mp hk]
      exact ht
  · intro hk
    exact ⟨.key k, hk, List.mem_singleton_self _⟩

theorem adds_map (r : Registry) (l : Language) (keep : Keep) (text : Bytes) :
    r.Adds (r.map l keep text).2 :=
  (adds_strip r keep text).trans (adds_groupAll _ l _ _)

/-- First literals and comments are named, then the values of the passes. -/
theorem Grows.map {keep : Keep} {text : Bytes} (h : r.Grows (r.map l keep text).2) :
    r.Grows (r.scan l keep text).2 ∧ (r.scan l keep text).2.Grows (r.map l keep text).2 :=
  h.split (adds_strip r keep text) (adds_groupAll _ l _ _)

theorem live_scan {keep : Keep} {text : Bytes} (h : r.Grows (r.scan l keep text).2) :
    (r.scan l keep text).2.Live (r.scan l keep text).1 :=
  fun k hk => live_strip h k (key_mem_scanTokens.mp hk)

/-- **All keys of mapped tokens are live.** -/
theorem live_map {keep : Keep} {text : Bytes} (h : r.Grows (r.map l keep text).2) :
    (r.map l keep text).2.Live (r.map l keep text).1 :=
  (live_scan h.map.1).groupAll h.map.2

/-- Mapped tokens coarsen scanned tokens. -/
theorem coarsens_map {keep : Keep} {text : Bytes} (h : r.Grows (r.map l keep text).2) :
    (r.map l keep text).2.Coarsens (r.map l keep text).1 (r.scan l keep text).1 :=
  coarsens_groupAll h.map.2 (.refl _)

/-! ### Plain tokens -/

/-- Plain tokenizing leaves the registry alone. -/
theorem tokenize_snd (r : Registry) (l : Language) (text : Bytes) :
    (r.tokenize l text).2 = r := by
  show (r.strip {} text).2 = r
  rcases strip_plain r text with h | ⟨t, h⟩ <;> rw [h]

/-- With nothing kept, the scanned tokens are the plain ones. -/
theorem scan_plain (r : Registry) (l : Language) (text : Bytes) :
    (r.scan l {} text).1 = (r.tokenize l text).1.map .text := by
  show l.scanTokens (r.strip {} text).1 = (l.scan (render (r.strip {} text).1)).map .text
  rcases strip_plain r text with h | ⟨t, h⟩
  · rw [h]
    simp [Language.scanTokens, render]
  · rw [h]
    simp [Language.scanTokens, render]

end Registry

/-! ### Sessions -/

namespace Session

variable {s : Session} {l : Language}

/-- A session with a language that has named nothing yet. -/
def start (l : Language) : Session := { language := some l }

theorem map_of_language (h : s.language = some l) (keep : Keep) (text : Bytes) :
    s.map keep text =
      .ok ((s.registry.map l keep text).1, { s with registry := (s.registry.map l keep text).2 }) := by
  rw [Session.map, h]

/-- **Mapping is reversible.**  The scanned tokens of a text split into consecutive groups, none of
them empty, one for each mapped token, and a mapped token is restored to the concatenation of the
texts of its group.  All of them concatenate to what the scanned tokens do, and to what the plain
tokens do if nothing is kept. -/
theorem restore_map {n : Category → Nat} (hl : s.language = some l) (hr : s.registry.Reached n)
    (keep : Keep) (text : Bytes)
    (hn : ∀ c, n c + s.registry.growth (s.registry.map l keep text).2 c < UInt32.size) :
    ∃ (tokens : List Token) (s' : Session) (groups : List (List Token)),
      s.map keep text = .ok (tokens, s') ∧
      groups.flatten = (s.registry.scan l keep text).1 ∧
      (∀ g ∈ groups, g ≠ []) ∧
      s'.restore tokens = groups.map (fun g => (s'.restore g).flatten) ∧
      (s'.restore tokens).flatten = (s'.restore (s.registry.scan l keep text).1).flatten ∧
      (keep = {} → (s'.restore tokens).flatten = (s.tokenize text).1.flatten) := by
  have hg := hr.grows (Registry.adds_map _ l keep text) hn
  have hcoarse := Registry.coarsens_map hg
  obtain ⟨groups, hflat, hne, hmap⟩ := hcoarse.exists_groups
  have hjoin := hcoarse.flatMap_restore
  rw [List.flatMap_def, List.flatMap_def] at hjoin
  refine ⟨_, _, groups, map_of_language hl keep text, hflat, hne, hmap, hjoin, ?_⟩
  rintro rfl
  refine hjoin.trans ?_
  rw [Registry.scan_plain, List.map_map]
  show (((s.registry.tokenize l text).1).map id).flatten = _
  rw [List.map_id, tokenize, separators, hl, Option.getD_some]

theorem restore_map_java :
    ∃ tokens s', (start .java).map {} (ascii "x = m.go() + 1.5;") = .ok (tokens, s') ∧
      (s'.restore tokens).flatten = ascii "x=m.go()+1.5;" := by
  have hroom : ∀ c, 0 + (start .java).registry.growth
      ((start .java).registry.map .java {} (ascii "x = m.go() + 1.5;")).2 c < UInt32.size := by
    intro c
    cases c <;> decide +kernel
  have hplain : ((start .java).tokenize (ascii "x = m.go() + 1.5;")).1.flatten =
      ascii "x=m.go()+1.5;" := by
    decide +kernel
  obtain ⟨tokens, s', -, hmap, -, -, -, -, htext⟩ :=
    restore_map (s := start .java) rfl .empty {} _ hroom
  exact ⟨tokens, s', hmap, (htext rfl).trans hplain⟩

end Session
end Lexicon
