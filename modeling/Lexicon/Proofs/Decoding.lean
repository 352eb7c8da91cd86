import Lexicon.Proofs.Session
import Mathlib.Data.List.SplitBy

/-!
# Mapped tokens determine scanned tokens

A value that a pass has named can be taken apart again: the texts that were joined are its runs of
digits and of other bytes if it is a number, and its runs of name bytes and of other bytes if it is
a chain of names.  For a chain this takes a language whose call delimiters contain no byte of a
name.  Two texts that are mapped in one session then get the same mapped tokens exactly if they
have the same scanned tokens.

## Main definitions

* `Byte.isWord` — the bytes of names.
* `Alternates p β g` — the texts of `g` consist, in turn, of bytes in `p` and of others.
* `parts c v` — the texts that were joined into the value `v` of category `c`.
* `Registry.expand s t` — the tokens that were joined into the token `t`.

## Main results

* `Language.IsGroup.parts_flatten` — a value determines its group.
* `Registry.flatMap_expand_map` — mapped tokens expand to the scanned tokens.
* `Session.map_eq_map_iff` — **mapping neither conflates nor splits.**
-/

namespace Lexicon

/-- A byte of a name: a letter, a digit or an underscore. -/
def Byte.isWord (b : UInt8) : Bool := isLetter b || isDigit b || b == underscore

/-! ### Runs -/

section Runs

variable {p : UInt8 → Bool}

/-- `Alternates p β g` says that no text of `g` is empty, that the bytes of the first are all in `p`
or all not, as `β` tells, and that this changes from each text to the next. -/
inductive Alternates (p : UInt8 → Bool) : Bool → List Bytes → Prop
  | single {β : Bool} {t : Bytes} (ht : t ≠ []) (hp : ∀ b ∈ t, p b = β) : Alternates p β [t]
  | cons {β : Bool} {t : Bytes} {g : List Bytes} (ht : t ≠ []) (hp : ∀ b ∈ t, p b = β) :
      Alternates p (!β) g → Alternates p β (t :: g)

theorem Alternates.head {β : Bool} {g : List Bytes} (h : Alternates p β g) :
    ∃ t rest, g = t :: rest ∧ t ≠ [] ∧ ∀ b ∈ t, p b = β := by
  cases h with
  | single ht hp => exact ⟨_, _, rfl, ht, hp⟩
  | cons ht hp _ => exact ⟨_, _, rfl, ht, hp⟩

theorem Alternates.nil_notMem {β : Bool} {g : List Bytes} (h : Alternates p β g) : [] ∉ g := by
  induction h with
  | single ht _ => simpa using ht.symm
  | cons ht _ _ ih => exact List.not_mem_cons_of_ne_of_not_mem ht.symm ih

/-- The bytes of one text are alike. -/
theorem Alternates.isChain_of_mem {β : Bool} {g : List Bytes} (h : Alternates p β g) :
    ∀ t ∈ g, t.IsChain fun a b => (p a == p b) = true := by
  have key : ∀ {β : Bool} {t : Bytes}, (∀ b ∈ t, p b = β) →
      t.IsChain fun a b => (p a == p b) = true := by
    intro β t hp
    refine (List.pairwise_of_forall_mem_list fun a ha b hb => ?_).isChain
    rw [hp a ha, hp b hb, beq_self_eq_true]
  induction h with
  | single _ hp => simpa using key hp
  | cons _ hp _ ih => exact List.forall_mem_cons.mpr ⟨key hp, ih⟩

/-- Where one text ends and the next starts, the bytes differ. -/
theorem Alternates.isChain {β : Bool} {g : List Bytes} (h : Alternates p β g) :
    g.IsChain fun t u => ∃ ht hu, (p (t.getLast ht) == p (u.head hu)) = false := by
  induction h with
  | single _ _ => exact .singleton _
  | cons ht hp hg ih =>
    refine List.isChain_cons.mpr ⟨fun u hu => ?_, ih⟩
    obtain ⟨u', rest, rfl, hu', hp'⟩ := hg.head
    obtain rfl : u' = u := by simpa using hu
    refine ⟨ht, hu', ?_⟩
    rw [hp _ (List.getLast_mem ht), hp' _ (List.head_mem hu')]
    cases ‹Bool› <;> rfl

/-- **Alternating texts are the runs of their concatenation.** -/
theorem Alternates.splitBy_flatten {β : Bool} {g : List Bytes} (h : Alternates p β g) :
    (g.flatten.splitBy fun a b => p a == p b) = g :=
  List.splitBy_flatten h.nil_notMem h.isChain_of_mem h.isChain

end Runs

/-! ### Groups -/

/-- The bytes that tell the parts of a value apart: digits in numbers, name bytes in chains. -/
def isPartByte : Category → UInt8 → Bool
  | .primitive => Byte.isDigit
  | .object => Byte.isWord
  | _ => fun _ => true

/-- The texts that were joined into a value. -/
def parts (c : Category) (v : Bytes) : List Bytes :=
  v.splitBy fun a b => isPartByte c a == isPartByte c b

theorem isDigitRun_iff {d : Bytes} :
    isDigitRun d ↔ d ≠ [] ∧ ∀ b ∈ d, Byte.isDigit b = true := by
  simp [isDigitRun]

namespace Language

variable {l : Language}

theorem mem_calls_of_isCall {t : Bytes} (h : l.isCall t) : t ∈ l.calls :=
  (List.mem_filter.mp (List.contains_iff_mem.mp h)).1

theorem isWord_of_isObjectName {t : Bytes} (h : l.isObjectName t) :
    t ≠ [] ∧ ∀ b ∈ t, Byte.isWord b = true := by
  cases t with
  | nil => simp [isObjectName] at h
  | cons b t =>
    simp only [isObjectName, Bool.and_eq_true, List.all_eq_true] at h
    refine ⟨by simp, List.forall_mem_cons.mpr ⟨?_, fun d hd => ?_⟩⟩
    · rw [Byte.isWord, Bool.or_right_comm, h.1.1.1, Bool.true_or]
    · exact h.1.1.2 d hd

/-- No call delimiter contains a byte of a name. -/
def PlainCalls (l : Language) : Prop := ∀ d ∈ l.calls, ∀ b ∈ d, Byte.isWord b = false

instance (l : Language) : Decidable l.PlainCalls :=
  decidable_of_iff (l.calls.all fun d => d.all fun b => !Byte.isWord b) (by simp [PlainCalls])

theorem alternates_point (g : List Bytes) (h : g = [] ∨ Alternates Byte.isDigit true g) :
    Alternates Byte.isDigit false (point :: g) := by
  have hpoint : ∀ b ∈ point, Byte.isDigit b = false := by
    intro b hb
    rw [List.mem_singleton.mp hb]
    rfl
  rcases h with rfl | h
  · exact .single (by decide) hpoint
  · exact .cons (by decide) hpoint h

/-- **The texts of a group alternate.**  A chain starts with a name. -/
theorem IsGroup.alternates (hl : l.PlainCalls) {c : Category} {g : List Bytes}
    (h : l.IsGroup c g) :
    ∃ β, Alternates (isPartByte c) β g ∧ (c = .object → β = true) := by
  induction h with
  | digits hd =>
    obtain ⟨hne, hall⟩ := isDigitRun_iff.mp hd
    exact ⟨true, .single hne hall, fun _ => rfl⟩
  | digitsPoint hd =>
    obtain ⟨hne, hall⟩ := isDigitRun_iff.mp hd
    exact ⟨true, .cons hne hall (alternates_point [] (.inl rfl)), fun _ => rfl⟩
  | decimal hd he =>
    obtain ⟨hne, hall⟩ := isDigitRun_iff.mp hd
    obtain ⟨hne', hall'⟩ := isDigitRun_iff.mp he
    exact ⟨true, .cons hne hall (alternates_point _ (.inr (.single hne' hall'))), fun _ => rfl⟩
  | fraction he =>
    obtain ⟨hne, hall⟩ := isDigitRun_iff.mp he
    exact ⟨false, alternates_point _ (.inr (.single hne hall)), fun h => by simp at h⟩
  | name hm =>
    obtain ⟨hne, hall⟩ := isWord_of_isObjectName hm
    exact ⟨true, .single hne hall, fun _ => rfl⟩
  | @call m d g hm hd _ ih =>
    obtain ⟨β, hg, hβ⟩ := ih
    obtain ⟨hne, hall⟩ := isWord_of_isObjectName hm
    rw [hβ rfl] at hg
    have hcall := hl d (mem_calls_of_isCall hd)
    exact ⟨true, .cons hne hall (.cons (ne_nil_of_isCall hd) hcall hg), fun _ => rfl⟩
  | keyword hk => exact ⟨true, .single (ne_nil_of_isKeyword hk) fun _ _ => rfl, fun _ => rfl⟩
  | delimiter hd => exact ⟨true, .single (ne_nil_of_isDelimiter hd) fun _ _ => rfl, fun _ => rfl⟩

/-- **A value determines its group.** -/
theorem IsGroup.parts_flatten (hl : l.PlainCalls) {c : Category} {g : List Bytes}
    (h : l.IsGroup c g) : parts c g.flatten = g := by
  obtain ⟨β, hg, -⟩ := h.alternates hl
  exact hg.splitBy_flatten

/-- Passes name neither literals nor comments. -/
theorem IsGroup.category_ne {c : Category} {g : List Bytes} (h : l.IsGroup c g) :
    ¬(c = .literal ∨ c = .comment) := by
  cases h <;> simp

end Language

/-! ### Expansion -/

namespace Registry

variable {r s : Registry} {l : Language}

/-- The tokens that were joined into a token.  Literals and comments are not named by passes. -/
def expand (s : Registry) : Token → List Token
  | .text t => [.text t]
  | .key k =>
    if k.category = .literal ∨ k.category = .comment then [.key k]
    else (parts k.category (s.restore (.key k))).map .text

theorem flatMap_expand_texts (s : Registry) (g : List Bytes) :
    (g.map Token.text).flatMap s.expand = g.map .text := by
  induction g with
  | nil => rfl
  | cons t g ih => rw [List.map_cons, List.flatMap_cons, ih]; rfl

theorem flatMap_expand_of_covers (hl : l.PlainCalls) {xs : List Lexeme} {ts us : List Token}
    (hc : l.Covers xs us) (hn : List.Forall₂ s.Names xs ts) :
    ts.flatMap s.expand = us.flatMap s.expand := by
  induction hc generalizing ts with
  | nil =>
    cases hn
    rfl
  | kept t _ ih =>
    cases hn with
    | cons ht hn =>
      cases ht
      rw [List.flatMap_cons, List.flatMap_cons, ih hn]
  | @named c g hg xs us _ ih =>
    cases hn with
    | cons ht hn =>
      cases ht with
      | named hk =>
        rw [List.flatMap_cons, List.flatMap_append, ih hn, flatMap_expand_texts, expand,
          if_neg hg.category_ne, restore, hk, Option.getD_some, hg.parts_flatten hl]

/-- Passes do not change what their tokens expand to. -/
theorem flatMap_expand_groupAll (hl : l.PlainCalls) {ps : List Pass} {ts : List Token}
    (h : r.Grows (r.groupAll l ts ps).2) (he : (r.groupAll l ts ps).2.Extends s) :
    (r.groupAll l ts ps).1.flatMap s.expand = ts.flatMap s.expand := by
  induction ps generalizing r ts with
  | nil => rfl
  | cons p ps ih =>
    obtain ⟨h₁, h₂⟩ := h.group
    have hnames := names_group h₁ (h₂.extends.trans he)
    have hfirst := flatMap_expand_of_covers hl (Language.covers_lexemes l p ts) hnames
    exact (ih h₂ he).trans hfirst

/-- Scanned tokens expand to themselves. -/
theorem flatMap_expand_scan {keep : Keep} {text : Bytes} (h : r.Grows (r.scan l keep text).2) :
    (r.scan l keep text).1.flatMap s.expand = (r.scan l keep text).1 := by
  have hself : ∀ t ∈ (r.scan l keep text).1, s.expand t = [t] := by
    intro t ht
    cases t with
    | text t => rfl
    | key k => exact if_pos (category_of_mem_strip h (key_mem_scanTokens.mp ht))
  rw [List.flatMap_congr hself, List.flatMap_singleton']

/-- **Mapped tokens expand to the scanned tokens**, in every later registry. -/
theorem flatMap_expand_map (hl : l.PlainCalls) {keep : Keep} {text : Bytes}
    (h : r.Grows (r.map l keep text).2) (he : (r.map l keep text).2.Extends s) :
    (r.map l keep text).1.flatMap s.expand = (r.scan l keep text).1 :=
  (flatMap_expand_groupAll hl h.map.2 he).trans (flatMap_expand_scan h.map.1)

/-- Two texts of a growing registry are mapped alike exactly if they are scanned alike. -/
theorem map_eq_map_iff_scan_eq_scan (hl : l.PlainCalls) {m : Registry} {keep : Keep} {a b : Bytes}
    (h₁ : r.Grows (r.map l keep a).2) (h₂ : (r.map l keep a).2.Extends m)
    (h₃ : m.Grows (m.map l keep b).2) :
    (r.map l keep a).1 = (m.map l keep b).1 ↔ (r.scan l keep a).1 = (m.scan l keep b).1 := by
  constructor
  · intro h
    rw [← flatMap_expand_map hl h₁ (h₂.trans h₃.extends), ← flatMap_expand_map hl h₃ (.refl _), h]
  · intro h
    -- what the second text needs was named for the first
    have hscan := h₃.map.1
    have hagain := groupAll_eq_of_extends (l := l) hscan.sound_right h₁.map.2
      (h₂.trans hscan.extends)
    show _ = ((m.scan l keep b).2.groupAll l (m.scan l keep b).1 Pass.all).1
    rw [← h, hagain]
    rfl

end Registry

/-! ### Two texts of a session -/

namespace Session

variable {s : Session} {l : Language}

/-- **Mapping neither conflates nor splits.**  Of two texts that a session maps with the same
language, and with other texts mapped or tokenized in between, the mapped tokens are equal exactly
if the scanned tokens are. -/
theorem map_eq_map_iff {n : Category → Nat} (hl : s.language = some l) (hcalls : l.PlainCalls)
    (hr : s.registry.Reached n) (keep : Keep) (a b : Bytes) {between : List Call}
    (hkeeps : ∀ c ∈ between, c.keepsLanguage)
    (hn : ∀ c, n c + s.registry.growth
      (s.run (.map keep a :: between ++ [.map keep b])).registry c < UInt32.size) :
    ∃ ts₁ s₁ ts₂ s₂, s.map keep a = .ok (ts₁, s₁) ∧
      (s₁.run between).map keep b = .ok (ts₂, s₂) ∧
      (ts₁ = ts₂ ↔
        (s.registry.scan l keep a).1 = ((s₁.run between).registry.scan l keep b).1) := by
  -- the session after the first text, and before the second
  set s₁ : Session := { s with registry := (s.registry.map l keep a).2 } with hs₁
  have hmap₁ : s.map keep a = .ok (_, s₁) := map_of_language hl keep a
  have hl₁ : (s₁.run between).language = some l := (language_run hkeeps).trans hl
  have hmap₂ := map_of_language hl₁ keep b
  refine ⟨_, s₁, _, _, hmap₁, hmap₂, ?_⟩
  have hrun : (s.run (.map keep a :: between ++ [.map keep b])).registry =
      ((s₁.run between).registry.map l keep b).2 := by
    rw [List.cons_append, run_cons, perform_map_of_ok hmap₁, run_append, run_cons,
      perform_map_of_ok hmap₂, run_nil]
  rw [hrun] at hn
  -- the registry grows for the first text, between the texts and for the second
  have hfirst : s.registry.Adds s₁.registry := Registry.adds_map _ l keep a
  have hbetween := adds_run s₁ between
  have hsecond := Registry.adds_map (s₁.run between).registry l keep b
  have hg := hr.grows (hfirst.trans (hbetween.trans hsecond)) hn
  obtain ⟨h₁, hg'⟩ := hg.split hfirst (hbetween.trans hsecond)
  obtain ⟨h₂, h₃⟩ := hg'.split hbetween hsecond
  exact Registry.map_eq_map_iff_scan_eq_scan hcalls h₁ h₂.extends h₃

/-- White space does not matter to the mapped tokens, here inside a number and a chain of names. -/
theorem map_eq_map_iff_respaced :
    ∃ ts s₁ s₂, (start .java).map {} (ascii "x.y() + 1.5") = .ok (ts, s₁) ∧
      (s₁.run [.map {} (ascii "z")]).map {} (ascii "x . y( )+1 .5") = .ok (ts, s₂) := by
  have hcalls : Language.java.PlainCalls := by decide +kernel
  have hroom : ∀ c, 0 + (start .java).registry.growth ((start .java).run
      (.map {} (ascii "x.y() + 1.5") :: [.map {} (ascii "z")] ++
        [.map {} (ascii "x . y( )+1 .5")])).registry c < UInt32.size := by
    intro c
    cases c <;> decide +kernel
  obtain ⟨ts₁, s₁, ts₂, s₂, h₁, h₂, hiff⟩ :=
    map_eq_map_iff (s := start .java) rfl hcalls .empty {} _ _ (by decide) hroom
  obtain rfl : ts₁ = ts₂ := by
    refine hiff.mpr ?_
    rw [← perform_map_of_ok h₁]
    decide +kernel
  exact ⟨ts₁, s₁, s₂, h₁, h₂⟩

end Session
end Lexicon
