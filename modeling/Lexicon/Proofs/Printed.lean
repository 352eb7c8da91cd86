import Lexicon.Command.Work
import Lexicon.Proofs.Factorization
import Lexicon.Proofs.Key
import Lexicon.Proofs.Remapping

/-!
# Mapped tokens in print

Mapped tokens are printed as they are displayed, a text as it is and a key in its written form.  A
line then reads as a key if it is one, or if a text of the source reads as one.  In Java a colon is
no delimiter, and starts nothing that a pass names, so that a text such as `:o0` stays where the
scanner finds it.  All other lines that read as keys are keys, and each of these leads to a value,
which a look-up prints beside it.

## Main definitions

* `Table.Backed t` — every number in the index of `t` has a value.
* `Language.Colonless l` — no keyword and no delimiter of `l` starts with a colon.
* `Unambiguous ts` — every token of `ts` that reads as a key is that key.

## Main results

* `Registry.Backed.live_map` — the keys of mapped tokens have values, whether a counter has wrapped
  around or not.
* `Registry.text_mem_groupAll_iff` — texts that belong to no group are left by the passes.
* `Registry.exists_code_of_mem_scan` — the bytes of scanned texts are those of code.
* `Session.map_unambiguous_iff` — **when printed keys are unambiguous.**
-/

namespace Lexicon

/-! ### Keys that were handed out -/

namespace Table

variable {c : Category} {t : Table c} {k : Key}

/-- Every number in the index has a value. -/
def Backed (t : Table c) : Prop :=
  ∀ v n, t.index.lookup v = some n → (t.entries.lookup n).isSome

theorem isSome_lookup_cons (e : UInt32 × Bytes) (es : List (UInt32 × Bytes)) (m : UInt32) :
    ((e :: es).lookup m).isSome ↔ m = e.1 ∨ (es.lookup m).isSome := by
  rw [lookup_cons_eq_ite]
  by_cases hm : m = e.1
  · simp [hm]
  · simp [hm]

/-- A number at which a value is placed has a value then, perhaps the one that was there before. -/
theorem isSome_lookup_place (n : UInt32) (v : Bytes) (es : List (UInt32 × Bytes)) (m : UInt32) :
    ((place n v es).lookup m).isSome ↔ m = n ∨ (es.lookup m).isSome := by
  induction es with
  | nil => rw [place, isSome_lookup_cons]
  | cons e es ih =>
    obtain ⟨x, w⟩ := e
    rw [place]
    split
    · rw [isSome_lookup_cons]
    split
    · next hx =>
      rw [isSome_lookup_cons, hx]
      exact or_self_left.symm
    · rw [isSome_lookup_cons, isSome_lookup_cons, ih, or_left_comm]

theorem backed_empty : (empty : Table c).Backed := by
  intro v n h
  cases h

theorem Backed.add (h : t.Backed) (v : Bytes) : (t.add v).2.Backed := by
  cases hv : t.index.lookup v with
  | some n =>
    rw [add_of_lookup hv]
    exact h
  | none =>
    rw [add_of_lookup_none hv]
    intro w n hw
    show ((place t.next v t.entries).lookup n).isSome
    rw [isSome_lookup_place]
    change ((v, t.next) :: t.index).lookup w = some n at hw
    rw [lookup_cons_eq_ite] at hw
    split at hw
    · exact .inl (Option.some.inj hw).symm
    · exact .inr (h w n hw)

/-- The key of an added value has a value. -/
theorem Backed.contains_add_self (h : t.Backed) (v : Bytes) : (t.add v).2.contains (t.add v).1 := by
  unfold contains
  cases hv : t.index.lookup v with
  | some n =>
    rw [add_of_lookup hv, get?_mk]
    exact h v n hv
  | none =>
    rw [add_of_lookup_none hv, get?_mk, isSome_lookup_place]
    exact .inl rfl

/-- Adding a value leaves no key without one. -/
theorem contains_add (h : t.contains k) (v : Bytes) : (t.add v).2.contains k := by
  cases hv : t.index.lookup v with
  | some n =>
    rw [add_of_lookup hv]
    exact h
  | none =>
    obtain ⟨w, hw⟩ := Option.isSome_iff_exists.mp h
    rw [add_of_lookup_none hv, contains, get?, if_pos (category_of_get? hw), isSome_lookup_place,
      lookup_of_get? hw]
    exact .inr rfl

end Table

namespace Registry

variable {r s : Registry} {l : Language}

/-- The tables of a registry have values for all numbers in their indices. -/
def Backed (r : Registry) : Prop := ∀ c, (r.table c).Backed

theorem backed_empty : empty.Backed := by
  intro c
  rw [table_empty]
  exact Table.backed_empty

theorem Backed.add (h : r.Backed) (c : Category) (v : Bytes) : (r.add c v).2.Backed := by
  intro d
  by_cases hd : c = d
  · subst hd
    rw [table_add_self]
    exact (h c).add v
  · rw [table_add_of_ne r v hd]
    exact h d

theorem Backed.of_adds (h : r.Backed) (ha : r.Adds s) : s.Backed := by
  induction ha with
  | refl => exact h
  | add c v _ ih => exact ih (h.add c v)

/-- Additions leave no key without a value. -/
theorem Adds.exists_get? (ha : r.Adds s) {k : Key} (h : ∃ v, r.get? k = some v) :
    ∃ v, s.get? k = some v := by
  induction ha with
  | refl => exact h
  | @add r s c v _ ih =>
    apply ih
    rw [← Option.isSome_iff_exists, get?] at h ⊢
    by_cases hc : c = k.category
    · subst hc
      rw [table_add_self]
      exact Table.contains_add h v
    · rw [table_add_of_ne r v hc]
      exact h

/-- The key of an added value has a value. -/
theorem Backed.exists_get?_add_self (h : r.Backed) (c : Category) (v : Bytes) :
    ∃ w, (r.add c v).2.get? (r.add c v).1 = some w := by
  rw [← Option.isSome_iff_exists, get?, category_add, table_add_self]
  exact (h c).contains_add_self v

/-- **Naming leaves no key without a value**, if there was none among those that it keeps. -/
theorem Backed.live_assign (h : r.Backed) {xs : List Lexeme}
    (hkept : ∀ k, .kept (.key k) ∈ xs → ∃ v, r.get? k = some v) :
    (r.assign xs).2.Live (r.assign xs).1 := by
  induction xs generalizing r with
  | nil =>
    intro k hk
    cases hk
  | cons x xs ih =>
    have hrest : ∀ k, .kept (.key k) ∈ xs → ∃ v, r.get? k = some v :=
      fun k hk => hkept k (List.mem_cons_of_mem x hk)
    cases x with
    | kept t =>
      rw [assign_kept]
      intro k hk
      rcases List.mem_cons.mp hk with rfl | hk
      · exact (adds_assign r xs).exists_get? (hkept k List.mem_cons_self)
      · exact ih h hrest k hk
    | named c v =>
      rw [assign_named]
      intro k hk
      rcases List.mem_cons.mp hk with hk | hk
      · -- the key is handed out here, and has a value from here on
        rw [Token.key.inj hk]
        exact (adds_assign _ xs).exists_get? (h.exists_get?_add_self c v)
      · have hadds : r.Adds (r.add c v).2 := .add c v (.refl _)
        exact ih (h.add c v) (fun k hk => hadds.exists_get? (hrest k hk)) k hk

theorem Backed.live_groupAll (h : r.Backed) {ts : List Token} (hl : r.Live ts) (ps : List Pass) :
    (r.groupAll l ts ps).2.Live (r.groupAll l ts ps).1 := by
  induction ps generalizing r ts with
  | nil => exact hl
  | cons p ps ih =>
    apply ih (h.of_adds (adds_assign r _))
    apply h.live_assign
    intro k hk
    exact hl k ((Language.covers_lexemes l p ts).mem_of_kept hk)

/-- **The keys of mapped tokens have values**, whether a counter has wrapped around or not. -/
theorem Backed.live_map (h : r.Backed) (keep : Keep) (text : Bytes) :
    (r.map l keep text).2.Live (r.map l keep text).1 := by
  have hstrip : (r.strip keep text).2.Live (r.strip keep text).1 := by
    apply h.live_assign
    intro k hk
    cases ofSource_strippedLexemes keep text _ hk
  apply (h.of_adds (adds_strip r keep text)).live_groupAll
  intro k hk
  exact hstrip k (key_mem_scanTokens.mp hk)

end Registry

/-! ### Texts that stay -/

namespace Language

variable {l : Language} {t : Bytes}

/-- No keyword and no delimiter starts with a colon. -/
def Colonless (l : Language) : Prop :=
  ∀ e ∈ l.keywords ++ l.punctuation ++ l.spaces ++ l.calls, e.head? ≠ some Byte.colon

instance (l : Language) : Decidable l.Colonless := inferInstanceAs (Decidable (∀ e ∈ _, _))

theorem colonless_java : java.Colonless := by decide +kernel

theorem head?_ne_colon_of_isWord (h : ∀ b ∈ t, Byte.isWord b = true) :
    t.head? ≠ some Byte.colon := by
  intro hhead
  have hcolon := h Byte.colon (List.mem_of_head? hhead)
  revert hcolon
  decide

/-- **Nothing that a pass joins starts with a colon.** -/
theorem IsGroup.head?_ne_colon (hl : l.Colonless) {c : Category} {g : List Bytes}
    (h : l.IsGroup c g) : ∀ u ∈ g, u.head? ≠ some Byte.colon := by
  have hdigits : ∀ d, isDigitRun d → d.head? ≠ some Byte.colon :=
    fun d hd => head?_ne_colon_of_isWord (isWord_of_isDigitRun hd).2
  have hname : ∀ m, l.isObjectName m → m.head? ≠ some Byte.colon :=
    fun m hm => head?_ne_colon_of_isWord (isWord_of_isObjectName hm).2
  have hpoint : point.head? ≠ some Byte.colon := by decide
  induction h with
  | digits hd => simpa using hdigits _ hd
  | digitsPoint hd => simpa using ⟨hdigits _ hd, hpoint⟩
  | decimal hd he => simpa using ⟨hdigits _ hd, hpoint, hdigits _ he⟩
  | fraction he => simpa using ⟨hpoint, hdigits _ he⟩
  | name hm => simpa using hname _ hm
  | call hm hd _ ih =>
    have hmem := (List.mem_filter.mp (List.contains_iff_mem.mp hd)).1
    have hcall := hl _ (List.mem_append_right _ hmem)
    exact List.forall_mem_cons.mpr ⟨hname _ hm, List.forall_mem_cons.mpr ⟨hcall, ih⟩⟩
  | keyword hk =>
    have hmem := (List.mem_filter.mp (List.contains_iff_mem.mp hk)).1
    have hkeyword := hl _ (List.mem_append_left _ (List.mem_append_left _
      (List.mem_append_left _ hmem)))
    simpa using hkeyword
  | delimiter hd =>
    have hmem := (List.mem_filter.mp (List.contains_iff_mem.mp hd)).1
    have hdelimiter := hl _ (by simpa using .inr (by simpa using hmem))
    simpa using hdelimiter

/-- A text that belongs to no group is kept. -/
theorem Covers.kept_of_mem {xs : List Lexeme} {ts : List Token} (h : l.Covers xs ts)
    (hno : ∀ c g, l.IsGroup c g → t ∉ g) (ht : .text t ∈ ts) : .kept (.text t) ∈ xs := by
  induction h with
  | nil => cases ht
  | kept u _ ih =>
    rcases List.mem_cons.mp ht with rfl | ht
    · exact List.mem_cons_self
    · exact List.mem_cons_of_mem _ (ih ht)
  | @named c g hg xs ts _ ih =>
    rcases List.mem_append.mp ht with ht | ht
    · obtain ⟨u, hu, hut⟩ := List.mem_map.mp ht
      rw [Token.text.inj hut] at hu
      exact absurd hu (hno c g hg)
    · exact List.mem_cons_of_mem _ (ih ht)

end Language

namespace Registry

variable {r : Registry} {l : Language} {t : Bytes}

/-- **Texts that belong to no group are left by the passes.** -/
theorem text_mem_groupAll_iff (hno : ∀ c g, l.IsGroup c g → t ∉ g) (ts : List Token)
    (ps : List Pass) : .text t ∈ (r.groupAll l ts ps).1 ↔ .text t ∈ ts := by
  induction ps generalizing r ts with
  | nil => exact Iff.rfl
  | cons p ps ih =>
    have hcovers := Language.covers_lexemes l p ts
    exact (ih _).trans (text_mem_assign.trans ⟨hcovers.mem_of_kept, hcovers.kept_of_mem hno⟩)

end Registry

/-- The bytes of a token are bytes of the text. -/
theorem Language.subset_of_mem_scan {l : Language} {t text : Bytes} (h : t ∈ l.scan text) :
    t ⊆ text := by
  rw [scan_eq_filter] at h
  obtain ⟨p, hp, rfl⟩ := List.mem_map.mp h
  intro b hb
  rw [← (isFactorization_factors l text).1.joined_eq, ← flatMap_text_pieces]
  exact List.mem_flatMap.mpr ⟨p, (List.mem_filter.mp hp).1, hb⟩

/-- A fragment that is no code leaves no bytes but quotes and newlines. -/
theorem Fragment.eq_code_of_mem_stripped {keep : Keep} {f : Fragment} {x : Lexeme} {b : UInt8}
    (hx : x ∈ f.stripped keep) (hb : b ∈ x.text?.getD []) (hquote : ∀ q : Quote, b ≠ q.byte)
    (hnewline : b ≠ Byte.newline) : ∃ u, f = .code u ∧ b ∈ u := by
  cases f with
  | code u =>
    rw [List.mem_singleton.mp hx] at hb
    exact ⟨u, rfl, hb⟩
  | literal q body =>
    rw [stripped] at hx
    split at hx
    · rw [List.mem_singleton.mp hx] at hb
      cases hb
    · rw [List.mem_singleton.mp hx] at hb
      have hb : b ∈ [q.byte, q.byte] := hb
      exact absurd (by simpa using hb) (hquote q)
  | lineComment body ended =>
    rw [stripped] at hx
    split at hx
    · cases ended with
      | false =>
        rw [List.mem_singleton.mp hx] at hb
        cases hb
      | true =>
        rcases List.mem_cons.mp hx with rfl | hx
        · cases hb
        · rw [List.mem_singleton.mp hx] at hb
          exact absurd (List.mem_singleton.mp hb) hnewline
    · cases hx
  | blockComment body =>
    rw [stripped] at hx
    split at hx
    · rw [List.mem_singleton.mp hx] at hb
      cases hb
    · rw [List.mem_singleton.mp hx] at hb
      exact absurd (List.mem_singleton.mp hb) hnewline
  | openLiteral q body => cases hx
  | openComment body => cases hx

namespace Registry

variable {r : Registry} {l : Language} {t : Bytes}

/-- The bytes of scanned texts are those of code, but for quotes and newlines. -/
theorem exists_code_of_mem_scan {keep : Keep} {text : Bytes} (ht : .text t ∈ (r.scan l keep text).1)
    {b : UInt8} (hb : b ∈ t) (hquote : ∀ q : Quote, b ≠ q.byte) (hnewline : b ≠ Byte.newline) :
    ∃ u, .code u ∈ Fragment.split text ∧ b ∈ u := by
  obtain ⟨x, hx, hxt⟩ := List.mem_flatMap.mp ht
  cases x with
  | key k => simp at hxt
  | text u =>
    obtain ⟨t', ht', heq⟩ := List.mem_map.mp hxt
    obtain rfl := Token.text.inj heq
    have hbu : b ∈ u := Language.subset_of_mem_scan ht' hb
    have hmem : b ∈ (strippedLexemes keep text).flatMap fun x => x.text?.getD [] :=
      List.mem_flatMap.mpr ⟨.text u, text_mem_assign.mp hx, hbu⟩
    rw [strippedLexemes, Lexeme.flatMap_text?_joinTexts] at hmem
    obtain ⟨y, hy, hby⟩ := List.mem_flatMap.mp hmem
    obtain ⟨f, hf, hyf⟩ := List.mem_flatMap.mp hy
    obtain ⟨u, rfl, hbu⟩ := Fragment.eq_code_of_mem_stripped hyf hby hquote hnewline
    exact ⟨u, hf, hbu⟩

end Registry

/-! ### Printed keys -/

/-- Every token that reads as a key is that key. -/
def Unambiguous (ts : List Token) : Prop :=
  ∀ t ∈ ts, ∀ k, Key.parse? t.display = some k → t = .key k

/-- A key reads as itself, so that it is up to the texts. -/
theorem unambiguous_iff {ts : List Token} :
    Unambiguous ts ↔ ∀ t, .text t ∈ ts → Key.parse? t = none := by
  constructor
  · intro h t ht
    rw [Option.eq_none_iff_forall_ne_some]
    intro k hk
    cases h (.text t) ht k hk
  · intro h t ht k hk
    cases t with
    | text t =>
      rw [Token.display_text, h t ht] at hk
      cases hk
    | key k' =>
      rw [Token.display_key, Key.parse?_display] at hk
      rw [Option.some.inj hk]

namespace Registry

variable {r : Registry} {l : Language} {k : Key}

/-- **A text that reads as a key stays where the scanner finds it**, and comes from nowhere else. -/
theorem text_mem_map_iff (hl : l.Colonless) {t : Bytes} (ht : Key.parse? t = some k) (keep : Keep)
    (text : Bytes) : .text t ∈ (r.map l keep text).1 ↔ .text t ∈ (r.scan l keep text).1 := by
  apply text_mem_groupAll_iff
  intro c g hg hmem
  exact hg.head?_ne_colon hl t hmem (Key.head?_of_parse? ht)

/-- A mapped token that reads as a key is this key, or a text that reads so. -/
theorem misread_iff (hl : l.Colonless) {t : Token} (ht : Key.parse? t.display = some k)
    (keep : Keep) (text : Bytes) :
    t ∈ (r.map l keep text).1 ∧ t ≠ .key k ↔
      t ∈ (r.scan l keep text).1 ∧ t = .text t.display := by
  cases t with
  | text t =>
    have hread : Key.parse? t = some k := ht
    rw [text_mem_map_iff hl hread keep text]
    simp
  | key k' =>
    rw [Token.display_key, Key.parse?_display] at ht
    simp [Option.some.inj ht]

theorem unambiguous_map_iff (hl : l.Colonless) (keep : Keep) (text : Bytes) :
    Unambiguous (r.map l keep text).1 ↔ Unambiguous (r.scan l keep text).1 := by
  rw [unambiguous_iff, unambiguous_iff]
  apply forall_congr'
  intro t
  cases hk : Key.parse? t with
  | none => simp
  | some k => rw [text_mem_map_iff hl hk keep text]

/-- Without a colon in the code of a text, no scanned text reads as a key. -/
theorem parse?_of_mem_scan {keep : Keep} {text : Bytes}
    (h : ∀ u, .code u ∈ Fragment.split text → Byte.colon ∉ u) {t : Bytes}
    (ht : .text t ∈ (r.scan l keep text).1) : Key.parse? t = none := by
  rw [Option.eq_none_iff_forall_ne_some]
  intro k hk
  have hcolon : Byte.colon ∈ t := List.mem_of_head? (Key.head?_of_parse? hk)
  have hquote : ∀ q : Quote, Byte.colon ≠ q.byte := by
    intro q
    cases q <;> decide
  obtain ⟨u, hu, hmem⟩ := exists_code_of_mem_scan ht hcolon hquote (by decide)
  exact h u hu hmem

/-- Looking up a key by its written form prints its value. -/
theorem output_lookupWork {v : Bytes} (h : r.get? k = some v) :
    (Command.lookupWork r k.display).output = Bytes.line (k.display ++ Byte.tab :: v) := by
  unfold Command.lookupWork
  rw [Key.parse?_display]
  dsimp only
  rw [h, Option.getD_some]

end Registry

namespace Session

/-- **When printed keys are unambiguous.**  A mapped token that reads as a key, and is not that key,
is a text that the scanner found, and every such text stays.  So the mapped tokens are unambiguous
exactly if the scanned ones are; to this end it is enough that no colon stands outside literals and
comments.  Looking up a key among the tokens prints its value. -/
theorem map_unambiguous_iff (keep : Keep) (text : Bytes) :
    ∃ ts s, (start .java).map keep text = .ok (ts, s) ∧
      (∀ t k, Key.parse? t.display = some k →
        (t ∈ ts ∧ t ≠ .key k ↔
          t ∈ (Registry.empty.scan .java keep text).1 ∧ t = .text t.display)) ∧
      (Unambiguous ts ↔ Unambiguous (Registry.empty.scan .java keep text).1) ∧
      ((∀ u, .code u ∈ Fragment.split text → Byte.colon ∉ u) → Unambiguous ts) ∧
      ∀ k, .key k ∈ ts → ∃ v, s.registry.get? k = some v ∧
        (Command.lookupWork s.registry k.display).output =
          Bytes.line (k.display ++ Byte.tab :: v) := by
  have hiff := Registry.unambiguous_map_iff (r := .empty) Language.colonless_java keep text
  refine ⟨_, _, map_of_language rfl keep text, ?_, hiff, ?_, ?_⟩
  · intro t k hk
    exact Registry.misread_iff Language.colonless_java hk keep text
  · intro hcode
    apply hiff.mpr
    rw [unambiguous_iff]
    intro t ht
    exact Registry.parse?_of_mem_scan hcode ht
  · intro k hk
    obtain ⟨v, hv⟩ := Registry.backed_empty.live_map keep text k hk
    exact ⟨v, hv, Registry.output_lookupWork hv⟩

/-- A text that reads as the key of a name: the look-up of its line prints the name. -/
theorem map_ambiguous :
    ∃ s, (start .java).map {} (ascii "x :o0") =
        .ok ([.key ⟨.object, 0⟩, .text (ascii ":o0")], s) ∧
      ¬Unambiguous [.key ⟨.object, 0⟩, .text (ascii ":o0")] ∧
      (Command.lookupWork s.registry (ascii ":o0")).output = Bytes.line (ascii ":o0\tx") := by
  have hmap := map_of_language (s := start .java) rfl {} (ascii "x :o0")
  have htokens : ((start .java).registry.map .java {} (ascii "x :o0")).1 =
      [.key ⟨.object, 0⟩, .text (ascii ":o0")] := by
    decide +kernel
  rw [htokens] at hmap
  refine ⟨_, hmap, ?_, by decide +kernel⟩
  intro h
  cases h (.text (ascii ":o0")) (by simp) ⟨.object, 0⟩ (by decide +kernel)

end Session

end Lexicon
