import Lexicon.Proofs.Remapping

/-!
# What a session stores

In every state that a session reaches, with all its values forgotten now and then, the values that
it stores are such as mapping a text of its language names.  Each of them is mapped to its own key,
then.

## Main definitions

* `Registry.Holds P r` — all values of `r` are in `P`.
* `Registry.numbered r c` — how many values of category `c` were numbered since its table was
  cleared.
* `Request`, `Session.handleAll s qs` — calls and clearing, and the session after a list of these.

## Main results

* `Registry.Holds.map` — mapping a text keeps all values such as it names.
* `Session.Stores.handle`, `Session.Stores.handleAll` — what holds of every state of a session.
* `Session.map_stored` — **stored values identify themselves.**
-/

namespace Lexicon

/-! ### Values of a registry -/

theorem Table.mem_place {n : UInt32} {v : Bytes} {es : List (UInt32 × Bytes)} {e : UInt32 × Bytes}
    (h : e ∈ place n v es) : e = (n, v) ∨ e ∈ es := by
  induction es with
  | nil => exact .inl (List.mem_singleton.mp h)
  | cons d es ih =>
    obtain ⟨m, w⟩ := d
    rw [place] at h
    split at h
    · exact List.mem_cons.mp h
    · split at h
      · exact .inr h
      · rcases List.mem_cons.mp h with rfl | h
        · exact .inr List.mem_cons_self
        · exact (ih h).imp_right (List.mem_cons_of_mem _)

/-- Adding a value puts no other one into a table. -/
theorem Table.mem_entries_add {c : Category} {t : Table c} {v : Bytes} {e : UInt32 × Bytes}
    (h : e ∈ (t.add v).2.entries) : e.2 = v ∨ e ∈ t.entries := by
  cases hv : t.index.lookup v with
  | some n =>
    rw [add_of_lookup hv] at h
    exact .inr h
  | none =>
    rw [add_of_lookup_none hv] at h
    exact (mem_place h).imp_left fun he => by rw [he]

namespace Registry

variable {P : Category → Bytes → Prop} {r s : Registry}

/-- All values of a registry are in `P`. -/
def Holds (P : Category → Bytes → Prop) (r : Registry) : Prop :=
  ∀ c, ∀ e ∈ (r.table c).entries, P c e.2

theorem holds_empty : empty.Holds P := by
  intro c e he
  rw [table_empty] at he
  cases he

theorem Holds.of_get? (h : r.Holds P) {k : Key} {v : Bytes} (hk : r.get? k = some v) :
    P k.category v := by
  obtain ⟨_, _, heq, -⟩ := List.lookup_eq_some_iff.mp (Table.lookup_of_get? hk)
  refine h k.category (k.sequence, v) ?_
  rw [heq]
  simp

theorem Holds.add (h : r.Holds P) {c : Category} {v : Bytes} (hv : P c v) :
    (r.add c v).2.Holds P := by
  intro d e he
  by_cases hd : c = d
  · subst hd
    rw [table_add_self] at he
    rcases Table.mem_entries_add he with rfl | he
    · exact hv
    · exact h c e he
  · rw [table_add_of_ne r v hd] at he
    exact h d e he

theorem Holds.assign (h : r.Holds P) {xs : List Lexeme} (hxs : ∀ c v, .named c v ∈ xs → P c v) :
    (r.assign xs).2.Holds P := by
  induction xs generalizing r with
  | nil => exact h
  | cons x xs ih =>
    have hrest : ∀ c v, .named c v ∈ xs → P c v :=
      fun c v hv => hxs c v (List.mem_cons_of_mem _ hv)
    cases x with
    | kept t => exact ih h hrest
    | named c v => exact ih (h.add (hxs c v List.mem_cons_self)) hrest

end Registry

/-- What a pass names is a group. -/
theorem Language.Covers.exists_group {l : Language} {xs : List Lexeme} {ts : List Token}
    (h : l.Covers xs ts) {c : Category} {v : Bytes} (hv : .named c v ∈ xs) :
    ∃ g, l.IsGroup c g ∧ v = g.flatten := by
  induction h with
  | nil => cases hv
  | kept t _ ih =>
    rcases List.mem_cons.mp hv with heq | hv
    · cases heq
    · exact ih hv
  | @named d g hg xs ts _ ih =>
    rcases List.mem_cons.mp hv with heq | hv
    · obtain ⟨rfl, rfl⟩ := Lexeme.named.inj heq
      exact ⟨g, hg, rfl⟩
    · exact ih hv

namespace Registry

variable {r : Registry} {l : Language}

theorem Holds.groupAll (h : r.Holds l.IsValue) (ts : List Token) (ps : List Pass) :
    (r.groupAll l ts ps).2.Holds l.IsValue := by
  induction ps generalizing r ts with
  | nil => exact h
  | cons p ps ih =>
    apply ih
    apply h.assign
    intro c v hv
    obtain ⟨g, hg, rfl⟩ := (Language.covers_lexemes l p ts).exists_group hv
    exact .grouped hg

/-- **Mapping a text keeps all values such as it names.** -/
theorem Holds.map (h : r.Holds l.IsValue) (keep : Keep) (text : Bytes) :
    (r.map l keep text).2.Holds l.IsValue := by
  apply Holds.groupAll
  exact h.assign fun c v hv => .stripped hv

/-- How many values of a category were numbered since its table was cleared, if none was removed. -/
def numbered (r : Registry) (c : Category) : Nat := (r.table c).index.length

/-- The additions are counted by the index. -/
theorem Adds.reached {s : Registry} (h : r.Adds s) (hr : r.Reached r.numbered) :
    s.Reached s.numbered := by
  induction h with
  | refl => exact hr
  | @add r s c v _ ih =>
    apply ih
    have hnumbered : (r.add c v).2.numbered = fun d => r.numbered d + r.fresh c v d := by
      funext d
      exact index_length_add r c d v
    rw [hnumbered]
    exact .add c v hr

end Registry

/-! ### Sessions -/

/-- What a session may be asked for: a call, or to forget all its values. -/
inductive Request
  | call (c : Call)
  | clear
  deriving DecidableEq, Repr

/-- Whether a request leaves the language of the session as it is. -/
def Request.keepsLanguage : Request → Bool
  | .call c => c.keepsLanguage
  | .clear => true

namespace Session

variable {s : Session} {l : Language}

/-- The session after a request. -/
def handle (s : Session) : Request → Session
  | .call c => s.perform c
  | .clear => s.clear

/-- The session after some requests. -/
def handleAll (s : Session) (qs : List Request) : Session := qs.foldl handle s

@[simp] theorem handleAll_cons (s : Session) (q : Request) (qs : List Request) :
    s.handleAll (q :: qs) = (s.handle q).handleAll qs := rfl

/-- `Stores l s` says that the session `s` has the language `l` and only such values as mapping
texts of that language names, and that the index of each table counts the values numbered. -/
structure Stores (l : Language) (s : Session) : Prop where
  language : s.language = some l
  holds : s.registry.Holds l.IsValue
  reached : s.registry.Reached s.registry.numbered

/-- A session without values stores nothing but what it names. -/
theorem stores_of_empty (hl : s.language = some l) (hr : s.registry = .empty) : Stores l s := by
  refine ⟨hl, ?_, ?_⟩
  · rw [hr]
    exact Registry.holds_empty
  · have hnone : Registry.empty.numbered = fun _ => 0 := by
      funext c
      rw [Registry.numbered, Registry.table_empty]
      rfl
    rw [hr, hnone]
    exact .empty

/-- A call names nothing but values of its language. -/
theorem Stores.perform (h : Stores l s) {c : Call} (hc : c.keepsLanguage) :
    Stores l (s.perform c) := by
  refine ⟨(language_perform hc).trans h.language, ?_, (adds_perform s c).reached h.reached⟩
  cases c with
  | tokenize text =>
    rw [Session.perform, tokenize_snd]
    exact h.holds
  | map keep text =>
    rw [perform_map_of_ok (map_of_language h.language keep text)]
    exact h.holds.map keep text
  | setLanguage l => simp [Call.keepsLanguage] at hc
  | restore tokens => exact h.holds

theorem Stores.handle (h : Stores l s) {q : Request} (hq : q.keepsLanguage) :
    Stores l (s.handle q) := by
  cases q with
  | call c => exact h.perform hq
  | clear => exact stores_of_empty h.language rfl

/-- **Every state of a session stores only values of its language.** -/
theorem Stores.handleAll (h : Stores l s) {qs : List Request} (hqs : ∀ q ∈ qs, q.keepsLanguage) :
    Stores l (s.handleAll qs) := by
  induction qs generalizing s with
  | nil => exact h
  | cons q qs ih =>
    obtain ⟨hq, hqs⟩ := List.forall_mem_cons.mp hqs
    exact ih (h.handle hq) hqs

/-- **Stored values identify themselves.**  In every state of a session that keeps its language,
every value but that of a delimiter is mapped to its own key, and the session stays as it is. -/
theorem map_stored {qs : List Request} (hqs : ∀ q ∈ qs, q.keepsLanguage)
    (hn : ∀ c, ((start .java).handleAll qs).registry.numbered c < UInt32.size)
    {k : Key} {v : Bytes} (hk : ((start .java).handleAll qs).registry.get? k = some v)
    (hc : k.category ≠ .delimiter) :
    ((start .java).handleAll qs).map .all v = .ok ([.key k], (start .java).handleAll qs) := by
  have hstart : Stores .java (start .java) := stores_of_empty rfl rfl
  have hstores := hstart.handleAll hqs
  have hsound : ((start .java).handleAll qs).registry.Sound :=
    fun c => (hstores.reached.sound (hn c)).1
  rw [map_of_language hstores.language,
    Registry.map_of_isValue Language.regular_java hsound hk (hstores.holds.of_get? hk) hc]

/-- A session that was cleared, and a comment with the newline at its end. -/
theorem map_stored_comment :
    ((start .java).handleAll [.call (.map .all (ascii "a.b = .5")), .clear,
      .call (.map .all (ascii "m.go(2., 'x'); // y\n")), .call (.tokenize (ascii "m"))]).map .all
        (ascii "// y\n") =
      .ok ([.key ⟨.comment, 0⟩], (start .java).handleAll [.call (.map .all (ascii "a.b = .5")),
        .clear, .call (.map .all (ascii "m.go(2., 'x'); // y\n")),
        .call (.tokenize (ascii "m"))]) := by
  have hroom : ∀ c, ((start .java).handleAll [.call (.map .all (ascii "a.b = .5")), .clear,
      .call (.map .all (ascii "m.go(2., 'x'); // y\n")),
      .call (.tokenize (ascii "m"))]).registry.numbered c < UInt32.size := by
    intro c
    cases c <;> decide +kernel
  exact map_stored (by decide) hroom (by decide +kernel) (by decide)

end Session
end Lexicon
