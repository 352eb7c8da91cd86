import Lexicon.Proofs.Restoring

/-!
# Runs of a session

A session answers calls one after the other.  As long as no value is removed and no table cleared,
its registry only grows, so that the keys which a call returned keep their values for the rest of
the run, whatever languages and texts follow.

## Main definitions

* `Call` — what a session is asked for.
* `Session.perform s c`, `Session.run s calls` — the session after a call, and after all of them.

## Main results

* `Session.adds_run` — a run only adds to the registry.
* `Session.restore_run` — **mapped tokens are restored to the same texts for the rest of the run.**
-/

namespace Lexicon

/-- What a session may be asked for while it is to remember its values. -/
inductive Call
  | tokenize (text : Bytes)
  | map (keep : Keep) (text : Bytes)
  | setLanguage (l : Option Language)
  | restore (tokens : List Token)
  deriving DecidableEq, Repr

/-- Whether a call leaves the language of the session as it is. -/
def Call.keepsLanguage : Call → Bool
  | .setLanguage _ => false
  | _ => true

namespace Session

variable {s : Session}

/-- The session after a call.  One that fails returns no session, and the old one goes on. -/
def perform (s : Session) : Call → Session
  | .tokenize text => (s.tokenize text).2
  | .map keep text =>
    match s.map keep text with
    | .ok (_, s') => s'
    | .error _ => s
  | .setLanguage l => s.withLanguage l
  | .restore _ => s

/-- The session after some calls. -/
def run (s : Session) (calls : List Call) : Session := calls.foldl perform s

@[simp] theorem run_nil (s : Session) : s.run [] = s := rfl

@[simp] theorem run_cons (s : Session) (c : Call) (calls : List Call) :
    s.run (c :: calls) = (s.perform c).run calls := rfl

theorem run_append (s : Session) (calls calls' : List Call) :
    s.run (calls ++ calls') = (s.run calls).run calls' :=
  List.foldl_append

/-! ### One call -/

/-- Plain tokenizing leaves the session as it is. -/
theorem tokenize_snd (s : Session) (text : Bytes) : (s.tokenize text).2 = s := by
  show Session.mk s.language (s.registry.tokenize s.separators text).2 = s
  rw [Registry.tokenize_snd]

theorem perform_map_of_ok {keep : Keep} {text : Bytes} {tokens : List Token} {s' : Session}
    (h : s.map keep text = .ok (tokens, s')) : s.perform (.map keep text) = s' := by
  rw [perform, h]

theorem perform_map_of_error {keep : Keep} {text : Bytes} {e : MapError}
    (h : s.map keep text = .error e) : s.perform (.map keep text) = s := by
  rw [perform, h]

/-- Mapping fails without a language, and only then. -/
theorem map_eq_error_iff (keep : Keep) (text : Bytes) {e : MapError} :
    s.map keep text = .error e ↔ s.language = none := by
  cases e
  rw [Session.map]
  cases s.language <;> simp

/-- A mapped text comes with the language that the session has. -/
theorem exists_language_of_map {keep : Keep} {text : Bytes} {tokens : List Token} {s' : Session}
    (h : s.map keep text = .ok (tokens, s')) :
    ∃ l, s.language = some l ∧ tokens = (s.registry.map l keep text).1 ∧
      s' = { s with registry := (s.registry.map l keep text).2 } := by
  cases hl : s.language with
  | none =>
    rw [Session.map, hl] at h
    simp at h
  | some l =>
    rw [map_of_language hl, Except.ok.injEq, Prod.mk.injEq] at h
    exact ⟨l, rfl, h.1.symm, hl ▸ h.2.symm⟩

/-- **A call only adds to the registry.** -/
theorem adds_perform (s : Session) (c : Call) : s.registry.Adds (s.perform c).registry := by
  cases c with
  | tokenize text =>
    rw [perform, tokenize_snd]
    exact .refl _
  | map keep text =>
    cases hl : s.language with
    | none =>
      have herror := (map_eq_error_iff keep text (e := .noLanguage)).mpr hl
      rw [perform_map_of_error herror]
      exact .refl _
    | some l =>
      rw [perform_map_of_ok (map_of_language hl keep text)]
      exact Registry.adds_map _ l keep text
  | setLanguage l => exact .refl _
  | restore tokens => exact .refl _

theorem language_perform {c : Call} (hc : c.keepsLanguage) : (s.perform c).language = s.language := by
  cases c with
  | tokenize text => rfl
  | map keep text =>
    cases h : s.map keep text with
    | error e => rw [perform_map_of_error h]
    | ok p =>
      obtain ⟨l, -, -, hs⟩ := exists_language_of_map h
      rw [perform_map_of_ok h, hs]
  | setLanguage l => simp [Call.keepsLanguage] at hc
  | restore tokens => rfl

/-! ### Runs -/

/-- **A run only adds to the registry.** -/
theorem adds_run (s : Session) (calls : List Call) : s.registry.Adds (s.run calls).registry := by
  induction calls generalizing s with
  | nil => exact .refl _
  | cons c calls ih => exact (adds_perform s c).trans (ih _)

theorem language_run {calls : List Call} (h : ∀ c ∈ calls, c.keepsLanguage) :
    (s.run calls).language = s.language := by
  induction calls generalizing s with
  | nil => rfl
  | cons c calls ih =>
    obtain ⟨hc, hcalls⟩ := List.forall_mem_cons.mp h
    rw [run_cons, ih hcalls, language_perform hc]

/-- **Keys stay meaningful over a whole run.**  The keys of a mapped text are live as soon as it is
mapped, and for the rest of the run they are live and its tokens are restored to the same texts.
Plain tokenizing and mapping without a language leave the session as it is. -/
theorem restore_run {n : Category → Nat} (hr : s.registry.Reached n) (before after : List Call)
    {keep : Keep} {text : Bytes} {tokens : List Token} {s' : Session}
    (hmap : (s.run before).map keep text = .ok (tokens, s'))
    (hn : ∀ c, n c +
      s.registry.growth (s.run (before ++ .map keep text :: after)).registry c < UInt32.size) :
    s'.registry.Live tokens ∧
      (s.run (before ++ .map keep text :: after)).registry.Live tokens ∧
      (s.run (before ++ .map keep text :: after)).restore tokens = s'.restore tokens ∧
      ∀ (t : Session) (keep : Keep) (text : Bytes), (t.tokenize text).2 = t ∧
        (t.language = none → t.map keep text = .error .noLanguage ∧
          t.perform (.map keep text) = t) := by
  have hrun : s.run (before ++ .map keep text :: after) = s'.run after := by
    rw [run_append, run_cons, perform_map_of_ok hmap]
  rw [hrun] at hn ⊢
  obtain ⟨l, -, htokens, hs'⟩ := exists_language_of_map hmap
  -- the registry grows before the call, in the call and after it
  have hbefore := adds_run s before
  have hcall : (s.run before).registry.Adds s'.registry := by
    rw [hs']
    exact Registry.adds_map _ l keep text
  have hafter := adds_run s' after
  have hg := hr.grows (hbefore.trans (hcall.trans hafter)) hn
  have hg₁ := (hg.split hbefore (hcall.trans hafter)).2
  obtain ⟨hg₂, hg₃⟩ := hg₁.split hcall hafter
  have hlive : s'.registry.Live tokens := by
    rw [htokens]
    rw [hs'] at hg₂ ⊢
    exact Registry.live_map hg₂
  refine ⟨hlive, hlive.mono hg₃.extends, hlive.restore_eq hg₃.extends, ?_⟩
  intro t keep text
  refine ⟨tokenize_snd t text, fun hl => ?_⟩
  have herror := (map_eq_error_iff keep text (e := .noLanguage)).mpr hl
  exact ⟨herror, perform_map_of_error herror⟩

/-- A text with a literal and a comment, before which another text is mapped and after which the
language is taken away. -/
theorem restore_run_unbound :
    ∃ tokens s',
      ((start .java).run [.map {} (ascii "x = 1;")]).map .all (ascii "y = 'a'; // x") =
        .ok (tokens, s') ∧
      (s'.run [.setLanguage none, .map {} (ascii "x"), .tokenize (ascii "x")]).restore tokens =
        s'.restore tokens := by
  have hl : ((start .java).run [.map {} (ascii "x = 1;")]).language = some .java :=
    language_run (by decide)
  have hmap := map_of_language hl .all (ascii "y = 'a'; // x")
  have hroom : ∀ c, 0 + (start .java).registry.growth ((start .java).run
      ([.map {} (ascii "x = 1;")] ++ .map .all (ascii "y = 'a'; // x") ::
        [.setLanguage none, .map {} (ascii "x"), .tokenize (ascii "x")])).registry c <
      UInt32.size := by
    intro c
    cases c <;> decide +kernel
  obtain ⟨-, -, hrestore, -⟩ := restore_run (s := start .java) .empty _ _ hmap hroom
  rw [run_append, run_cons, perform_map_of_ok hmap] at hrestore
  exact ⟨_, _, hmap, hrestore⟩

end Session
end Lexicon
