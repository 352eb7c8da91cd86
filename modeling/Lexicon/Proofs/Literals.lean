import Lexicon.Proofs.Comments

/-!
# Literals and the tokens around them

Stripping either keeps a literal as a key or leaves its two quotes.  If each quote is a delimiter by
itself and part of no other one, the quotes are two tokens wherever they stand, and they cut the
text around them where a key does: the tokens are the same up to the literals themselves.

## Main definitions

* `Language.QuotesAlone` — each quote is a delimiter of one byte, a token, and part of no other
  delimiter.
* `Registry.quotesOf s t` — the token `t`, or the two quotes of the literal that it is the key of.

## Main results

* `Language.scanLexemes_append_quotes` — two quotes are two tokens.
* `Registry.flatMap_quotesOf_assign` — literals are named apart from everything else.
* `Registry.flatMap_quotesOf_scan` — **keeping literals replaces pairs of quotes, and nothing else.**
-/

namespace Lexicon

/-! ### From keys to quotes -/

/-- The tokens with which a token is replaced if literals are to leave their quotes: for the key of
a literal, the first byte of its value twice, and the token itself otherwise. -/
def Registry.quotesOf (s : Registry) : Token → List Token
  | .text t => [.text t]
  | .key k =>
    if k.category = .literal then
      let quote := ((s.get? k).getD []).take 1
      [.text quote, .text quote]
    else [.key k]

/-- The lexemes with which a lexeme is replaced if literals are to leave their quotes. -/
def Lexeme.quotes : Lexeme → List Lexeme
  | .named .literal v => [.text (v.take 1), .text (v.take 1)]
  | x => [x]

theorem Lexeme.quotes_named {c : Category} (hc : c ≠ .literal) (v : Bytes) :
    (named c v).quotes = [named c v] := by
  cases c with
  | literal => exact absurd rfl hc
  | _ => rfl

theorem Lexeme.flatMap_quotes_map_text (ts : List Bytes) :
    (ts.map Lexeme.text).flatMap quotes = ts.map .text := by
  induction ts with
  | nil => rfl
  | cons t ts ih =>
    rw [List.map_cons, List.flatMap_cons, ih]
    rfl

namespace Registry

variable {r s t : Registry}

theorem quotesOf_of_get? {k : Key} {v : Bytes} (hk : s.get? k = some v)
    (hc : k.category = .literal) : s.quotesOf (.key k) = [.text (v.take 1), .text (v.take 1)] := by
  rw [quotesOf, if_pos hc, hk, Option.getD_some]

theorem quotesOf_of_ne {k : Key} (hc : k.category ≠ .literal) : s.quotesOf (.key k) = [.key k] := by
  rw [quotesOf, if_neg hc]

/-- **Literals are named apart from everything else**: with quotes for their keys, the tokens are
those that naming leaves of the lexemes with quotes for the literals. -/
theorem flatMap_quotesOf_assign (hoff : r.AgreesOff .literal t) {xs : List Lexeme}
    (hkeys : ∀ k, .kept (.key k) ∉ xs) (h : r.Grows (r.assign xs).2)
    (he : (r.assign xs).2.Extends s) :
    (r.assign xs).1.flatMap s.quotesOf = (t.assign (xs.flatMap Lexeme.quotes)).1 := by
  induction xs generalizing r t with
  | nil => rfl
  | cons x xs ih =>
    have hrest : ∀ k, .kept (.key k) ∉ xs := fun k hk => hkeys k (List.mem_cons_of_mem _ hk)
    cases x with
    | kept u =>
      cases u with
      | key k => exact absurd List.mem_cons_self (hkeys k)
      | text u =>
        rw [assign_kept, List.flatMap_cons, List.flatMap_cons]
        exact congrArg (Token.text u :: ·) (ih hoff hrest h he)
    | named c v =>
      rw [assign_named] at h he ⊢
      have htail := h.add (adds_assign (r.add c v).2 xs)
      rw [List.flatMap_cons, List.flatMap_cons]
      by_cases hc : c = .literal
      · subst hc
        -- the key leads back to the literal at the end of the naming, too
        have hk := he _ _ (htail.extends _ _ (get?_add_self h.sound .literal v))
        rw [quotesOf_of_get? hk (category_add r .literal v)]
        exact congrArg (Token.text (v.take 1) :: Token.text (v.take 1) :: ·)
          (ih (hoff.add_left v) hrest htail he)
      · rw [quotesOf_of_ne (by rwa [category_add]), Lexeme.quotes_named hc, hoff.key_add hc]
        exact congrArg (Token.key (t.add c v).1 :: ·) (ih (hoff.add hc v) hrest htail he)

end Registry

/-! ### Scanning around quotes -/

namespace Language

open Lexeme

variable {l : Language}

/-- `l.QuotesAlone` says that each quote is a delimiter of one byte and a token, and that no other
delimiter holds it. -/
structure QuotesAlone (l : Language) : Prop where
  alone : ∀ q : Quote, l.Alone q.byte
  not_isSpace : ∀ q : Quote, ¬l.isSpace [q.byte]

instance (l : Language) : Decidable l.QuotesAlone :=
  decidable_of_iff ((l.Alone Quote.double.byte ∧ ¬l.isSpace [Quote.double.byte]) ∧
      l.Alone Quote.single.byte ∧ ¬l.isSpace [Quote.single.byte])
    ⟨fun h => ⟨fun q => match q with | .double => h.1.1 | .single => h.2.1,
        fun q => match q with | .double => h.1.2 | .single => h.2.2⟩,
      fun h => ⟨⟨h.alone _, h.not_isSpace _⟩, h.alone _, h.not_isSpace _⟩⟩

/-- A quote by itself is a token. -/
theorem QuotesAlone.scan_quote (hl : l.QuotesAlone) (q : Quote) : l.scan [q.byte] = [[q.byte]] := by
  rw [scan_alone (hl.alone q), if_neg (hl.not_isSpace q)]

/-- **Two quotes are two tokens**, and what stands on both sides of them is apart. -/
theorem scanLexemes_append_quotes (hl : l.QuotesAlone) (q : Quote) (xs ys : List Lexeme) :
    l.scanLexemes (joinTexts (xs ++ .text [q.byte, q.byte] :: ys)) =
      l.scanLexemes (joinTexts xs) ++
        (.text [q.byte] :: .text [q.byte] :: l.scanLexemes (joinTexts ys)) := by
  have hsplit : joinTexts (xs ++ .text [q.byte, q.byte] :: ys) =
      joinTexts (xs ++ .text [q.byte] :: .text [q.byte] :: ys) := by
    apply joinTexts_append_congr
    exact (joinTexts_text_text [q.byte] [q.byte] ys).symm
  have hsecond := scanLexemes_append_alone (hl.alone q) [] ys
  rw [List.nil_append] at hsecond
  rw [hsplit, scanLexemes_append_alone (hl.alone q), hsecond, hl.scan_quote]
  rfl

/-- Lexemes that leave themselves can be put in front of others. -/
theorem flatMap_quotes_append {kept removed : List Lexeme}
    (h : ∀ u, (l.scanLexemes (joinTexts (.text u :: kept))).flatMap quotes =
      l.scanLexemes (joinTexts (.text u :: removed)))
    {zs : List Lexeme} (hz : ∀ z ∈ zs, z.quotes = [z]) (u : Bytes) :
    (l.scanLexemes (joinTexts (.text u :: (zs ++ kept)))).flatMap quotes =
      l.scanLexemes (joinTexts (.text u :: (zs ++ removed))) := by
  induction zs generalizing u with
  | nil => exact h u
  | cons z zs ih =>
    obtain ⟨hz, hzs⟩ := List.forall_mem_cons.mp hz
    have hanew := ih hzs []
    rw [scanLexemes_text_nil, scanLexemes_text_nil] at hanew
    cases z with
    | named c v =>
      rw [List.cons_append, List.cons_append, scanLexemes_text_named, scanLexemes_text_named,
        List.flatMap_append, flatMap_quotes_map_text, List.flatMap_cons, hz, hanew]
      rfl
    | kept t =>
      cases t with
      | key k =>
        rw [List.cons_append, List.cons_append, joinTexts_text_cons rfl, joinTexts_text_cons rfl,
          joinTexts_key, joinTexts_key, scanLexemes_text, scanLexemes_text, scanLexemes_key,
          scanLexemes_key, List.flatMap_append, flatMap_quotes_map_text, List.flatMap_cons, hz,
          hanew]
        rfl
      | text t =>
        rw [List.cons_append, List.cons_append, joinTexts_text_text, joinTexts_text_text]
        exact ih hzs (u ++ t)

end Language

/-! ### Kept and removed -/

namespace Fragment

variable {l : Language}

/-- What a fragment leaves does not depend on whether literals are kept, a literal apart. -/
theorem stripped_literals {f : Fragment} (hf : ∀ q body, f ≠ .literal q body) (comments : Bool) :
    f.stripped ⟨true, comments⟩ = f.stripped ⟨false, comments⟩ ∧
      ∀ x ∈ f.stripped ⟨false, comments⟩, x.quotes = [x] := by
  cases f with
  | literal q body => exact absurd rfl (hf q body)
  | code t => exact ⟨rfl, by simp [stripped, Lexeme.quotes]⟩
  | lineComment body ended =>
    refine ⟨rfl, ?_⟩
    cases comments <;> cases ended <;> simp [stripped, Lexeme.quotes]
  | blockComment body =>
    refine ⟨rfl, ?_⟩
    cases comments <;> simp [stripped, Lexeme.quotes]
  | openLiteral q body => exact ⟨rfl, by simp [stripped]⟩
  | openComment body => exact ⟨rfl, by simp [stripped]⟩

/-- **The key of a literal stands where its quotes would stand**, and cuts the text as they do. -/
theorem flatMap_quotes_stripped (hl : l.QuotesAlone) (comments : Bool) (fs : List Fragment)
    (u : Bytes) :
    (l.scanLexemes (Lexeme.joinTexts
        (.text u :: fs.flatMap (stripped ⟨true, comments⟩)))).flatMap Lexeme.quotes =
      l.scanLexemes (Lexeme.joinTexts (.text u :: fs.flatMap (stripped ⟨false, comments⟩))) := by
  induction fs generalizing u with
  | nil =>
    rw [List.flatMap_nil, List.flatMap_nil, Language.scanLexemes_singleton_text,
      Lexeme.flatMap_quotes_map_text]
  | cons f fs ih =>
    rw [List.flatMap_cons, List.flatMap_cons]
    by_cases hf : ∃ q body, f = .literal q body
    · obtain ⟨q, body, rfl⟩ := hf
      have hanew := ih []
      rw [Language.scanLexemes_text_nil, Language.scanLexemes_text_nil] at hanew
      have hquotes := Language.scanLexemes_append_quotes hl q [.text u]
        (fs.flatMap (stripped ⟨false, comments⟩))
      rw [Language.scanLexemes_singleton_text, ← hanew, List.singleton_append] at hquotes
      calc (l.scanLexemes (Lexeme.joinTexts (.text u ::
            .named .literal (q.byte :: body ++ [q.byte]) ::
              fs.flatMap (stripped ⟨true, comments⟩)))).flatMap Lexeme.quotes
          = (l.scan u).map .text ++ (.text [q.byte] :: .text [q.byte] ::
              (l.scanLexemes (Lexeme.joinTexts
                (fs.flatMap (stripped ⟨true, comments⟩)))).flatMap Lexeme.quotes) := by
            rw [Language.scanLexemes_text_named, List.flatMap_append,
              Lexeme.flatMap_quotes_map_text]
            rfl
        _ = l.scanLexemes (Lexeme.joinTexts (.text u :: .text [q.byte, q.byte] ::
              fs.flatMap (stripped ⟨false, comments⟩))) := hquotes.symm
    · obtain ⟨hsame, hz⟩ := stripped_literals (fun q body h => hf ⟨q, body, h⟩) comments
      rw [hsame]
      exact Language.flatMap_quotes_append ih hz u

end Fragment

namespace Registry

variable {l : Language} {r : Registry}

/-- The scanned lexemes of a source text hold no keys yet. -/
theorem key_notMem_scanLexemes (keep : Keep) (text : Bytes) (k : Key) :
    .kept (.key k) ∉ l.scanLexemes (strippedLexemes keep text) := by
  intro hmem
  obtain ⟨x, hx, hk⟩ := List.mem_flatMap.mp hmem
  cases ofSource_strippedLexemes keep text x hx with
  | text ht => simp at hk
  | literal v => simp at hk
  | comment v => simp at hk

/-- **Keeping literals replaces pairs of quotes, and nothing else**: with two tokens of the first
byte of its value for the key of each literal, the tokens of a text whose literals are kept are
those of the text whose literals are removed, from the same registry, as long as each quote is a
token and part of no longer delimiter.  Java is such a language. -/
theorem flatMap_quotesOf_scan :
    Language.java.QuotesAlone ∧
      ∀ {l : Language} {r : Registry} {n : Category → Nat}, l.QuotesAlone → r.Reached n →
        ∀ (comments : Bool) (text : Bytes),
          (∀ c, n c + r.growth (r.scan l ⟨true, comments⟩ text).2 c < UInt32.size) →
          (r.scan l ⟨true, comments⟩ text).1.flatMap
              (r.scan l ⟨true, comments⟩ text).2.quotesOf =
            (r.scan l ⟨false, comments⟩ text).1 := by
  refine ⟨by decide +kernel, ?_⟩
  intro l r n hl hr comments text hn
  have hg : r.Grows (r.scan l ⟨true, comments⟩ text).2 :=
    hr.grows (adds_strip r ⟨true, comments⟩ text) hn
  have hquotes := Fragment.flatMap_quotes_stripped hl comments (Fragment.split text) []
  rw [Language.scanLexemes_text_nil, Language.scanLexemes_text_nil] at hquotes
  have hscan := r.scan_eq_assign l ⟨true, comments⟩ text
  rw [hscan] at hg
  have hassign := flatMap_quotesOf_assign (.refl r .literal)
    (key_notMem_scanLexemes ⟨true, comments⟩ text) hg (.refl _)
  rw [hscan, hassign, scan_eq_assign]
  exact congrArg (fun xs => (r.assign xs).1) hquotes

/-- Two literals, of which one is next to names on both sides, before a comment that is kept. -/
theorem flatMap_quotesOf_scan_adjacent :
    (empty.scan .java ⟨true, true⟩ (ascii "a'b'c=\"d\"/*e*/")).1 =
        [.text (ascii "a"), .key ⟨.literal, 0⟩, .text (ascii "c"), .text (ascii "="),
          .key ⟨.literal, 1⟩, .key ⟨.comment, 0⟩] ∧
      (empty.scan .java ⟨true, true⟩ (ascii "a'b'c=\"d\"/*e*/")).1.flatMap
          (empty.scan .java ⟨true, true⟩ (ascii "a'b'c=\"d\"/*e*/")).2.quotesOf =
        (empty.scan .java ⟨false, true⟩ (ascii "a'b'c=\"d\"/*e*/")).1 := by
  have hroom : ∀ c, 0 + empty.growth
      (empty.scan .java ⟨true, true⟩ (ascii "a'b'c=\"d\"/*e*/")).2 c < UInt32.size := by
    intro c
    cases c <;> decide +kernel
  refine ⟨by decide +kernel, ?_⟩
  exact flatMap_quotesOf_scan.2 flatMap_quotesOf_scan.1 .empty true _ hroom

end Registry

end Lexicon
