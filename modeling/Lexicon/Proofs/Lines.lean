import Lexicon.Command.Work
import Lexicon.Proofs.Scanning
import Lexicon.Proofs.Settled

/-!
# Tokens on lines

Plain tokens are printed one on each line, and reading the lines again gives the same tokens.  Text
without its literals and comments has quotes in pairs only, of which a newline may now keep the two
halves apart: they read as a literal again, and leave the pair as it was.  No comment starts in it.
All other newlines separate tokens that were apart before.

## Main definitions

* `half o b` — the pair of quotes that is half read after the byte `b`, if any.
* `Paired o t` — after the half pair `o`, the quotes of `t` stand in pairs.
* `Forward.plain` — what the forward reader leaves as text if nothing is kept.
* `joinPairs o ts` — the lines of the tokens `ts`, without the newlines inside pairs of quotes.
* `Language.SplitsLines` — newlines separate tokens, and spacing delimiters hold no quotes.

## Main results

* `Settled.paired` — the quotes of stripped text stand in pairs.
* `leaves_lines` — the lines of its tokens leave the tokens, with pairs of quotes joined.
* `Language.scan_joinPairs` — joined lines have the tokens that they were made of.
* `Session.tokenize_lines` — **plain tokens are read back from their lines.**
-/

namespace Lexicon

/-! ### Pairs of quotes -/

/-- The pair of quotes that is half read after the byte `b`, if `o` is the one before it. -/
def half : Option Quote → UInt8 → Option Quote
  | none, b =>
    if b = Byte.doubleQuote then some .double
    else if b = Byte.singleQuote then some .single
    else none
  | some _, _ => none

@[simp] theorem half_some (q : Quote) (b : UInt8) : half (some q) b = none := rfl

@[simp] theorem half_quote (q : Quote) : half none q.byte = some q := by
  cases q <;> rfl

theorem half_of_ne {b : UInt8} (h : ∀ q : Quote, b ≠ q.byte) : half none b = none := by
  have hdouble : b ≠ Byte.doubleQuote := h .double
  have hsingle : b ≠ Byte.singleQuote := h .single
  rw [half, if_neg hdouble, if_neg hsingle]

theorem foldl_half_of_notMem {t : Bytes} (h : ∀ q : Quote, q.byte ∉ t) :
    t.foldl half none = none := by
  induction t with
  | nil => rfl
  | cons b t ih =>
    have hb : half none b = none := by
      refine half_of_ne fun q hb => h q ?_
      rw [hb]
      exact List.mem_cons_self
    rw [List.foldl_cons, hb]
    exact ih fun q hq => h q (List.mem_cons_of_mem b hq)

/-- `Paired o t` says that the quotes of `t` stand in pairs, of which no text is between the two,
and that `t` starts with the other half of `o`. -/
def Paired : Option Quote → Bytes → Prop
  | o, [] => o = none
  | o, b :: t => (∀ q ∈ o, b = q.byte) ∧ Paired (half o b) t

theorem Paired.drop {o : Option Quote} {t u : Bytes} (h : Paired o (t ++ u)) :
    Paired (t.foldl half o) u := by
  induction t generalizing o with
  | nil => exact h
  | cons b t ih => exact ih h.2

/-- The quotes of settled text stand in pairs. -/
theorem Settled.paired {t : Bytes} (h : Settled t) : Paired none t := by
  induction h with
  | nil => rfl
  | byte hquote _ _ ih =>
    refine ⟨by simp, ?_⟩
    rw [half_of_ne hquote]
    exact ih
  | quotes q _ ih =>
    refine ⟨by simp, by simp, ?_⟩
    rw [half_quote, half_some]
    exact ih

/-! ### What is left if nothing is kept -/

namespace Forward

open Fragment

variable {m : Mode} {rest : Bytes} {b : UInt8}

/-- The text that the forward reader leaves of the rest if nothing is kept. -/
def plain (state : Forward) (rest : Bytes) : Bytes :=
  (lexemes {} state rest).flatMap fun x => x.text?.getD []

theorem plain_opening (hm : m ≠ .code) (rest : Bytes) :
    plain .code (m.opening ++ rest) = plain (ofMode m []) rest := by
  rw [plain, lexemes_opening {} hm, plain]

theorem plain_code (h : ∀ n : Mode, n ≠ .code → ¬n.opening <+: b :: rest) :
    plain .code (b :: rest) = b :: plain .code rest := by
  rw [plain, lexemes_code h]
  rfl

end Forward

/-- Without literals and comments, stripped text is what the forward reader leaves. -/
theorem Registry.render_strip (r : Registry) (text : Bytes) :
    render (r.strip {} text).1 = Forward.plain .code text := by
  have hbytes := Lexeme.flatMap_text?_joinTexts (Forward.lexemes {} .code text)
  rw [← strippedLexemes_eq] at hbytes
  rw [Forward.plain, ← hbytes, strip]
  rcases strippedLexemes_plain text with h | ⟨t, h⟩
  · rw [h]
    rfl
  · rw [h]
    rfl

/-- **Quotes are left in pairs.** -/
theorem Forward.paired_plain (text : Bytes) : Paired none (plain .code text) := by
  rw [← Registry.render_strip .empty]
  exact (Registry.settled_strip .empty {} text).paired

/-- **No comment starts in what is left.** -/
theorem Forward.uncommented_plain (text : Bytes) : Uncommented (plain .code text) := by
  rw [← Registry.render_strip .empty]
  exact (Registry.settled_strip .empty {} text).uncommented

/-! ### Reading lines -/

namespace Forward

open Fragment

/-- Where a reader is in the midst of pairs of quotes: in code, or in the literal between two. -/
def ofHalf : Option Quote → Bytes → Forward
  | none, _ => .code
  | some q, body => .literal q body false

/-- The half of a pair that was read, but is not left yet. -/
def held : Option Quote → Bytes
  | none => []
  | some q => [q.byte]

/-- `Leaves o rest out` says that after the half pair `o`, whatever newlines were read since, the
reader leaves `out` of the rest, apart from the half that it holds. -/
def Leaves (o : Option Quote) (rest out : Bytes) : Prop :=
  ∀ body, plain (ofHalf o body) rest = held o ++ out

variable {o : Option Quote} {rest out : Bytes} {b : UInt8}

theorem leaves_nil : Leaves none [] [] := fun _ => rfl

/-- A quote is left with the other half of its pair, and any other byte at once. -/
theorem Leaves.cons (h : Leaves (half o b) rest out) (hb : ∀ q ∈ o, b = q.byte)
    (hline : ¬lineCommentStart <+: b :: rest) (hblock : ¬blockCommentStart <+: b :: rest) :
    Leaves o (b :: rest) (b :: out) := by
  intro body
  cases o with
  | some q =>
    -- the second half closes the literal
    obtain rfl := hb q rfl
    have hclose : plain (ofHalf (some q) body) (q.byte :: rest) =
        [q.byte, q.byte] ++ plain .code rest := by
      rw [ofHalf, plain, lexemes, if_pos (by simp)]
      rfl
    have hrest := h []
    rw [half_some, ofHalf, held, List.nil_append] at hrest
    rw [hclose, hrest]
    rfl
  | none =>
    by_cases hq : ∃ q : Quote, b = q.byte
    · obtain ⟨q, rfl⟩ := hq
      have hopen : plain .code (q.byte :: rest) = plain (.literal q [] false) rest :=
        plain_opening (m := .literal q) (by simp) rest
      have hrest := h []
      rw [half_quote, ofHalf, held] at hrest
      rw [ofHalf, hopen, hrest]
      rfl
    · have hopen : ∀ n : Mode, n ≠ .code → ¬n.opening <+: b :: rest := by
        intro n hn hp
        cases n with
        | code => exact hn rfl
        | literal q =>
          obtain ⟨rest', heq⟩ := hp
          exact hq ⟨q, (List.cons.inj heq).1.symm⟩
        | lineComment => exact hline hp
        | blockComment => exact hblock hp
      have hrest := h []
      rw [half_of_ne fun q hb => hq ⟨q, hb⟩, ofHalf, held, List.nil_append] at hrest
      rw [ofHalf, plain_code hopen, hrest]
      rfl

/-- A newline is left, unless it is between two quotes. -/
theorem Leaves.newline (h : Leaves o rest out) :
    Leaves o (Byte.newline :: rest) ((if o = none then [Byte.newline] else []) ++ out) := by
  intro body
  cases o with
  | some q =>
    have hbody : plain (ofHalf (some q) body) (Byte.newline :: rest) =
        plain (ofHalf (some q) (body ++ [Byte.newline])) rest := by
      cases q <;> rfl
    rw [hbody, h]
    rfl
  | none =>
    have hcode : plain .code (Byte.newline :: rest) = Byte.newline :: plain .code rest := by
      cases rest <;> rfl
    have hrest := h []
    rw [ofHalf, held, List.nil_append] at hrest
    rw [ofHalf, hcode, hrest]
    rfl

/-- Text with paired quotes and no comments is left as it is. -/
theorem Leaves.append {t u : Bytes} (h : Leaves (t.foldl half o) (Byte.newline :: rest) out)
    (hp : Paired o (t ++ u)) (hc : Uncommented t) :
    Leaves o (t ++ Byte.newline :: rest) (t ++ out) := by
  induction t generalizing o with
  | nil => exact h
  | cons b t ih =>
    have hafter := ih h hp.2 (hc.of_infix (List.suffix_cons b t).isInfix)
    have hno : ∀ c d : UInt8, d ≠ Byte.newline → ¬[c, d] <:+: b :: t →
        ¬[c, d] <+: b :: (t ++ Byte.newline :: rest) := by
      intro c d hd hinfix hp
      cases t with
      | nil =>
        obtain ⟨w, heq⟩ := hp
        exact hd (List.cons.inj (List.cons.inj heq).2).1
      | cons e t =>
        obtain ⟨w, heq⟩ := hp
        have hcb : c = b := (List.cons.inj heq).1
        have hde : d = e := (List.cons.inj (List.cons.inj heq).2).1
        rw [hcb, hde] at hinfix
        exact hinfix (List.prefix_append [b, e] t).isInfix
    exact hafter.cons hp.1 (hno _ _ (by decide) hc.1) (hno _ _ (by decide) hc.2)

end Forward

/-! ### Tokens of joined lines -/

namespace Language

variable {l : Language} {t rest : Bytes}

/-- `l.SplitsLines` says that newlines separate the tokens of `l`, and that no spacing delimiter
holds a quote. -/
structure SplitsLines (l : Language) : Prop extends l.Separates Byte.newline where
  quote_notMem : ∀ d, l.isSpace d → ∀ q : Quote, q.byte ∉ d

instance (l : Language) : Decidable l.SplitsLines :=
  decidable_of_iff (l.Separates Byte.newline ∧ ∀ d ∈ effective l.spaces,
      Quote.double.byte ∉ d ∧ Quote.single.byte ∉ d)
    ⟨fun h => ⟨h.1, fun d hd q =>
        match q with
        | .double => (h.2 d (List.contains_iff_mem.mp hd)).1
        | .single => (h.2 d (List.contains_iff_mem.mp hd)).2⟩,
      fun h => ⟨h.toSeparates, fun d hd =>
        ⟨h.quote_notMem d (List.contains_iff_mem.mpr hd) .double,
          h.quote_notMem d (List.contains_iff_mem.mpr hd) .single⟩⟩⟩

/-- `l.Leads t rest` says that `t` is the first token of `t ++ rest`, and that it stays so if `rest`
changes from a newline on. -/
structure Leads (l : Language) (t rest : Bytes) : Prop where
  ne_nil : t ≠ []
  scan : ∀ v, v = [] ∨ v.take 1 = rest.take 1 →
    (∀ e, Byte.newline ∉ e → e <+: v → e <+: rest) → l.scan (t ++ v) = t :: l.scan v

theorem leads_run (ht : l.IsRun t) (hne : t ≠ [])
    (hrest : rest = [] ∨ l.isDelimiter (rest.take 1)) : l.Leads t rest where
  ne_nil := hne
  scan := by
    intro v hhead _
    refine scan_run ht hne ?_
    rcases hhead with rfl | hhead
    · exact .inl rfl
    · rcases hrest with rfl | hrest
      · exact .inl (by simpa using hhead)
      · rw [hhead]
        exact .inr hrest

theorem leads_longest (hl : l.Separates Byte.newline) {d : Bytes}
    (hd : l.Longest d (d ++ rest)) (hspace : ¬l.isSpace d) : l.Leads d rest where
  ne_nil := hd.ne_nil
  scan := by
    intro v _ hv
    rw [scan_longest (hd.of_forall_prefix hl hv), if_neg hspace]
    rfl

theorem Leads.scan_self (h : l.Leads t rest) : l.scan (t ++ rest) = t :: l.scan rest :=
  h.scan rest (.inr rfl) fun _ _ he => he

theorem Leads.scan_nil (h : l.Leads t rest) : l.scan t = [t] := by
  have hscan := h.scan [] (.inl rfl) fun e _ he => by
    rw [List.prefix_nil.mp he]
    exact List.nil_prefix
  rwa [List.append_nil, Language.scan_nil] at hscan

/-- **Induction along the tokens of a text with paired quotes**: nothing is left, or a spacing
delimiter comes first, which no pair of quotes has around it, or a token does. -/
@[elab_as_elim]
theorem paired_induction (hl : l.SplitsLines) {P : Option Quote → Bytes → Prop}
    (nil : P none [])
    (space : ∀ d rest, l.scan (d ++ rest) = l.scan rest → P none rest → P none (d ++ rest))
    (token : ∀ o t rest, l.Leads t rest → Paired o (t ++ rest) → P (t.foldl half o) rest →
      P o (t ++ rest))
    {o : Option Quote} {text : Bytes} (h : Paired o text) : P o text := by
  induction text using l.scan_induction generalizing o with
  | nil =>
    obtain rfl : o = none := h
    exact nil
  | run t rest ht hne hrest ih => exact token o t rest (leads_run ht hne hrest) h (ih h.drop)
  | delimiter d rest hd ih =>
    by_cases hspace : l.isSpace d
    · have hquote := hl.quote_notMem d hspace
      have hnone : o = none := by
        obtain ⟨b, d, rfl⟩ := List.exists_cons_of_ne_nil hd.ne_nil
        cases o with
        | none => rfl
        | some q =>
          have hb : b = q.byte := h.1 q rfl
          exact absurd (hb ▸ List.mem_cons_self) (hquote q)
      subst hnone
      have hdrop := h.drop
      rw [foldl_half_of_notMem hquote] at hdrop
      refine space d rest ?_ (ih hdrop)
      rw [scan_longest hd, if_pos hspace]
      rfl
    · exact token o d rest (leads_longest hl.toSeparates hd hspace) h (ih h.drop)

end Language

/-- The lines of tokens, without the newlines that come between the two halves of a pair of quotes;
`o` is the half before the first token. -/
def joinPairs : Option Quote → List Bytes → Bytes
  | _, [] => []
  | o, t :: ts =>
    t ++ ((if t.foldl half o = none then [Byte.newline] else []) ++ joinPairs (t.foldl half o) ts)

namespace Language

variable {l : Language}

/-- **The lines of the tokens leave the tokens, with pairs of quotes joined.** -/
theorem leaves_lines (hl : l.SplitsLines) {o : Option Quote} {text : Bytes} (hp : Paired o text)
    (hc : Uncommented text) :
    Forward.Leaves o (Command.lines (l.scan text)) (joinPairs o (l.scan text)) := by
  revert hc
  refine paired_induction hl ?nil ?space ?token hp
  case nil =>
    intro _
    rw [scan_nil]
    exact Forward.leaves_nil
  case space =>
    intro d rest hscan ih hc
    rw [hscan]
    exact ih (hc.of_infix (List.suffix_append d rest).isInfix)
  case token =>
    intro o t rest hlead hpaired ih hc
    have hafter := ih (hc.of_infix (List.suffix_append t rest).isInfix)
    have hlines : Command.lines (t :: l.scan rest) =
        t ++ Byte.newline :: Command.lines (l.scan rest) := by
      simp [Command.lines, Bytes.line]
    rw [hlead.scan_self, hlines]
    exact hafter.newline.append hpaired (hc.of_infix (List.prefix_append t rest).isInfix)

/-- **Joined lines have the tokens that they were made of.**  After half a pair of quotes, there is
no newline before the next token, so that what follows is as it was in the text up to the newline
after it; that is what the longest match looks at. -/
theorem scan_joinPairs (hl : l.SplitsLines) {o : Option Quote} {text : Bytes}
    (hp : Paired o text) :
    l.scan (joinPairs o (l.scan text)) = l.scan text ∧
      (o ≠ none → (joinPairs o (l.scan text)).take 1 = text.take 1 ∧
        ∀ e, Byte.newline ∉ e → e <+: joinPairs o (l.scan text) → e <+: text) := by
  refine paired_induction hl ?nil ?space ?token hp
  case nil =>
    refine ⟨?_, fun h => absurd rfl h⟩
    rw [scan_nil, joinPairs, scan_nil]
  case space =>
    intro d rest hscan ih
    refine ⟨?_, fun h => absurd rfl h⟩
    rw [hscan]
    exact ih.1
  case token =>
    intro o t rest hlead hpaired ih
    obtain ⟨ihscan, ihopen⟩ := ih
    have hone : ∀ u, (t ++ u).take 1 = t.take 1 := by
      intro u
      exact List.take_append_of_le_length (List.length_pos_iff.mpr hlead.ne_nil)
    rw [hlead.scan_self, joinPairs]
    generalize t.foldl half o = o' at ihscan ihopen ⊢
    cases o' with
    | none =>
      rw [if_pos rfl, List.singleton_append]
      refine ⟨?_, fun _ => ⟨by rw [hone, hone], fun e hmem he => ?_⟩⟩
      · rw [scan_separator hl.toSeparates, hlead.scan_nil, ihscan]
        rfl
      · exact (prefix_of_notMem hmem he).trans (List.prefix_append t rest)
    | some q =>
      obtain ⟨htake, hstarts⟩ := ihopen (by simp)
      rw [if_neg (by simp), List.nil_append]
      refine ⟨?_, fun _ => ⟨by rw [hone, hone], fun e hmem he => ?_⟩⟩
      · rw [hlead.scan _ (.inr htake) hstarts, ihscan]
      · exact prefix_append_of_forall hstarts hmem he

end Language

/-! ### Sessions -/

namespace Session

/-- **Plain tokens are read back from their lines.**  The built-in languages qualify; and in each
language that does, the tokens of a text, printed one on each line, have the same tokens, whatever
was named before. -/
theorem tokenize_lines :
    (Language.java.SplitsLines ∧ Language.whitespace.SplitsLines) ∧
      ∀ s s' : Session, s'.language = s.language → s.separators.SplitsLines → ∀ text,
        (s'.tokenize (Command.lines (s.tokenize text).1)).1 = (s.tokenize text).1 := by
  refine ⟨by decide +kernel, ?_⟩
  intro s s' hs hl text
  have hseparators : s'.separators = s.separators := by
    rw [separators, hs, separators]
  have htokens : ∀ r : Registry, ∀ t,
      (r.tokenize s.separators t).1 = s.separators.scan (Forward.plain .code t) :=
    fun r t => congrArg s.separators.scan (r.render_strip t)
  have hpaired : Paired none (Forward.plain .code text) := Forward.paired_plain text
  have huncommented : Uncommented (Forward.plain .code text) := Forward.uncommented_plain text
  have hlines := Language.leaves_lines hl hpaired huncommented []
  rw [Forward.ofHalf, Forward.held, List.nil_append] at hlines
  rw [tokenize, tokenize, hseparators, htokens, htokens, hlines]
  exact (Language.scan_joinPairs hl hpaired).1

/-- The quotes that a literal leaves are two tokens of Java, on two lines that read as a literal. -/
theorem tokenize_lines_quotes :
    (Session.tokenize { language := some .java } (ascii "f(\"a\")")).1 =
        [ascii "f", ascii "(", ascii "\"", ascii "\"", ascii ")"] ∧
      (Session.tokenize { language := some .java } (ascii "f\n(\n\"\n\"\n)\n")).1 =
        [ascii "f", ascii "(", ascii "\"", ascii "\"", ascii ")"] := by
  have htokens : (Session.tokenize { language := some .java } (ascii "f(\"a\")")).1 =
      [ascii "f", ascii "(", ascii "\"", ascii "\"", ascii ")"] := by
    decide +kernel
  have hlines : Command.lines [ascii "f", ascii "(", ascii "\"", ascii "\"", ascii ")"] =
      ascii "f\n(\n\"\n\"\n)\n" := by
    decide +kernel
  have hback := tokenize_lines.2 { language := some .java } { language := some .java } rfl
    (by decide +kernel) (ascii "f(\"a\")")
  rw [htokens, hlines] at hback
  exact ⟨htokens, hback⟩

end Session

end Lexicon
