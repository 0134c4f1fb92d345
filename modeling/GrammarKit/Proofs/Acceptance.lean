import GrammarKit.Proofs.Predictive
import GrammarKit.Proofs.Simulation

/-!
# What a parser answers

The answer of a parser to a text depends on the tokens of the text alone, and of these on nothing but
which of their prefixes are words of the grammar.  It is the first of these that applies: there are
no tokens; all of them are a word; some of them are, and the longest word ends before this token;
none are.

* `Grammar.Verdict`: the four answers, with what is known of the nodes and the world.
* `Grammar.parse_verdict`: a grammar that one token decides gives the right one.
* `Recognises`: the same said of the answer alone, one equivalence for each kind of answer.
-/

namespace GrammarKit

variable {K N W X Y T : Type}

/-- The answer that the prefixes of a list of tokens call for, if the words are those of `language`. -/
structure Recognises (language : List K → Prop) (tokens : List (Token K))
    (answer : Except ParseError Y) : Prop where
  ok_iff : (∃ y, answer = .ok y) ↔ language (tokens.map Token.kind)
  failed_iff : (∃ why, answer = .error (.failed why)) ↔ tokens = []
  tokensLeft_iff : ∀ offset, answer = .error (.tokensLeft offset) ↔
    ∃ word next post, tokens = word ++ next :: post ∧ word ≠ [] ∧ language (word.map Token.kind) ∧
      (∀ word', word' <+: tokens → language (word'.map Token.kind) →
        word'.length ≤ word.length) ∧ offset = next.offset
  noMatch_iff : answer = .error .noMatch ↔
    tokens ≠ [] ∧ ∀ word, word <+: tokens → ¬ language (word.map Token.kind)

/-- Nothing depends on what an accepted text is turned into. -/
theorem Recognises.map {language : List K → Prop} {tokens : List (Token K)}
    {answer : Except ParseError N} (h : Recognises language tokens answer) (f : N → Y) :
    Recognises language tokens (answer.map f) := by
  obtain ⟨hok, hfailed, htokensLeft, hnoMatch⟩ := h
  cases answer with
  | ok node => exact ⟨by simpa [Except.map] using hok, by simpa [Except.map] using hfailed,
      by simpa [Except.map] using htokensLeft, by simpa [Except.map] using hnoMatch⟩
  | error why => exact ⟨by simpa [Except.map] using hok, by simpa [Except.map] using hfailed,
      by simpa [Except.map] using htokensLeft, by simpa [Except.map] using hnoMatch⟩

/-- Where no two prefixes are words, the longest one is the one that there is. -/
theorem Recognises.tokensLeft_iff_of_unique {language : List K → Prop} {tokens : List (Token K)}
    {answer : Except ParseError Y} (h : Recognises language tokens answer) (hnil : ¬ language [])
    (hunique : ∀ word word', word <+: tokens → word' <+: tokens →
      language (word.map Token.kind) → language (word'.map Token.kind) → word = word')
    (offset : Nat) :
    answer = .error (.tokensLeft offset) ↔
      ∃ word next post, tokens = word ++ next :: post ∧ language (word.map Token.kind) ∧
        offset = next.offset := by
  refine (h.tokensLeft_iff offset).trans ?_
  constructor
  · rintro ⟨word, next, post, htokens, -, hword, -, hoffset⟩
    exact ⟨word, next, post, htokens, hword, hoffset⟩
  · rintro ⟨word, next, post, htokens, hword, hoffset⟩
    have hpre : word <+: tokens := ⟨next :: post, htokens.symm⟩
    refine ⟨word, next, post, htokens, ?_, hword, fun word' hpre' hword' => ?_, hoffset⟩
    · rintro rfl
      exact hnil hword
    · rw [hunique word' word hpre' hpre hword' hword]

/-- Nothing matches if neither all tokens nor some of them are a word. -/
theorem Recognises.noMatch_iff_proper {language : List K → Prop} {tokens : List (Token K)}
    {answer : Except ParseError Y} (h : Recognises language tokens answer) :
    answer = .error .noMatch ↔
      tokens ≠ [] ∧ ¬ language (tokens.map Token.kind) ∧
        ¬ ∃ word next post, tokens = word ++ next :: post ∧ language (word.map Token.kind) := by
  refine h.noMatch_iff.trans ?_
  constructor
  · rintro ⟨hne, hnone⟩
    refine ⟨hne, hnone tokens (List.prefix_refl tokens), ?_⟩
    rintro ⟨word, next, post, htokens, hword⟩
    exact hnone word ⟨next :: post, htokens.symm⟩ hword
  · rintro ⟨hne, hall, hproper⟩
    refine ⟨hne, ?_⟩
    rintro word ⟨rest, htokens⟩ hword
    cases rest with
    | nil =>
      rw [List.append_nil] at htokens
      subst htokens
      exact hall hword
    | cons next post => exact hproper ⟨word, next, post, htokens.symm, hword⟩

namespace Grammar

variable {build : Builder (Token K) N W} {algebra : Reduction (Token K) X → X}

/-- **What a parse comes to.**  The first rule of the grammar is the one that counts. -/
inductive Verdict (g : Grammar (Token K)) (m : Models build algebra) (tokens : List (Token K)) :
    Except ParseError N × W → Prop where
  | failed (why : Failure) {w : W} (hnil : tokens = []) (hgood : m.good w) :
      Verdict g m tokens (.error (.failed why), w)
  | ok {node : N} {w : W} {value : X}
      (hyields : g.Yields algebra (.nonterm .start) tokens (.ofValue value)) (hgood : m.good w)
      (hmeans : m.means w node value) : Verdict g m tokens (.ok node, w)
  | tokensLeft {word post : List (Token K)} {next : Token K} {w : W}
      (htokens : tokens = word ++ next :: post)
      (hderives : Expr.Derives g.productions (.nonterm .start) word)
      (hlongest : ∀ word', word' <+: tokens →
        Expr.Derives g.productions (.nonterm .start) word' → word'.length ≤ word.length)
      (hgood : m.good w) : Verdict g m tokens (.error (.tokensLeft next.offset), w)
  | noMatch {w : W} (hne : tokens ≠ [])
      (hnone : ∀ word, word <+: tokens → ¬ Expr.Derives g.productions (.nonterm .start) word)
      (hgood : m.good w) : Verdict g m tokens (.error .noMatch, w)

variable {g : Grammar (Token K)} {o : Outlook (Token K)}

/-- **A grammar that one token decides answers as it should**, whatever the builder does on the
way. -/
theorem parse_verdict (ho : o.Fits g.productions) (hempty : o.nullable .start = false)
    (hmode : (∀ ahead, o.follows .start ahead = true) ∨ ∀ r, o.nullable r = false)
    (m : Models build algebra) {w : W} (hgood : m.good w) (c : Cursor K) :
    g.Verdict m c.tokens (g.parse build w c) := by
  have hahead := c.ahead_tokens
  obtain ⟨houtcome, ⟨k, -, hk, hstream, hstream'⟩, hgood', -⟩ :=
    g.matchRule_alike m hahead .start hgood
  rw [parse]
  rcases hreply : g.matchRule build .start w c with ⟨outcome, w', c'⟩
  rw [hreply] at houtcome hstream hgood'
  dsimp only at houtcome hstream hgood'
  by_cases hnil : c.tokens = []
  · rw [hnil, matchList, matchRule, matchFresh, if_pos TokenStream.atEnd_nil] at houtcome
    cases houtcome
    exact .failed _ hnil hgood'
  · obtain ⟨word, rest, value, htokens, hyields, hlist, hlongest⟩ | ⟨⟨why, hlist⟩, hnone⟩ :=
      ho.matchList_longest g.start_mem_ids hempty hmode hnil
    · rw [hlist] at houtcome hstream'
      dsimp only at houtcome hstream'
      cases houtcome with
      | @matched node value hmeans =>
        have hrest : Ahead c' rest := by
          rw [hstream, hstream']
          exact hahead.iterate_advance hk
        dsimp only
        rw [hrest.atEnd]
        cases rest with
        | nil =>
          rw [List.append_nil] at htokens
          rw [htokens]
          exact .ok hyields hgood' hmeans
        | cons next post =>
          rw [TokenStream.atEnd_cons, if_neg Bool.false_ne_true, Cursor.offset_of_ahead hrest]
          exact .tokensLeft htokens hyields.derives hlongest hgood'
    · rw [hlist] at houtcome
      dsimp only at houtcome
      cases houtcome
      exact .noMatch hnil hnone hgood'

theorem Verdict.good {m : Models build algebra} {tokens : List (Token K)}
    {result : Except ParseError N × W} (h : g.Verdict m tokens result) : m.good result.2 := by
  cases h <;> assumption

/-- **A text that is a word is turned into what the word means.** -/
theorem Verdict.exists_node (ho : o.Fits g.productions) (hempty : o.nullable .start = false)
    (hend : o.follows .start none = true) {m : Models build algebra} {tokens : List (Token K)}
    {result : Except ParseError N × W} (h : g.Verdict m tokens result) {value : X}
    (hyields : g.Yields algebra (.nonterm .start) tokens (.ofValue value)) :
    ∃ node w, result = (.ok node, w) ∧ m.means w node value := by
  cases h with
  | failed why hnil _ =>
    rw [hnil] at hyields
    exact absurd hyields.derives (ho.not_derives_nil hempty)
  | @ok node w value' hyields' _ hmeans =>
    cases ho.value_unique g.start_mem_ids hempty hend hyields hyields'
    exact ⟨node, w, rfl, hmeans⟩
  | @tokensLeft word post next w htokens _ hlongest _ =>
    have hle := hlongest tokens (List.prefix_refl tokens) hyields.derives
    rw [htokens, List.length_append, List.length_cons] at hle
    omega
  | noMatch _ hnone _ => exact absurd hyields.derives (hnone tokens (List.prefix_refl tokens))

/-- A verdict says when each kind of answer is given. -/
theorem Verdict.recognises {m : Models build algebra} {tokens : List (Token K)}
    {result : Except ParseError N × W} (h : g.Verdict m tokens result) {language : List K → Prop}
    (hlanguage : ∀ word, Expr.Derives g.productions (.nonterm .start) word ↔
      language (word.map Token.kind))
    (hnil : ¬ Expr.Derives g.productions (.nonterm .start) []) :
    Recognises language tokens result.1 := by
  have hne : ∀ word : List (Token K), language (word.map Token.kind) → word ≠ [] := by
    rintro word hword rfl
    exact hnil ((hlanguage []).mpr hword)
  cases h with
  | failed why htokens _ =>
    subst htokens
    refine ⟨?_, ?_, fun offset => ?_, ?_⟩
    · exact ⟨fun ⟨y, h⟩ => (by cases h), fun hword => absurd rfl (hne [] hword)⟩
    · simp
    · simp
    · simp
  | @ok node w value hyields _ _ =>
    have hword := (hlanguage tokens).mp hyields.derives
    refine ⟨?_, ?_, fun offset => ?_, ?_⟩
    · simpa using hword
    · simpa using hne tokens hword
    · refine ⟨fun h => (by cases h), ?_⟩
      rintro ⟨word, next, post, rfl, -, -, hlongest, -⟩
      have hle := hlongest _ (List.prefix_refl _) hword
      rw [List.length_append, List.length_cons] at hle
      omega
    · refine ⟨fun h => (by cases h), ?_⟩
      rintro ⟨-, hnone⟩
      exact absurd hword (hnone tokens (List.prefix_refl tokens))
  | @tokensLeft word post next w htokens hderives hlongest _ =>
    have hword := (hlanguage word).mp hderives
    have hpre : word <+: tokens := ⟨next :: post, htokens.symm⟩
    refine ⟨?_, ?_, fun offset => ?_, ?_⟩
    · refine ⟨fun ⟨y, h⟩ => (by cases h), fun hall => ?_⟩
      have hle := hlongest tokens (List.prefix_refl tokens) ((hlanguage tokens).mpr hall)
      rw [htokens, List.length_append, List.length_cons] at hle
      omega
    · refine ⟨fun ⟨why, h⟩ => (by cases h), fun h => ?_⟩
      rw [htokens] at h
      exact absurd h (by simp)
    · constructor
      · intro h
        cases h
        exact ⟨word, next, post, htokens, hne word hword, hword,
          fun word' hpre' hword' => hlongest word' hpre' ((hlanguage word').mpr hword'), rfl⟩
      · rintro ⟨word', next', post', htokens', -, hword', hlongest', rfl⟩
        have hle := hlongest word' ⟨next' :: post', htokens'.symm⟩ ((hlanguage word').mpr hword')
        have hle' := hlongest' word hpre hword
        rw [htokens] at htokens'
        obtain ⟨-, heq⟩ := List.append_inj htokens' (by omega)
        rw [(List.cons.inj heq).1]
    · refine ⟨fun h => (by cases h), ?_⟩
      rintro ⟨-, hnone⟩
      exact absurd hword (hnone word hpre)
  | noMatch htokens hnone _ =>
    have hnone' : ∀ word, word <+: tokens → ¬ language (word.map Token.kind) :=
      fun word hpre hword => hnone word hpre ((hlanguage word).mpr hword)
    refine ⟨?_, ?_, fun offset => ?_, ?_⟩
    · refine ⟨fun ⟨y, h⟩ => (by cases h), fun hall => ?_⟩
      exact absurd hall (hnone' tokens (List.prefix_refl tokens))
    · exact ⟨fun ⟨why, h⟩ => (by cases h), fun h => absurd h htokens⟩
    · refine ⟨fun h => (by cases h), ?_⟩
      rintro ⟨word, next, post, rfl, -, hword, -⟩
      exact absurd hword (hnone' word (List.prefix_append word _))
    · exact ⟨fun _ => ⟨htokens, hnone'⟩, fun _ => rfl⟩

/-- The words of the grammar are told by the kinds of their tokens. -/
theorem parse_recognises {o : Outlook K} {productions : Productions K} (ho : o.Fits productions)
    (hproductions : g.productions = Expr.comapProductions Token.kind productions)
    (hempty : o.nullable .start = false)
    (hmode : (∀ ahead, o.follows .start ahead = true) ∨ ∀ r, o.nullable r = false)
    (m : Models build algebra) {w : W} (hgood : m.good w) (c : Cursor K) :
    Recognises (Expr.Derives productions (.nonterm .start)) c.tokens (g.parse build w c).1 := by
  have hfits : (o.comap Token.kind).Fits g.productions := hproductions ▸ ho.comap Token.kind
  have hmode' : (∀ ahead, (o.comap Token.kind).follows .start ahead = true) ∨
      ∀ r, (o.comap Token.kind).nullable r = false := by
    rcases hmode with hall | hnone
    · exact Or.inl fun ahead => hall (ahead.map Token.kind)
    · exact Or.inr hnone
  refine (parse_verdict hfits hempty hmode' m hgood c).recognises (fun word => ?_)
    (hfits.not_derives_nil hempty)
  rw [hproductions]
  exact Expr.derives_comap_iff (e := .nonterm .start)

end Grammar

/-- Any builder carries out the algebra that says nothing. -/
def Models.trivial (build : Builder T N W) : Models build fun _ => () where
  good _ := True
  grows _ _ := True
  means _ _ _ := True
  refl _ := True.intro
  trans _ _ := True.intro
  mono _ _ := True.intro
  sound _ _ := ⟨True.intro, True.intro, True.intro⟩

end GrammarKit
