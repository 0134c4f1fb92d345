import GrammarKit.Calc.Syntax
import GrammarKit.Proofs.LeftRecursion

/-!
# A text read on demand and a text read beforehand

A cursor reads the tokens of a text one by one when they are asked for, and reads them again each
time the parser comes back to them.  The same tokens may be listed first and then parsed from memory.
The two streams have little in common: one counts bytes and skips what lies between the tokens, the
other counts tokens.  Nothing of this is seen in a parse.  Step by step the two stand before the same
token, the builder is asked for the same nodes in the same order, and the answers differ in the
units of an offset only.

* `Builder.logged`, `Grammar.calls`: what a builder is asked for in the course of a match.
* `SamePlace`: a cursor and an array stand before the same token of a text.
* `SameAnswer`: the same answer, with an offset in the text and an offset in the list.
* `parse_lazily_or_listed`: the two parses agree, and so do the matches of a rule.
-/

namespace GrammarKit

variable {T K N W S : Type}

/-! ## 1.  What a builder is asked for -/

/-- A builder that keeps a list of what it was asked for. -/
def Builder.logged (build : Builder T N W) : Builder T N (W × List (Reduction T N)) :=
  fun reduction w =>
    ((build reduction w.1).1, ((build reduction w.1).2, w.2 ++ [reduction]))

/-- A builder that keeps a list goes on in step with the builder itself. -/
def Coupling.logged (build : Builder T N W) : Coupling build.logged build where
  good w := w.1.1 = w.2
  grows _ _ := True
  means _ := Eq
  refl _ := True.intro
  trans _ _ := True.intro
  mono _ h := h
  sound hgood h := by
    rw [← hgood, h.eq]
    exact ⟨rfl, True.intro, rfl⟩

/-- Nodes that are the same make outcomes that are the same. -/
theorem Outcome.Alike.eq {outcome outcome' : Outcome N} (h : outcome.Alike Eq outcome') :
    outcome = outcome' := by
  cases h with
  | matched h => rw [h]
  | noMatch why => rfl
  | failed why => rfl

namespace Grammar

variable [TokenStream S T] [LawfulTokenStream S]

/-- All that the builder is asked for while a rule is matched, in this order. -/
def calls (g : Grammar T) (build : Builder T N W) (r : RuleId) (world : W) (stream : S) :
    List (Reduction T N) :=
  (g.matchRule build.logged r (world, []) stream).world.2

/-- Keeping a list does not change a match. -/
theorem matchRule_logged (g : Grammar T) (build : Builder T N W) (r : RuleId) (world : W)
    (asked : List (Reduction T N)) (stream : S) :
    (g.matchRule build.logged r (world, asked) stream).outcome =
        (g.matchRule build r world stream).outcome ∧
      (g.matchRule build.logged r (world, asked) stream).world.1 =
        (g.matchRule build r world stream).world ∧
      (g.matchRule build.logged r (world, asked) stream).stream =
        (g.matchRule build r world stream).stream := by
  obtain ⟨tokens, htokens⟩ := exists_ahead stream
  have hboth := g.matchRule_coupled (Coupling.logged build) ⟨htokens, htokens⟩ r
    (w := ((world, asked), world)) rfl
  obtain ⟨houtcome, ⟨k, -, -, hstream, hstream'⟩, hgood, -⟩ := hboth
  exact ⟨houtcome.eq, hgood, hstream.trans hstream'.symm⟩

end Grammar

/-! ## 2.  Corresponding places -/

/-- **The cursor and the array stand before the same token of the text**, or both are past the last
one. -/
structure SamePlace (table : LexTable K) (text : String) (c : Cursor K) (s : TokenArray (Token K)) :
    Prop where
  tokens : s.tokens = (Cursor.start table text).tokens.toArray
  le : s.position ≤ s.tokens.size
  cursor : c = TokenStream.advance^[s.position] (Cursor.start table text)

namespace SamePlace

variable {table : LexTable K} {text : String} {c : Cursor K} {s : TokenArray (Token K)}

/-- The two streams start at corresponding places. -/
theorem start (table : LexTable K) (text : String) :
    SamePlace table text (Cursor.start table text)
      (TokenArray.ofList (Cursor.start table text).tokens) :=
  ⟨rfl, Nat.zero_le _, rfl⟩

/-- From corresponding places the same tokens are read. -/
theorem sameAhead (h : SamePlace table text c s) : SameAhead c s s.ahead := by
  refine ⟨?_, s.ahead_ahead⟩
  rw [h.cursor, TokenArray.ahead, h.tokens]
  refine (Cursor.ahead_tokens _).iterate_advance ?_
  simpa [h.tokens] using h.le

/-- Corresponding places move on to corresponding places. -/
theorem advance (h : SamePlace table text c s) :
    SamePlace table text (TokenStream.advance c) (TokenStream.advance s) := by
  by_cases hlt : s.position < s.tokens.size
  · have hadvance : TokenStream.advance s = { s with position := s.position + 1 } := if_pos hlt
    rw [hadvance]
    refine ⟨h.tokens, hlt, ?_⟩
    rw [Function.iterate_succ_apply', ← h.cursor]
  · have hpeek : TokenStream.peek s = none :=
      Array.getElem?_eq_none (Nat.le_of_not_lt hlt)
    have hpeek' : TokenStream.peek c = none := by
      rw [h.sameAhead.left.peek, ← h.sameAhead.right.peek, hpeek]
    rw [LawfulTokenStream.advance_of_peek_eq_none s hpeek,
      LawfulTokenStream.advance_of_peek_eq_none c hpeek']
    exact h

theorem iterate_advance (h : SamePlace table text c s) (k : Nat) :
    SamePlace table text (TokenStream.advance^[k] c) (TokenStream.advance^[k] s) := by
  induction k with
  | zero => exact h
  | succ k ih =>
    rw [Function.iterate_succ_apply', Function.iterate_succ_apply']
    exact ih.advance

theorem offsetsGrow (h : SamePlace table text c s) : OffsetsGrow c := by
  rw [h.cursor]
  exact (Cursor.offsetsGrow_start table text).iterate_advance _

/-- The array is at its end exactly if the cursor stands on the empty token of the end kind behind
the whole text, also if the table makes other tokens of this kind. -/
theorem atEnd_iff (h : SamePlace table text c s) :
    TokenStream.atEnd s = true ↔
      c.rest.offset = c.rest.stop ∧ c.token.kind = table.endOfText ∧ c.token.text = "" := by
  rw [← h.sameAhead.atEnd, h.cursor]
  obtain ⟨input, heq⟩ :=
    Cursor.exists_iterate_eq_atNext table (Input.ofString text) s.position
  rw [Cursor.start, heq]
  exact Cursor.isAtEnd_atNext_iff table input

/-- Where there are tokens ahead, the cursor is at the offset of the token with the number of the
array's place. -/
theorem exists_token (h : SamePlace table text c s) (hend : TokenStream.atEnd s = false) :
    ∃ token, (Cursor.start table text).tokens[TokenStream.offset s]? = some token ∧
      TokenStream.offset c = token.offset := by
  obtain ⟨token, hpeek⟩ := TokenStream.atEnd_eq_false_iff.mp hend
  have htokens : s.tokens[s.position]? = some token := hpeek
  have hhead : s.ahead.head? = some token := by rw [← h.sameAhead.right.peek, hpeek]
  obtain ⟨tokens, hahead⟩ := List.head?_eq_some_iff.mp hhead
  have hcursor : Ahead c (token :: tokens) := hahead ▸ h.sameAhead.left
  refine ⟨token, ?_, Cursor.offset_of_ahead hcursor⟩
  rw [h.tokens, List.getElem?_toArray] at htokens
  exact htokens

end SamePlace

/-! ## 3.  The two parses -/

/-- **The same answer.**  Of tokens that are left, one answer has the offset in the text, the other
the number in the list. -/
inductive SameAnswer (tokens : List (Token K)) :
    Except ParseError N → Except ParseError N → Prop where
  | node (node : N) : SameAnswer tokens (.ok node) (.ok node)
  | failed (why : Failure) : SameAnswer tokens (.error (.failed why)) (.error (.failed why))
  | noMatch : SameAnswer tokens (.error .noMatch) (.error .noMatch)
  | tokensLeft {i : Nat} {token : Token K} (htoken : tokens[i]? = some token) :
      SameAnswer tokens (.error (.tokensLeft token.offset)) (.error (.tokensLeft i))

/-- **The same reply** to a rule, and the streams are left at corresponding places. -/
structure SameReply (table : LexTable K) (text : String) (reply : Reply N W (Cursor K))
    (reply' : Reply N W (TokenArray (Token K))) : Prop where
  outcome : reply.outcome = reply'.outcome
  world : reply.world = reply'.world
  place : SamePlace table text reply.stream reply'.stream

namespace Grammar

variable {table : LexTable K} {text : String} (g : Grammar (Token K))
  (build : Builder (Token K) N W)

/-- A rule is matched alike from corresponding places. -/
theorem matchRule_samePlace {c : Cursor K} {s : TokenArray (Token K)}
    (h : SamePlace table text c s) (r : RuleId) (w : W) :
    SameReply table text (g.matchRule build r w c) (g.matchRule build r w s) := by
  have hboth := g.matchRule_coupled (Coupling.same build) h.sameAhead r (w := (w, w)) rfl
  obtain ⟨houtcome, ⟨k, -, -, hstream, hstream'⟩, hgood, -⟩ := hboth
  refine ⟨houtcome.eq, hgood, ?_⟩
  rw [hstream, hstream']
  exact h.iterate_advance k

/-- The plain recursion returns from both of two corresponding places, or from none. -/
theorem returns_samePlace_iff {c : Cursor K} {s : TokenArray (Token K)}
    (h : SamePlace table text c s) (r : RuleId) (w : W) :
    g.Returns build r w c (g.matchRule build r w c) ↔
      g.Returns build r w s (g.matchRule build r w s) := by
  rw [returns_iff h.offsetsGrow, returns_iff s.offsetsGrow,
    (g.matchRule_samePlace build h r w).outcome]
  exact and_congr (iff_of_true rfl rfl) Iff.rfl

theorem parse_samePlace {c : Cursor K} {s : TokenArray (Token K)} (h : SamePlace table text c s)
    (w : W) :
    SameAnswer (Cursor.start table text).tokens (g.parse build w c).1 (g.parse build w s).1 ∧
      (g.parse build w c).2 = (g.parse build w s).2 := by
  have hmatch := g.matchRule_samePlace build h RuleId.start w
  rcases hc : g.matchRule build RuleId.start w c with ⟨outcome, world, c'⟩
  rcases hs : g.matchRule build RuleId.start w s with ⟨outcome', world', s'⟩
  rw [hc, hs] at hmatch
  obtain ⟨houtcome, hworld, hplace⟩ := hmatch
  dsimp only at houtcome hworld hplace
  subst houtcome hworld
  rw [parse, parse, hc, hs]
  cases outcome with
  | matched node =>
    dsimp only
    rw [hplace.sameAhead.atEnd]
    split
    · exact ⟨.node node, rfl⟩
    · next hend =>
      obtain ⟨token, htoken, hoffset⟩ := hplace.exists_token (Bool.not_eq_true _ ▸ hend)
      rw [hoffset]
      exact ⟨.tokensLeft htoken, rfl⟩
  | noMatch why => exact ⟨.noMatch, rfl⟩
  | failed why => exact ⟨.failed why, rfl⟩

/-- **Reading on demand or beforehand makes no difference.**  For every table and text, every
grammar over the tokens and every builder, a parse of the text and a parse of its list of tokens have
the same answer, leave the same world, and have asked for the same nodes in the same order.  From any
corresponding places a rule is matched alike, up to corresponding places, and the recursion that keeps
no list of the rules in progress returns from both with these replies or from none.  The end of the
list is where the cursor has the empty token of the end kind behind the text. -/
theorem parse_lazily_or_listed (table : LexTable K) (text : String) (g : Grammar (Token K))
    (build : Builder (Token K) N W) (w : W) :
    (let lazily := Cursor.start table text
      let listed := TokenArray.ofList (Cursor.start table text).tokens
      SameAnswer (Cursor.start table text).tokens (g.parse build w lazily).1
          (g.parse build w listed).1 ∧
        (g.parse build w lazily).2 = (g.parse build w listed).2 ∧
        g.calls build RuleId.start w lazily = g.calls build RuleId.start w listed) ∧
      ∀ (c : Cursor K) (s : TokenArray (Token K)), SamePlace table text c s →
        (TokenStream.atEnd s = true ↔
          c.rest.offset = c.rest.stop ∧ c.token.kind = table.endOfText ∧ c.token.text = "") ∧
        ∀ r : RuleId,
          SameReply table text (g.matchRule build r w c) (g.matchRule build r w s) ∧
            g.calls build r w c = g.calls build r w s ∧
            (∀ reply, g.Returns build r w c reply → reply = g.matchRule build r w c ∧
              g.Returns build r w s (g.matchRule build r w s)) ∧
            ∀ reply, g.Returns build r w s reply → reply = g.matchRule build r w s ∧
              g.Returns build r w c (g.matchRule build r w c) := by
  have hcalls : ∀ {c : Cursor K} {s : TokenArray (Token K)}, SamePlace table text c s →
      ∀ r : RuleId, g.calls build r w c = g.calls build r w s := fun h r =>
    congrArg Prod.snd (g.matchRule_samePlace build.logged h r (w, [])).world
  constructor
  · obtain ⟨hanswer, hworld⟩ := g.parse_samePlace build (SamePlace.start table text) w
    exact ⟨hanswer, hworld, hcalls (SamePlace.start table text) RuleId.start⟩
  · intro c s h
    refine ⟨h.atEnd_iff, fun r =>
      ⟨g.matchRule_samePlace build h r w, hcalls h r, fun reply hreply => ?_, fun reply hreply => ?_⟩⟩
    · obtain ⟨rfl, -⟩ := (returns_iff h.offsetsGrow).mp hreply
      exact ⟨rfl, (g.returns_samePlace_iff build h r w).mp hreply⟩
    · obtain ⟨rfl, -⟩ := (returns_iff s.offsetsGrow).mp hreply
      exact ⟨rfl, (g.returns_samePlace_iff build h r w).mpr hreply⟩

/-- The signed number behind the first token of a text, with blanks and a line break around it. -/
theorem parse_lazily_or_listed_second_token :
    let text := "1 +\n2 3"
    let lazily := TokenStream.advance (Cursor.start Calc.table text)
    let listed := TokenStream.advance (TokenArray.ofList (Cursor.start Calc.table text).tokens)
    SamePlace Calc.table text lazily listed ∧
      (Calc.grammar.matchRule Calc.build Calc.factor .empty lazily).outcome =
        (Calc.grammar.matchRule Calc.build Calc.factor .empty listed).outcome := by
  intro text lazily listed
  have hplace : SamePlace Calc.table text lazily listed := (SamePlace.start _ _).advance
  exact ⟨hplace, (((parse_lazily_or_listed Calc.table text Calc.grammar Calc.build .empty).2 lazily
    listed hplace).2 Calc.factor).1.outcome⟩

end Grammar

end GrammarKit
