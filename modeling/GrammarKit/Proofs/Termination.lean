import GrammarKit.Proofs.Calc.Grammar
import GrammarKit.Proofs.LeftRecursion
import GrammarKit.Proofs.Nullability
import GrammarKit.Proofs.Pascal.Grammar

/-!
# Grammars with a rank return

If the rules of a grammar have ranks, such that a rule leads only to rules of lower rank before a
token is taken, then every match comes to an end: the tokens ahead, the rank of the rule, and the size
of the expression bound what is still to be done.  A repetition does not have to be bounded by its
body.  The least number of rounds is a number, and beyond it a round that takes nothing is the last.

So repetitions may have any bodies, also such that match without taking a token, nested to any depth.
The calculator and the Pascal subset have ranks.

* `Grammar.Ranked.proper`: no left recursion is reported.
* `ranked_returns`: all rules and the parse return, with the replies of the parser.
-/

namespace GrammarKit

variable {T N W S : Type}

namespace Grammar

variable [TokenStream S T] [LawfulTokenStream S] {g : Grammar T} {nullable : RuleId → Bool}
  {rank : RuleId → Nat} {r : RuleId}

/-- What a rule does on tokens is no left recursion, and streams and builders do not matter. -/
theorem Ranked.proper (hg : g.Ranked nullable rank) (build : Builder T N W) (hr : r ∈ g.ids)
    (world : W) (stream : S) : (g.matchRule build r world stream).outcome.Proper := by
  obtain ⟨tokens, htokens⟩ := exists_ahead stream
  have hboth := g.matchRule_coupled (Coupling.any (algebraBuilder fun _ => ()) build)
    ⟨ahead_list tokens, htokens⟩ r (w := ((), world)) trivial
  have hlist : (g.matchList (fun _ => ()) r () tokens).outcome.Proper := by
    cases tokens with
    | nil =>
      rw [matchList, matchRule, matchFresh, if_pos TokenStream.atEnd_nil]
      intro _ h
      cases h
    | cons token tokens =>
      have hanswers : g.Answers (fun _ => ()) r (token :: tokens)
          (g.matchList (fun _ => ()) r () (token :: tokens)) :=
        hg.run_answers (List.cons_ne_nil token tokens) hr
      obtain ⟨_, _, _, -, -, hreply⟩ | ⟨_, hreply⟩ := hanswers
      · rw [hreply]
        exact Outcome.proper_matched _
      · rw [hreply]
        exact Outcome.proper_noMatch _
  exact hboth.outcome.proper hlist

/-- A rule returns the reply of the parser. -/
theorem Ranked.returns (hg : g.Ranked nullable rank) (build : Builder T N W) (hr : r ∈ g.ids)
    (world : W) {stream : S} (hgrow : OffsetsGrow stream) :
    g.Returns build r world stream (g.matchRule build r world stream) :=
  (returns_iff hgrow).mpr ⟨rfl, hg.proper build hr world stream⟩

/-- A parse returns the answer of the parser. -/
theorem Ranked.parseReturns (hg : g.Ranked nullable rank) (build : Builder T N W) (world : W)
    {stream : S} (hgrow : OffsetsGrow stream) :
    g.ParseReturns build world stream (g.parse build world stream) :=
  ⟨_, hg.returns build g.start_mem_ids world hgrow, rfl⟩

end Grammar

/-- **Grammars with a rank return.**  If a rule leads only to rules of lower rank before a token is
taken, then every rule and the parse return on every stream, and what they return is what the parser
gives.  The calculator and the Pascal subset have such ranks, so their parses return on every
text. -/
theorem ranked_returns :
    (∀ {T N W S : Type} [TokenStream S T] [LawfulTokenStream S] (g : Grammar T)
        (build : Builder T N W) (rank : RuleId → Nat), g.Ranked g.nullable rank →
      ∀ (world : W) (stream : S), OffsetsGrow stream →
        (∀ r ∈ g.ids, g.Returns build r world stream (g.matchRule build r world stream)) ∧
          g.ParseReturns build world stream (g.parse build world stream)) ∧
      ((∃ rank, Calc.grammar.Ranked Calc.grammar.nullable rank) ∧
        ∀ source, Calc.grammar.ParseReturns Calc.build .empty (Cursor.start Calc.table source)
          (Calc.grammar.parse Calc.build .empty (Cursor.start Calc.table source))) ∧
      (∃ rank, Pascal.grammar.Ranked Pascal.grammar.nullable rank) ∧
        ∀ source, Pascal.grammar.ParseReturns Pascal.builder (.ok .empty)
          (Cursor.start Pascal.table source)
          (Pascal.grammar.parse Pascal.builder (.ok .empty) (Cursor.start Pascal.table source)) := by
  refine ⟨?_, ⟨⟨_, Calc.ranked_grammar.least⟩, fun source => ?_⟩,
    ⟨_, Pascal.ranked_grammar.least⟩, fun source => ?_⟩
  · intro T N W S _ _ g build rank hg world stream hgrow
    exact ⟨fun r hr => hg.returns build hr world hgrow, hg.parseReturns build world hgrow⟩
  · exact Calc.ranked_grammar.parseReturns _ _ (Cursor.offsetsGrow_start _ source)
  · exact Pascal.ranked_grammar.parseReturns _ _ (Cursor.offsetsGrow_start _ source)

/-- Rounds that take nothing: three times an optional one, and then as often as there is one, and a
repetition of a repetition. -/
def idleRounds : Grammar Nat where
  rules :=
    #[ { id := ⟨0⟩, name := "rounds",
         alternatives :=
          [ ⟨.nontermList,
              .seq [.rep 3 (.opt (.nonterm ⟨1⟩)), .zeroOrMore (.zeroOrMore (.term (· == 2)))]⟩ ] },
       { id := ⟨1⟩, name := "one", alternatives := [⟨.term, .term (· == 1)⟩] } ]
  faultless := rfl

theorem idleRounds_ranked :
    idleRounds.Ranked (fun r => r == ⟨0⟩) (fun r => 1 - r.index) := by
  constructor <;> decide

/-- One round takes a token, the others are idle, and all tokens are taken in the end. -/
theorem ranked_returns_idleRounds :
    let build : Builder Nat Unit Unit := fun _ world => ((), world)
    idleRounds.Returns build ⟨0⟩ () (TokenArray.ofList [1, 2, 2])
      ⟨.matched (), (), ⟨#[1, 2, 2], 3⟩⟩ := by
  intro build
  have hmatch : idleRounds.matchRule build ⟨0⟩ () (TokenArray.ofList [1, 2, 2]) =
      ⟨.matched (), (), ⟨#[1, 2, 2], 3⟩⟩ := by cbv
  rw [← hmatch]
  exact (ranked_returns.1 idleRounds build _ idleRounds_ranked.least ()
    (TokenArray.ofList [1, 2, 2]) (TokenArray.offsetsGrow _)).1 ⟨0⟩ (by decide)

end GrammarKit
