import GrammarKit.Proofs.Termination

/-!
# Where a failure comes from

A failure ends the parse, whatever ways are left to try.  There are two causes that a grammar can
give: a rule starts at the end of the tokens, or there is no such rule.  Neither of them comes up
inside of a match.  A nonterminal at the end of the tokens is refused before the rule is asked, and
what a rule of a grammar refers to is a rule of the grammar, at any depth of its expressions.  So the
tokens may run out in the middle of a rule, and that is a mismatch, which is tried another way.  A
failure comes from the place where the parse is entered, or not at all.

Nothing is asked of the stream here, nor of the builder.  This is about everything that returns.

* `Grammar.Unfailing`: what is known of all replies inside of a match.
* `failed_only_at_entry`: a rule fails if and only if it is entered at the end of the tokens.
-/

namespace GrammarKit

variable {T N W S : Type} [TokenStream S T]

theorem Failure.message_unexpectedEnd (r : RuleId) :
    (unexpectedEnd r).message = "unexpected end of input in Rule#" ++ toString r.index := by
  have hwords : "unexpected end of input in " ++ "Rule#" = "unexpected end of input in Rule#" := by
    simp only [String.reduceAppend]
  show "unexpected end of input in " ++ ("Rule#" ++ toString r.index) = _
  rw [← String.append_assoc, hwords]

namespace Grammar

/-- A rule of the grammar was asked for where there are tokens ahead, and it did not fail. -/
def Unfailing (g : Grammar T) : Replies N W S := fun r _ stream reply =>
  r ∈ g.ids ∧ TokenStream.atEnd stream = false ∧ reply.outcome.isFailed = false

variable {g : Grammar T} {build : Builder T N W} {inner : Replies N W S} {depth : Nat}
  {r : RuleId} {world : W} {stream : S} {reply : Reply N W S}

/-- At the end of the tokens there is but one reply. -/
theorem ReturnsWithin.at_end (hend : TokenStream.atEnd stream = true)
    (h : g.ReturnsWithin build inner depth r world stream reply) :
    reply = ⟨.failed (.unexpectedEnd r), world, stream⟩ := by
  cases depth with
  | zero => exact h.elim
  | succ depth =>
    cases h with
    | atEnd => rfl
    | undefined hnot =>
      rw [hend] at hnot
      cases hnot
    | rule hnot =>
      rw [hend] at hnot
      cases hnot

/-- **With tokens ahead a rule of the grammar does not fail.** -/
theorem ReturnsWithin.not_failed (hr : r ∈ g.ids) (hend : TokenStream.atEnd stream = false)
    (h : g.ReturnsWithin build inner depth r world stream reply) :
    reply.outcome.isFailed = false := by
  induction depth generalizing r world stream reply with
  | zero => exact h.elim
  | succ depth ih =>
    cases h with
    | atEnd hnot =>
      rw [hend] at hnot
      cases hnot
    | undefined _ hrule =>
      obtain ⟨rule, hsome⟩ := exists_rule?_of_mem_ids hr
      rw [hrule] at hsome
      cases hsome
    | @rule _ rule _ _ _ _ hrule h =>
      -- A failure would be that of a rule inside, which is one of the grammar as well.
      have hinside : ∀ why, reply.outcome ≠ .failed why := fun why hwhy =>
        h.failsOnly (P := fun _ => False)
          (fun alternative hmem r' hr' world' stream' why' _ _ hend' h' => by
            have hid := mem_ids_of_references (mem_rules_of_rule? hrule) hmem hr'
            exact Bool.noConfusion (ih hid hend' h'.1))
          hwhy
      cases houtcome : reply.outcome with
      | matched node => rfl
      | noMatch why => rfl
      | failed why => exact absurd houtcome (hinside why)

/-- **No reply inside of a match is a failure.** -/
theorem ReturnsWithin.unfailing (h : g.ReturnsWithin build inner depth r world stream reply) :
    g.ReturnsWithin build g.Unfailing depth r world stream reply := by
  induction depth generalizing r world stream reply with
  | zero => exact h
  | succ depth ih =>
    exact RuleReturns.mono
      (fun r hr _ _ _ hend h => ⟨ih h.1, hr, hend, h.1.not_failed hr hend⟩) h

theorem Returns.isFailed_iff (hr : r ∈ g.ids) (h : g.Returns build r world stream reply) :
    reply.outcome.isFailed = true ↔ TokenStream.atEnd stream = true := by
  obtain ⟨depth, h⟩ := h
  cases hend : TokenStream.atEnd stream with
  | true => exact iff_of_true (by rw [h.at_end hend]; rfl) rfl
  | false => exact iff_of_false (by simp [h.not_failed hr hend]) Bool.false_ne_true

/-- What a parse makes of a reply fails if the reply does. -/
theorem verdict_failed_iff (reply : Reply N W S) :
    (∃ why, (verdict reply).1 = .error (.failed why)) ↔ reply.outcome.isFailed = true := by
  obtain ⟨outcome, world, stream⟩ := reply
  cases outcome with
  | matched node =>
    rw [verdict]
    split <;> simp [Outcome.isFailed]
  | noMatch why => simp [verdict, Outcome.isFailed]
  | failed why => simp [verdict, Outcome.isFailed]

end Grammar

/-- **A failure comes from the entry.**  Whatever the grammar, the builder and the stream, if a rule
of the grammar returns, then it fails exactly if it was entered at the end of the tokens; then it says
so, and neither the stream nor the builder was touched.  No rule that is asked for inside fails.  So a
parse fails exactly if there are no tokens, and otherwise the text does not match or there are tokens
left.  On a stream whose offset grows, what returns is what the parser gives. -/
theorem failed_only_at_entry (g : Grammar T) (build : Builder T N W) (world : W) (stream : S) :
    (∀ r ∈ g.ids, ∀ reply, g.Returns build r world stream reply →
        (reply.outcome.isFailed = true ↔ TokenStream.atEnd stream = true) ∧
          (TokenStream.atEnd stream = true →
            reply = ⟨.failed (.unexpectedEnd r), world, stream⟩ ∧
              reply.outcome.message? =
                some ("unexpected end of input in Rule#" ++ toString r.index)) ∧
          g.ReturnsThrough build g.Unfailing r world stream reply ∧
          ∀ [LawfulTokenStream S], OffsetsGrow stream →
            g.matchRule build r world stream = reply) ∧
      ∀ answer, g.ParseReturns build world stream answer →
        ((∃ why, answer.1 = .error (.failed why)) ↔ TokenStream.atEnd stream = true) ∧
          (∀ why, answer.1 = .error why → TokenStream.atEnd stream = false →
            why = .noMatch ∨ ∃ offset, why = .tokensLeft offset) ∧
          ∀ [LawfulTokenStream S], OffsetsGrow stream → g.parse build world stream = answer := by
  refine ⟨fun r hr reply h => ⟨h.isFailed_iff hr, fun hend => ?_, ?_, ?_⟩, fun answer h => ?_⟩
  · obtain ⟨depth, h⟩ := h
    rw [h.at_end hend]
    exact ⟨rfl, congrArg some (Failure.message_unexpectedEnd r)⟩
  · exact h.imp fun _ h => h.unfailing
  · exact fun hgrow => ((Grammar.returns_iff hgrow).mp h).1
  · obtain ⟨reply, hreply, rfl⟩ := h
    have hfailed := (Grammar.verdict_failed_iff reply).trans
      (hreply.isFailed_iff g.start_mem_ids)
    refine ⟨hfailed, fun why hwhy hend => ?_, fun hgrow => ?_⟩
    · cases why with
      | failed why =>
        rw [hfailed.mp ⟨why, hwhy⟩] at hend
        cases hend
      | noMatch => exact Or.inl rfl
      | tokensLeft offset => exact Or.inr ⟨offset, rfl⟩
    · exact ((Grammar.parseReturns_iff hgrow).mp ⟨reply, hreply, rfl⟩).1

/-- Behind `(1` the tokens run out in the middle of a factor, which is a mismatch. -/
theorem failed_only_at_entry_unclosed :
    let unclosed := TokenArray.ofList
      [(⟨.lParens, "(", 0⟩ : Token Calc.Kind), ⟨.integer, "1", 1⟩]
    let reply := Calc.grammar.matchRule Calc.build Calc.expr .empty unclosed
    Calc.expr ∈ Calc.grammar.ids ∧
      Calc.grammar.Returns Calc.build Calc.expr .empty unclosed reply ∧
      reply.outcome = .noMatch .rule ∧
      Calc.grammar.ReturnsThrough Calc.build Calc.grammar.Unfailing Calc.expr .empty unclosed
        reply := by
  intro unclosed reply
  have hid : Calc.expr ∈ Calc.grammar.ids := by decide
  have hreturns : Calc.grammar.Returns Calc.build Calc.expr .empty unclosed reply :=
    Calc.ranked_grammar.returns _ hid _ (TokenArray.offsetsGrow _)
  have houtcome : (Calc.grammar.matchRule Calc.build Calc.expr .empty (TokenArray.ofList
      [(⟨.lParens, "(", 0⟩ : Token Calc.Kind), ⟨.integer, "1", 1⟩])).outcome =
        .noMatch .rule := by cbv
  exact ⟨hid, hreturns, houtcome,
    ((failed_only_at_entry _ _ _ _).1 _ hid reply hreturns).2.2.1⟩

end GrammarKit
