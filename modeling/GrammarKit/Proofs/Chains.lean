import GrammarKit.Proofs.LeftRecursion
import GrammarKit.Proofs.Obliviousness

/-!
# Chains of operands

A chain, `operand (operator operand)*`, is matched in two stages.  First the operands and the
operators are read one by one.  They are recorded in two lists, with nothing that says which operator
stands before which operand.  When the last of them is read, the lists are zipped and grouped to the
left.

Hence a piece too many would shift all pairs behind it.  Such a piece is recorded whenever an operator
is read and no operand follows.  But then the round of the repetition is put back as a whole, the
operator with it, and the next round, the one that would have been misled, is never made.  So the two
lists have their lengths from complete rounds only.

* `operatorAt?`: the operator at a place.
* `Grammar.Linked`: the complete rounds from one place to another, each an operator and an operand.
* `Grammar.Declines`: no further round from here.
* `Grammar.matchRule_chain`: a chain that matches, taken apart.
* `Grouped`: the calls by which a chain is grouped to the left.
* `chain_groups_left`: the two stages of a match.
-/

namespace GrammarKit

variable {T N W S : Type} [TokenStream S T]

/-! ## 1.  Rules in progress -/

section Progress

variable {g : Grammar T} {build : Builder T N W} {r : RuleId} {w w' : W} {s s' : S} {node : N}

/-- Where tokens have been read there are no more of them ahead than before. -/
theorem Spans.remaining_le [LawfulTokenStream S] {word : List T} (h : Spans s word s') :
    TokenStream.remaining s' ≤ TokenStream.remaining s := by
  induction word generalizing s with
  | nil =>
    cases h
    exact Nat.le_refl _
  | cons token word ih =>
    exact Nat.le_trans (ih h.2) (Nat.le_of_lt (remaining_advance_lt_of_peek h.1))

/-- There is but one way to read on from a place to another. -/
theorem Spans.unique [LawfulTokenStream S] {word word' : List T} (h : Spans s word s')
    (h' : Spans s word' s') : word = word' := by
  have hback : ∀ {s : S} {token : T} {word : List T}, ¬ Spans s (token :: word) s := by
    intro s token word hspans
    exact Nat.not_lt_of_le hspans.2.remaining_le (remaining_advance_lt_of_peek hspans.1)
  induction word generalizing s word' with
  | nil =>
    cases h
    cases word' with
    | nil => rfl
    | cons token word' => exact absurd h' hback
  | cons token word ih =>
    cases word' with
    | nil =>
      cases h'
      exact absurd h hback
    | cons token' word' =>
      obtain rfl := Option.some_inj.mp (h.1.symm.trans h'.1)
      rw [ih h.2 h'.2]

/-- Nothing is to be known of the nodes that are held. -/
def Custody.trivial (g : Grammar T) (build : Builder T N W) :
    Custody g build (fun _ : Reduction T Unit => ()) fun _ => True where
  holds _ _ := True
  drop _ _ := True.intro
  make _ _ _ _ _ := True.intro

/-- A rule that matches has read a word. -/
theorem Grammar.exists_spans_of_matched (h : g.matchRule build r w s = ⟨.matched node, w', s'⟩) :
    ∃ word, Spans s word s' := by
  have hreply : (Custody.trivial g build).Replied r [] s (g.matchRule build r w s) :=
    (Custody.trivial g build).matchRule_keeps r (fun _ _ _ => True.intro) True.intro
  rw [h] at hreply
  cases hreply with
  | matched hspans => exact ⟨_, hspans⟩
  | stopped hstopped => cases hstopped

/-- **Rules in progress are not noticed**, as long as there is no left recursion. -/
theorem Grammar.matchFresh_eq_matchRule [LawfulTokenStream S] {fresh : List RuleId}
    (hproper : (g.matchFresh build (TokenStream.remaining s) fresh r w s).outcome.Proper) :
    g.matchFresh build (TokenStream.remaining s) fresh r w s = g.matchRule build r w s := by
  -- The same tokens are read from a list, whose offsets grow, so that what returns there is known.
  obtain ⟨tokens, htokens⟩ := exists_ahead s
  have hsame : SameAhead s (TokenArray.ofList tokens) tokens :=
    ⟨htokens, (TokenArray.ofList tokens).ahead_ahead⟩
  have hgrow := (TokenArray.ofList tokens).offsetsGrow
  obtain ⟨houtcome, ⟨k, -, hk, hstream, hlisted⟩, hworld, -⟩ :=
    g.matchFresh_coupled (c := Coupling.same build) hsame fresh r (w := (w, w)) rfl
  obtain ⟨houtcome', ⟨k', -, hk', hstream', hlisted'⟩, hworld', -⟩ :=
    g.matchRule_coupled (Coupling.same build) hsame r (w := (w, w)) rfl
  have hreturns := (g.returnsWithin_matchFresh build _ fresh r w hgrow (houtcome.proper hproper)).1
  have heq := ((returns_iff hgrow).mp ⟨_, hreturns⟩).1
  rw [heq] at hlisted'
  obtain rfl := hsame.right.eq_of_iterate_eq hk hk' (hlisted.symm.trans hlisted')
  rw [heq, ← houtcome.eq] at houtcome'
  have hworlds := hworld.trans ((congrArg Reply.world heq).symm.trans hworld'.symm)
  rcases hfirst : g.matchFresh build (TokenStream.remaining s) fresh r w s with ⟨outcome, u, place⟩
  rcases hsecond : g.matchRule build r w s with ⟨outcome', u', place'⟩
  rw [hfirst] at houtcome' hstream hworlds
  rw [hsecond] at houtcome' hstream' hworlds
  dsimp only at houtcome' hstream hstream' hworlds
  rw [houtcome'.eq, hstream, hstream', hworlds]

end Progress

/-! ## 2.  One round -/

/-- The token here, if it is one of the operators. -/
def operatorAt? (operators : List (T → Bool)) (s : S) : Option T :=
  (TokenStream.peek s).filter fun token => operators.any fun accepts => accepts token

theorem operatorAt?_eq_some_iff {operators : List (T → Bool)} {s : S} {token : T} :
    operatorAt? operators s = some token ↔
      TokenStream.peek s = some token ∧ ∃ accepts ∈ operators, accepts token = true := by
  rw [operatorAt?, Option.filter_eq_some_iff, List.any_eq_true]

/-- An operator and the operand behind it. -/
def Expr.link (operators : List (T → Bool)) (operand : RuleId) : Expr T :=
  .seq [.choice (operators.map .term), .nonterm operand]

section Rounds

variable {d : Dispatch N W S} {operators : List (T → Bool)} {operand : RuleId}
  {a : Attempt T N W S} {token : T}

/-- A choice of terms takes the token here, if it is one of them. -/
theorem attemptFirst_terms (d : Dispatch N W S) (operators : List (T → Bool))
    (a : Attempt T N W S) :
    Expr.attemptFirst d (operators.map .term) a =
      match operatorAt? operators a.stream with
      | some token =>
        (.matched (), ⟨TokenStream.advance a.stream, a.pieces.addTerm token, a.world⟩)
      | none => (.noMatch .choice, a) := by
  obtain ⟨s, pieces, w⟩ := a
  induction operators with
  | nil =>
    have hnone : operatorAt? [] s = (none : Option T) := by
      rw [operatorAt?, Option.filter_eq_none_iff]
      exact fun _ _ => Bool.false_ne_true
    rw [List.map_nil, Expr.attemptFirst, hnone]
  | cons accepts operators ih =>
    simp only [List.map_cons, Expr.attemptFirst, Expr.attempt, Expr.attemptTerm]
    cases hpeek : TokenStream.peek s with
    | none =>
      have hnone : ∀ operators : List (T → Bool), operatorAt? operators s = none := fun _ => by
        rw [operatorAt?, hpeek, Option.filter_none]
      rw [hnone] at ih ⊢
      exact ih
    | some token =>
      cases haccepts : accepts token with
      | true =>
        have hsome : operatorAt? (accepts :: operators) s = some token :=
          operatorAt?_eq_some_iff.mpr ⟨hpeek, accepts, List.mem_cons_self, haccepts⟩
        simp only [hsome, if_pos haccepts]
      | false =>
        have hskip : operatorAt? (accepts :: operators) s = operatorAt? operators s := by
          simp only [operatorAt?, hpeek, Option.filter_some, List.any_cons, haccepts, Bool.false_or]
        simp only [hskip, haccepts, Bool.false_eq_true, if_false]
        exact ih

/-- No round where there is no operator. -/
theorem attempt_link_of_none (h : operatorAt? operators a.stream = none) :
    (Expr.link operators operand).attempt d a = (.noMatch .sequence, a) := by
  simp only [Expr.link, Expr.attempt, Expr.attemptAll, attemptFirst_terms, h, Attempt.orRestore,
    Attempt.restore, Production.rollback_checkpoint]

/-- Behind an operator a round goes on with the operand, and it is put back as a whole. -/
theorem attempt_link_of_some (h : operatorAt? operators a.stream = some token) :
    (Expr.link operators operand).attempt d a =
      Attempt.orRestore a.stream a.pieces.checkpoint .sequence
        (Expr.attemptNonterm d operand
          ⟨TokenStream.advance a.stream, a.pieces.addTerm token, a.world⟩) := by
  simp only [Expr.link, Expr.attempt, Expr.attemptAll, attemptFirst_terms, h]
  rcases Expr.attemptNonterm d operand
    ⟨TokenStream.advance a.stream, a.pieces.addTerm token, a.world⟩ with ⟨outcome, b⟩
  cases outcome <;> rfl

end Rounds

/-! ## 3.  All rounds -/

/-- The pieces of complete rounds. -/
def Pieces.ofLinks (links : List (T × N)) : Pieces T N :=
  ⟨links.map Prod.fst, links.map Prod.snd⟩

namespace Production

theorem addNonterm_addTerm (p : Production T N) (token : T) (node : N) :
    (p.addTerm token).addNonterm node = p.record (.ofLinks [(token, node)]) := by
  rw [addTerm_eq_record, addNonterm_eq_record, record_record]
  rfl

/-- A first operand and complete rounds are reduced by grouping the rounds. -/
theorem reduce_record_ofLinks (build : Builder T N W) (r : RuleId) (first : N)
    (links : List (T × N)) (w : W) :
    (((start r .chain).addNonterm first).record (.ofLinks links)).reduce build w =
      foldChain build r first links w := by
  have hzip : (links.map Prod.fst).zip (links.map Prod.snd) = links := by
    rw [List.zip_map', List.map_id']
  simp [record, addNonterm, start, reduce, Pieces.ofLinks, Shape.keepsTerms, Shape.keepsNonterms,
    hzip]

end Production

namespace Grammar

/-- **Complete rounds** from one world and place to another: each has read an operator and matched an
operand behind it.  The links are what the rounds have recorded, the word is what they have read. -/
inductive Linked (g : Grammar T) (build : Builder T N W) (operators : List (T → Bool))
    (operand : RuleId) : W → S → List (T × N) → List T → W → S → Prop where
  | nil (w : W) (s : S) : Linked g build operators operand w s [] [] w s
  | cons {w u w' : W} {s place s' : S} {token : T} {node : N} {links : List (T × N)}
      {word words : List T} (hoperator : operatorAt? operators s = some token)
      (hoperand : g.matchRule build operand w (TokenStream.advance s) = ⟨.matched node, u, place⟩)
      (hspans : Spans (TokenStream.advance s) word place)
      (hrest : Linked g build operators operand u place links words w' s') :
      Linked g build operators operand w s ((token, node) :: links) (token :: word ++ words) w' s'

/-- **No further round**: there is no operator here, or no operand is matched behind it.  Nodes may
have been made while the operand was looked for. -/
inductive Declines (g : Grammar T) (build : Builder T N W) (operators : List (T → Bool))
    (operand : RuleId) : W → S → W → Prop where
  | noOperator {w : W} {s : S} (hoperator : operatorAt? operators s = none) :
      Declines g build operators operand w s w
  | atEnd {w : W} {s : S} {token : T} (hoperator : operatorAt? operators s = some token)
      (hend : TokenStream.atEnd (TokenStream.advance s) = true) :
      Declines g build operators operand w s w
  | refused {w w' : W} {s : S} {token : T} {why : Mismatch}
      (hoperator : operatorAt? operators s = some token)
      (hoperand : g.matchRule build operand w (TokenStream.advance s) =
        ⟨.noMatch why, w', TokenStream.advance s⟩) :
      Declines g build operators operand w s w'

variable {g : Grammar T} {build : Builder T N W} {operators : List (T → Bool)} {operand : RuleId}
  {d : Dispatch N W S}

/-- The tokens of complete rounds are read one round after the other. -/
theorem Linked.spans {w w' : W} {s s' : S} {links : List (T × N)} {words : List T}
    (h : g.Linked build operators operand w s links words w' s') : Spans s words s' := by
  induction h with
  | nil w s => rfl
  | cons hoperator _ hspans _ ih =>
    exact ⟨(operatorAt?_eq_some_iff.mp hoperator).1, hspans.append ih⟩

/-- **An operator that is left over has no operand behind it**, whichever builder looks for one. -/
theorem Declines.isMatched_eq_false [LawfulTokenStream S] {w w' : W} {s : S}
    (h : g.Declines build operators operand w s w') {token : T}
    (hoperator : operatorAt? operators s = some token) {X V : Type} (build' : Builder T X V)
    (v : V) : (g.matchRule build' operand v (TokenStream.advance s)).outcome.isMatched = false := by
  cases h with
  | noOperator hnone =>
    rw [hnone] at hoperator
    cases hoperator
  | atEnd _ hend =>
    rw [matchRule, matchFresh, if_pos hend]
    rfl
  | refused _ hoperand =>
    obtain ⟨tokens, htokens⟩ := exists_ahead (TokenStream.advance s)
    have hboth := (g.matchRule_coupled (Coupling.any build build') ⟨htokens, htokens⟩ operand
      (w := (w, v)) True.intro).outcome
    rw [hoperand] at hboth
    cases houtcome : (g.matchRule build' operand v (TokenStream.advance s)).outcome with
    | matched value =>
      rw [houtcome] at hboth
      cases hboth
    | noMatch why => rfl
    | failed why => rfl

/-- **What one round comes to**: it is complete, or it is put back, or it fails. -/
inductive Round (g : Grammar T) (build : Builder T N W) (operators : List (T → Bool))
    (operand : RuleId) (a : Attempt T N W S) : Outcome Unit × Attempt T N W S → Prop where
  | complete {token : T} {node : N} {u : W} {place : S}
      (hoperator : operatorAt? operators a.stream = some token)
      (hoperand : g.matchRule build operand a.world (TokenStream.advance a.stream) =
        ⟨.matched node, u, place⟩) :
      Round g build operators operand a
        (.matched (), ⟨place, a.pieces.record (.ofLinks [(token, node)]), u⟩)
  | declined {u : W} (why : Mismatch)
      (h : g.Declines build operators operand a.world a.stream u) :
      Round g build operators operand a (.noMatch why, ⟨a.stream, a.pieces, u⟩)
  | failed (why : Failure) (b : Attempt T N W S) :
      Round g build operators operand a (.failed why, b)

/-- An operator without an operand is put back, and it is forgotten. -/
theorem attempt_link_round {a : Attempt T N W S}
    (hd : ∀ token, operatorAt? operators a.stream = some token →
      d operand a.world (TokenStream.advance a.stream) =
        g.matchRule build operand a.world (TokenStream.advance a.stream)) :
    g.Round build operators operand a ((Expr.link operators operand).attempt d a) := by
  obtain ⟨s, pieces, w⟩ := a
  cases hoperator : operatorAt? operators s with
  | none =>
    rw [attempt_link_of_none hoperator]
    exact .declined _ (.noOperator hoperator)
  | some token =>
    have hforget : (pieces.addTerm token).rollback pieces.checkpoint = pieces :=
      (Production.extends_addTerm pieces token).rollback_eq
    rw [attempt_link_of_some hoperator, Expr.attemptNonterm, hd token hoperator]
    split
    · next hend =>
      rw [Attempt.orRestore, Attempt.restore, hforget]
      exact .declined _ (.atEnd hoperator hend)
    · rcases hoperand : g.matchRule build operand w (TokenStream.advance s) with
        ⟨outcome, u, place⟩
      cases outcome with
      | matched node =>
        rw [Attempt.orRestore, Production.addNonterm_addTerm]
        exact .complete hoperator hoperand
      | noMatch why =>
        have hplace := g.matchRule_stays build operand w (TokenStream.advance s) why
          (by rw [hoperand])
        rw [hoperand] at hplace
        dsimp only at hplace
        rw [hplace] at hoperand
        rw [Attempt.orRestore, Attempt.restore, hforget]
        exact .declined _ (.refused hoperator hoperand)
      | failed why => exact .failed why _

/-- **The repetition makes complete rounds, and nothing else is recorded.** -/
theorem exists_linked [LawfulTokenStream S] {left : Nat}
    (hd : ∀ w s, TokenStream.remaining s < left →
      d operand w s = g.matchRule build operand w s) {a b : Attempt T N W S}
    (hleft : TokenStream.remaining a.stream ≤ left)
    (h : a.roundsWhileAny (fun a => (Expr.link operators operand).attempt d a) =
      (.matched (), b)) :
    ∃ links words u, g.Linked build operators operand a.world a.stream links words u b.stream ∧
      g.Declines build operators operand u b.stream b.world ∧
      b.pieces = a.pieces.record (.ofLinks links) := by
  induction hn : TokenStream.remaining a.stream using Nat.strongRecOn generalizing a with
  | _ n ih =>
    subst hn
    have hless : ∀ token, operatorAt? operators a.stream = some token →
        TokenStream.remaining (TokenStream.advance a.stream) <
          TokenStream.remaining a.stream := fun token hoperator =>
      remaining_advance_lt_of_peek (operatorAt?_eq_some_iff.mp hoperator).1
    have hround : g.Round build operators operand a ((Expr.link operators operand).attempt d a) :=
      attempt_link_round fun token hoperator =>
        hd a.world _ (Nat.lt_of_lt_of_le (hless token hoperator) hleft)
    rw [Attempt.roundsWhileAny] at h
    split at h
    · next hend =>
      obtain rfl := (Prod.mk.inj h).2
      have hnone : operatorAt? operators a.stream = none := by
        rw [operatorAt?, TokenStream.atEnd_iff.mp hend, Option.filter_none]
      exact ⟨[], [], a.world, .nil _ _, .noOperator hnone, (Production.record_nil _).symm⟩
    · generalize (Expr.link operators operand).attempt d a = step at h hround
      cases hround with
      | complete hoperator hoperand =>
        obtain ⟨word, hspans⟩ := exists_spans_of_matched hoperand
        have hmoved := Nat.lt_of_le_of_lt hspans.remaining_le (hless _ hoperator)
        dsimp only at h
        rw [if_pos hmoved] at h
        obtain ⟨links, words, u, hlinked, hdeclines, hpieces⟩ :=
          ih _ hmoved (Nat.le_trans (Nat.le_of_lt hmoved) hleft) h rfl
        refine ⟨_ :: links, _, u, .cons hoperator hoperand hspans hlinked, hdeclines, ?_⟩
        rw [hpieces, Production.record_record]
        rfl
      | declined why hdeclines =>
        obtain rfl := (Prod.mk.inj h).2
        exact ⟨[], [], a.world, .nil _ _, hdeclines, (Production.record_nil _).symm⟩
      | failed why c => cases h

/-- The course of a chain that matches: the first operand, the repetition, the node. -/
theorem attemptAlternatives_chain {r : RuleId} {w w' : W} {s s' : S} {node : N}
    (h : attemptAlternatives build d r [⟨.chain, .chain (operators.map .term) operand⟩] w s =
      ⟨.matched node, w', s'⟩) :
    ∃ (first : N) (u : W) (place : S) (b : Attempt T N W S),
      d operand w s = ⟨.matched first, u, place⟩ ∧
        Attempt.roundsWhileAny (fun a => (Expr.link operators operand).attempt d a)
          ⟨place, (Production.start r .chain).addNonterm first, u⟩ = (.matched (), b) ∧
        b.stream = s' ∧ b.pieces.reduce build b.world = (node, w') := by
  obtain ⟨b, hattempt, hnode, hstream⟩ := attemptAlternatives_singleton_eq_matched.mp h
  have hexpr : (Expr.chain (operators.map .term) operand : Expr T) =
      .seq [.nonterm operand, .rep 0 (.link operators operand)] := rfl
  rw [hexpr, Expr.attempt_seq_eq_matched, Expr.attemptAll_cons_eq_matched] at hattempt
  obtain ⟨c, hfirst, hrest⟩ := hattempt
  rw [Expr.attempt, Expr.attemptNonterm_eq_matched] at hfirst
  obtain ⟨-, first, u, place, hfirst, rfl⟩ := hfirst
  obtain ⟨_, hrep, hnil⟩ := Expr.attemptAll_cons_eq_matched.mp hrest
  obtain rfl := Expr.attemptAll_nil_eq_matched.mp hnil
  obtain ⟨_, hrounds, hmore⟩ := Expr.attempt_rep_eq_matched.mp hrep
  cases hrounds
  exact ⟨first, u, place, b, hfirst, hmore, hstream, hnode⟩

/-- **A chain that matches, taken apart**: a first operand, complete rounds, perhaps an operator that
is left over, and then the grouping. -/
theorem matchRule_chain [LawfulTokenStream S] {r : RuleId} {rule : Rule T}
    (hrule : g.rule? r = some rule)
    (hchain : rule.alternatives = [⟨.chain, .chain (operators.map .term) operand⟩]) {w w' : W}
    {s s' : S} {node : N} (h : g.matchRule build r w s = ⟨.matched node, w', s'⟩) :
    ∃ (first : N) (links : List (T × N)) (words : List T) (u₀ u₁ u₂ : W) (place : S),
      g.matchRule build operand w s = ⟨.matched first, u₀, place⟩ ∧
        g.Linked build operators operand u₀ place links words u₁ s' ∧
        g.Declines build operators operand u₁ s' u₂ ∧
        Production.foldChain build r first links u₂ = (node, w') := by
  obtain ⟨why, hfailed⟩ | ⟨rule', -, hrule', -, heq⟩ :=
    g.matchFresh_cases build (TokenStream.remaining s) g.ids r w s
  · rw [matchRule, hfailed] at h
    cases h
  · obtain rfl : rule = rule' := Option.some_inj.mp (hrule.symm.trans hrule')
    rw [matchRule, heq, hchain, id_of_rule? hrule] at h
    obtain ⟨first, u, place, b, hfirst, hrounds, rfl, hnode⟩ := attemptAlternatives_chain h
    -- The rule itself is in progress when the first operand is matched, and at no other time.
    have hoperand : g.matchRule build operand w s = ⟨.matched first, u, place⟩ := by
      rw [dispatchWithin, if_neg (Nat.lt_irrefl _)] at hfirst
      rw [← matchFresh_eq_matchRule (by rw [hfirst]; exact Outcome.proper_matched _), hfirst]
    obtain ⟨word, hspans⟩ := exists_spans_of_matched hoperand
    have hfurther : ∀ (v : W) (t : S), TokenStream.remaining t < TokenStream.remaining s →
        g.dispatchWithin build (TokenStream.remaining s) g.ids r operand v t =
          g.matchRule build operand v t := fun v t hless => if_pos hless
    obtain ⟨links, words, u', hlinked, hdeclines, hpieces⟩ :=
      exists_linked hfurther hspans.remaining_le hrounds
    rw [hpieces, Production.reduce_record_ofLinks] at hnode
    exact ⟨first, links, words, u, u', b.world, place, hoperand, hlinked, hdeclines, hnode⟩

end Grammar

/-! ## 4.  Grouping -/

/-- **The calls that group a chain to the left.**  Each is for the rule and takes what the call before
it has made, or the first operand, with the next operator and the operand behind it. -/
inductive Grouped (r : RuleId) : N → List (T × N) → List (Call T N) → N → Prop where
  | nil (node : N) : Grouped r node [] [] node
  | cons {left right node : N} {token : T} {links : List (T × N)} {call : Call T N}
      {calls : List (Call T N)} (hrequest : call.request = .nontermTermNonterm r left token right)
      (hrest : Grouped r call.node links calls node) :
      Grouped r left ((token, right) :: links) (call :: calls) node

/-- There is a call for each link. -/
theorem Grouped.length_eq {r : RuleId} {first node : N} {links : List (T × N)}
    {calls : List (Call T N)} (h : Grouped r first links calls node) :
    calls.length = links.length := by
  induction h with
  | nil => rfl
  | cons _ _ ih => rw [List.length_cons, List.length_cons, ih]

/-- The fold of a chain makes these calls and no others. -/
theorem exists_grouped (build : Builder T N W) (r : RuleId) :
    ∀ (links : List (T × N)) (first : N) (w : W) (before : List (Call T N)),
      ∃ calls, Grouped r first links calls
          (Production.foldChain build.recorded r first links (w, before)).1 ∧
        (Production.foldChain build.recorded r first links (w, before)).2.2 = before ++ calls
  | [], first, w, before => ⟨[], .nil first, (List.append_nil before).symm⟩
  | (token, right) :: links, first, w, before => by
    let request : Reduction T N := .nontermTermNonterm r first token right
    let call : Call T N := ⟨request, (build request w).1⟩
    obtain ⟨calls, hgrouped, hcalls⟩ :=
      exists_grouped build r links call.node (build request w).2 (before ++ [call])
    refine ⟨call :: calls, .cons rfl hgrouped, ?_⟩
    rw [← List.append_cons] at hcalls
    exact hcalls

/-- **Chains are grouped to the left.**  When a rule that is a chain matches, over any stream and with
any builder, then a first operand has matched, and behind it any number of complete rounds, each an
operator and an operand, and the tokens taken are those of the first operand and of the rounds, in
this order.  All calls for the operands, and those for an operand that was looked for in vain, come
first.  Then there is one call for each round, with the rule's own number: it takes the node of the
call before, which at the start is the first operand, with the operator and the operand of the round.
The node of the last call is the node of the chain; without rounds it is the first operand itself.
Where the chain ends no further round is possible: an operator that stands there, which is still
ahead, has no operand behind it. -/
theorem chain_groups_left [LawfulTokenStream S] {g : Grammar T} {build : Builder T N W} {r : RuleId}
    {rule : Rule T} {operators : List (T → Bool)} {operand : RuleId} (hrule : g.rule? r = some rule)
    (hchain : rule.alternatives = [⟨.chain, .chain (operators.map .term) operand⟩]) {w w' : W}
    {s s' : S} {node : N} (h : g.matchRule build r w s = ⟨.matched node, w', s'⟩) :
    ∃ (first : N) (links : List (T × N)) (word words : List T) (place : S)
      (u₀ u₁ u₂ : W × List (Call T N)) (calls : List (Call T N)),
      g.matchRule build.recorded operand (w, []) s = ⟨.matched first, u₀, place⟩ ∧
        Spans s word place ∧
        g.Linked build.recorded operators operand u₀ place links words u₁ s' ∧
        Spans s (word ++ words) s' ∧
        g.Declines build.recorded operators operand u₁ s' u₂ ∧
        Grouped r first links calls node ∧ calls.length = links.length ∧
        g.matchRule build.recorded r (w, []) s = ⟨.matched node, (w', u₂.2 ++ calls), s'⟩ ∧
        ∀ token, operatorAt? operators s' = some token →
          ∀ {X V : Type} (build' : Builder T X V) (v : V),
            (g.matchRule build' operand v (TokenStream.advance s')).outcome.isMatched = false := by
  have hrecorded := g.matchRule_recorded r s build w []
  rw [h] at hrecorded
  rcases hrun : g.matchRule build.recorded r (w, []) s with ⟨outcome, ⟨u, calls⟩, place⟩
  rw [hrun] at hrecorded
  obtain ⟨rfl, rfl, rfl⟩ := Reply.mk.inj hrecorded
  obtain ⟨first, links, words, u₀, u₁, u₂, place, hfirst, hlinked, hdeclines, hnode⟩ :=
    Grammar.matchRule_chain hrule hchain hrun
  obtain ⟨word, hspans⟩ := Grammar.exists_spans_of_matched hfirst
  obtain ⟨grouping, hgrouped, hcalls⟩ := exists_grouped build r links first u₂.1 u₂.2
  rw [Prod.eta, hnode] at hgrouped hcalls
  dsimp only at hgrouped hcalls
  refine ⟨first, links, word, words, place, u₀, u₁, u₂, grouping, hfirst, hspans, hlinked,
    hspans.append hlinked.spans, hdeclines, hgrouped, hgrouped.length_eq, ?_, ?_⟩
  · rw [hcalls]
  · exact fun token htoken X V build' v => hdeclines.isMatched_eq_false htoken build' v

/-- Numbers with zeros between them. -/
def differences : Grammar Nat where
  rules := #[
    ⟨⟨0⟩, "differences", [⟨.chain, .chain ([(· == 0)].map .term) ⟨1⟩⟩]⟩,
    ⟨⟨1⟩, "number", [⟨.term, .term (· != 0)⟩]⟩]
  faultless := by decide

/-- A zero stands for a minus. -/
def difference : Reduction Nat Int → Int
  | .term _ number => number
  | .nontermTermNonterm _ left _ right => left - right
  | _ => 0

/-- Nine minus four minus two, and one more minus, with no number behind it. -/
theorem chain_groups_left_one_more :
    let start := TokenArray.ofList [9, 0, 4, 0, 2, 0, 0]
    let place : TokenArray Nat := ⟨#[9, 0, 4, 0, 2, 0, 0], 5⟩
    let build := algebraBuilder difference
    differences.matchRule build ⟨0⟩ () start = ⟨.matched 3, (), place⟩ ∧
      (∃ (first : Int) (links : List (Nat × Int)) (calls : List (Call Nat Int)),
        Grouped ⟨0⟩ first links calls 3 ∧ calls.length = links.length) ∧
      operatorAt? [(· == 0)] place = some 0 ∧
      (differences.matchRule build ⟨1⟩ () place.advance).outcome.isMatched = false := by
  intro start place build
  have hmatch : differences.matchRule build ⟨0⟩ () start = ⟨.matched 3, (), place⟩ := by cbv
  have hrule : differences.rule? ⟨0⟩ = some differences.rules[0] := rfl
  have hchain : differences.rules[0].alternatives =
      [⟨.chain, .chain ([(· == 0)].map .term) ⟨1⟩⟩] := rfl
  have hoperator : operatorAt? [(· == 0)] place = some 0 := rfl
  obtain ⟨first, links, -, -, -, -, -, -, calls, -, -, -, -, -, hgrouped, hlength, -, hnone⟩ :=
    chain_groups_left hrule hchain hmatch
  exact ⟨hmatch, ⟨first, links, calls, hgrouped, hlength⟩, hoperator, hnone 0 hoperator build ()⟩

end GrammarKit
