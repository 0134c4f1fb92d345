import GrammarKit.Grammar.Parse

/-!
# What a match that does not apply leaves behind

Only sequences and repetitions put anything back.  A choice and an option go on from wherever the
item that did not match has left them, and a term and a nonterminal do nothing at all.  So the
restoring of a whole expression is a property of all its parts together.

Two facts carry the induction.  Pieces are only ever added at the end, so forgetting what came after
a checkpoint brings back the pieces of that moment, however much was recorded and forgotten in
between.  And a step that does not match stands where it started.

* `Production.Extends`: one production holds the pieces of another, and perhaps more behind them.
* `Attempt.Backtracks`: a step adds pieces only, and takes everything back if it does not match.
* `Expr.attempt_backtracks`: matching an expression is such a step.
-/

namespace GrammarKit

variable {T N W S : Type}

namespace Production

/-- `q` is `p` with pieces added at the end. -/
structure Extends (q p : Production T N) : Prop where
  rule : q.rule = p.rule
  shape : q.shape = p.shape
  terms : p.terms.toList <+: q.terms.toList
  nonterms : p.nonterms.toList <+: q.nonterms.toList

theorem Extends.refl (p : Production T N) : p.Extends p :=
  ⟨rfl, rfl, List.prefix_refl _, List.prefix_refl _⟩

theorem Extends.trans {p q r : Production T N} (hrq : r.Extends q) (hqp : q.Extends p) :
    r.Extends p :=
  ⟨hrq.rule.trans hqp.rule, hrq.shape.trans hqp.shape, hqp.terms.trans hrq.terms,
    hqp.nonterms.trans hrq.nonterms⟩

theorem extends_addTerm (p : Production T N) (term : T) : (p.addTerm term).Extends p := by
  unfold addTerm
  split
  · exact ⟨rfl, rfl, by simp, List.prefix_refl _⟩
  · exact Extends.refl p

theorem extends_addNonterm (p : Production T N) (node : N) : (p.addNonterm node).Extends p := by
  unfold addNonterm
  split
  · exact ⟨rfl, rfl, List.prefix_refl _, by simp⟩
  · exact Extends.refl p

/-- An array is cut back to a list that it starts with. -/
theorem shrink_eq_of_prefix {α : Type} {xs ys : Array α} (h : xs.toList <+: ys.toList) :
    ys.shrink xs.size = xs := by
  apply Array.ext'
  rw [Array.toList_shrink, ← Array.length_toList]
  exact (List.prefix_iff_eq_take.mp h).symm

/-- **Pieces that were only added to are brought back by their checkpoint.** -/
theorem Extends.rollback_eq {p q : Production T N} (h : q.Extends p) :
    q.rollback p.checkpoint = p := by
  obtain ⟨rule, shape, terms, nonterms⟩ := p
  obtain ⟨hrule, hshape, hterms, hnonterms⟩ := h
  cases hrule
  cases hshape
  simp only [rollback, checkpoint, shrink_eq_of_prefix hterms, shrink_eq_of_prefix hnonterms]

end Production

namespace Attempt

/-- The result `r` of a step from `a` holds the pieces of `a`, and if the step does not match, it is
`a` again, but for the world. -/
structure Backtracks (a : Attempt T N W S) (r : Outcome Unit × Attempt T N W S) : Prop where
  adds : r.2.pieces.Extends a.pieces
  restores : ∀ why, r.1 = .noMatch why → r.2.stream = a.stream ∧ r.2.pieces = a.pieces

variable {a : Attempt T N W S}

theorem backtracks_self (outcome : Outcome Unit) : a.Backtracks (outcome, a) :=
  ⟨Production.Extends.refl _, fun _ _ => ⟨rfl, rfl⟩⟩

/-- A step that does not report a mismatch has to add pieces only. -/
theorem backtracks_of_extends {r : Outcome Unit × Attempt T N W S}
    (h : r.2.pieces.Extends a.pieces) (hmatch : r.1.isNoMatch = false) : a.Backtracks r := by
  refine ⟨h, fun why hwhy => ?_⟩
  rw [hwhy] at hmatch
  exact absurd hmatch (by simp [Outcome.isNoMatch])

/-- **Restoring makes good for parts that were not put back**, as long as they added pieces only. -/
theorem backtracks_orRestore {r : Outcome Unit × Attempt T N W S}
    (h : r.2.pieces.Extends a.pieces) (why : Mismatch) :
    a.Backtracks (orRestore a.stream a.pieces.checkpoint why r) := by
  obtain ⟨outcome, b⟩ := r
  cases outcome with
  | matched value => exact backtracks_of_extends h rfl
  | noMatch reason =>
    have hback : (b.restore a.stream a.pieces.checkpoint).pieces = a.pieces := h.rollback_eq
    refine ⟨?_, fun _ _ => ⟨rfl, hback⟩⟩
    show (b.restore a.stream a.pieces.checkpoint).pieces.Extends a.pieces
    rw [hback]
    exact Production.Extends.refl _
  | failed cause => exact backtracks_of_extends h rfl

variable {step : Attempt T N W S → Outcome Unit × Attempt T N W S}

theorem extends_rounds (h : ∀ a, Backtracks a (step a)) (n : Nat) (a : Attempt T N W S) :
    (rounds step n a).2.pieces.Extends a.pieces := by
  induction n generalizing a with
  | zero => exact Production.Extends.refl _
  | succ n ih =>
    have hadds := (h a).adds
    rw [rounds]
    rcases hstep : step a with ⟨outcome, b⟩
    rw [hstep] at hadds
    cases outcome with
    | matched value => exact (ih b).trans hadds
    | noMatch reason => exact hadds
    | failed cause => exact hadds

variable [TokenStream S T]

/-- The rounds of a repetition beyond the least number never fail to match. -/
theorem isNoMatch_roundsWhileAny (a : Attempt T N W S) :
    (a.roundsWhileAny step).1.isNoMatch = false := by
  fun_induction roundsWhileAny step a <;> first | assumption | rfl

theorem extends_roundsWhileAny (h : ∀ a, Backtracks a (step a)) (a : Attempt T N W S) :
    (a.roundsWhileAny step).2.pieces.Extends a.pieces := by
  have hadds : ∀ {a b : Attempt T N W S} {outcome : Outcome Unit}, step a = (outcome, b) →
      b.pieces.Extends a.pieces := by
    intro a b outcome hstep
    have := (h a).adds
    rwa [hstep] at this
  fun_induction roundsWhileAny step a with
  | case1 a hend => exact Production.Extends.refl _
  | case2 a hend value hstep hless ih => exact ih.trans (hadds hstep)
  | case3 a hend next hstep hless => exact hadds hstep
  | case4 a hend reason next hstep => exact hadds hstep
  | case5 a hend cause next hstep => exact hadds hstep

end Attempt

/-- A dispatcher that stays where it is when a rule does not match. -/
def Dispatch.StaysOnMismatch (dispatch : Dispatch N W S) : Prop :=
  ∀ rule world stream why, (dispatch rule world stream).outcome = .noMatch why →
    (dispatch rule world stream).stream = stream

namespace Expr

variable [TokenStream S T] {dispatch : Dispatch N W S}

theorem attemptTerm_backtracks (accepts : T → Bool) (a : Attempt T N W S) :
    a.Backtracks (attemptTerm accepts a) := by
  obtain ⟨stream, pieces, world⟩ := a
  simp only [attemptTerm]
  split
  · split
    · exact Attempt.backtracks_of_extends (Production.extends_addTerm _ _) rfl
    · exact Attempt.backtracks_self _
  · exact Attempt.backtracks_self _

theorem attemptNonterm_backtracks (h : dispatch.StaysOnMismatch) (rule : RuleId)
    (a : Attempt T N W S) : a.Backtracks (attemptNonterm dispatch rule a) := by
  obtain ⟨stream, pieces, world⟩ := a
  simp only [attemptNonterm]
  split
  · exact Attempt.backtracks_self _
  · have hstays := h rule world stream
    rcases hreply : dispatch rule world stream with ⟨outcome, world', stream'⟩
    rw [hreply] at hstays
    cases outcome with
    | matched node => exact Attempt.backtracks_of_extends (Production.extends_addNonterm _ _) rfl
    | noMatch why => exact ⟨Production.Extends.refl _, fun _ _ => ⟨hstays why rfl, rfl⟩⟩
    | failed cause => exact Attempt.backtracks_of_extends (Production.Extends.refl _) rfl

mutual

/-- **Matching an expression backtracks**, whatever the expression is nested in: of all its parts
only sequences and repetitions restore, and the others rely on that. -/
theorem attempt_backtracks (h : dispatch.StaysOnMismatch) :
    ∀ (e : Expr T) (a : Attempt T N W S), a.Backtracks (e.attempt dispatch a)
  | .empty, _ => by rw [attempt]; exact Attempt.backtracks_self _
  | .term accepts, a => by rw [attempt]; exact attemptTerm_backtracks accepts a
  | .nonterm rule, a => by rw [attempt]; exact attemptNonterm_backtracks h rule a
  | .seq items, a => by
    rw [attempt]
    exact Attempt.backtracks_orRestore (attemptAll_extends h items a) _
  | .choice items, a => by rw [attempt]; exact attemptFirst_backtracks h items a
  | .rep least body, a => by
    have hbody := attempt_backtracks h body
    have hleast := Attempt.backtracks_orRestore (Attempt.extends_rounds hbody least a) .tooFew
    rw [attempt]
    split
    · next b hrounds =>
      rw [hrounds] at hleast
      exact Attempt.backtracks_of_extends
        ((Attempt.extends_roundsWhileAny hbody b).trans hleast.adds)
        (Attempt.isNoMatch_roundsWhileAny b)
    · next why b hrounds =>
      rw [hrounds] at hleast
      exact hleast
    · next why b hrounds =>
      rw [hrounds] at hleast
      exact hleast
  | .opt body, a => by
    have hbody := attempt_backtracks h body a
    rw [attempt]
    split
    · next why b hattempt =>
      rw [hattempt] at hbody
      exact Attempt.backtracks_of_extends hbody.adds rfl
    · next b hattempt => rwa [hattempt] at hbody
    · next why b hattempt => rwa [hattempt] at hbody

/-- The items of a sequence, which are not put back one by one, add pieces only. -/
theorem attemptAll_extends (h : dispatch.StaysOnMismatch) :
    ∀ (items : List (Expr T)) (a : Attempt T N W S),
      (attemptAll dispatch items a).2.pieces.Extends a.pieces
  | [], _ => by rw [attemptAll]; exact Production.Extends.refl _
  | item :: items, a => by
    have hitem := (attempt_backtracks h item a).adds
    rw [attemptAll]
    split
    · next b hattempt =>
      rw [hattempt] at hitem
      exact (attemptAll_extends h items b).trans hitem
    · next why b hattempt => rwa [hattempt] at hitem
    · next why b hattempt => rwa [hattempt] at hitem

/-- The items of a choice are tried from one and the same place. -/
theorem attemptFirst_backtracks (h : dispatch.StaysOnMismatch) :
    ∀ (items : List (Expr T)) (a : Attempt T N W S),
      a.Backtracks (attemptFirst dispatch items a)
  | [], _ => by rw [attemptFirst]; exact Attempt.backtracks_self _
  | item :: items, a => by
    have hitem := attempt_backtracks h item a
    rw [attemptFirst]
    split
    · next why b hattempt =>
      rw [hattempt] at hitem
      obtain ⟨hstream, hpieces⟩ := hitem.restores why rfl
      have hitems := attemptFirst_backtracks h items b
      exact ⟨hitems.adds.trans hitem.adds, fun why hwhy =>
        ⟨(hitems.restores why hwhy).1.trans hstream, (hitems.restores why hwhy).2.trans hpieces⟩⟩
    · next b hattempt => rwa [hattempt] at hitem
    · next why b hattempt => rwa [hattempt] at hitem

end

/-! ## Matches taken apart -/

variable {a b : Attempt T N W S}

theorem attemptTerm_eq_matched {accepts : T → Bool} :
    attemptTerm accepts a = (.matched (), b) ↔
      ∃ token, TokenStream.peek a.stream = some token ∧ accepts token = true ∧
        b = ⟨TokenStream.advance a.stream, a.pieces.addTerm token, a.world⟩ := by
  obtain ⟨stream, pieces, world⟩ := a
  simp only [attemptTerm]
  cases TokenStream.peek stream with
  | none => simp
  | some token =>
    by_cases haccepts : accepts token = true
    · simp only [Option.some.injEq, exists_eq_left', haccepts, if_true, true_and, Prod.mk.injEq]
      exact eq_comm
    · simp [haccepts]

theorem attemptNonterm_eq_matched {rule : RuleId} :
    attemptNonterm dispatch rule a = (.matched (), b) ↔
      TokenStream.atEnd a.stream = false ∧
        ∃ node world stream, dispatch rule a.world a.stream = ⟨.matched node, world, stream⟩ ∧
          b = ⟨stream, a.pieces.addNonterm node, world⟩ := by
  obtain ⟨stream, pieces, world⟩ := a
  simp only [attemptNonterm]
  cases TokenStream.atEnd stream with
  | true => simp
  | false =>
    rcases dispatch rule world stream with ⟨outcome, world', stream'⟩
    cases outcome with
    | matched node =>
      refine ⟨fun h => ⟨rfl, node, world', stream', rfl, (Prod.mk.inj h).2.symm⟩, ?_⟩
      rintro ⟨-, _, _, _, hreply, rfl⟩
      cases hreply
      rfl
    | noMatch why => simp
    | failed why => simp

theorem attempt_seq_eq_matched {items : List (Expr T)} :
    (seq items).attempt dispatch a = (.matched (), b) ↔
      attemptAll dispatch items a = (.matched (), b) := by
  rw [attempt]
  rcases attemptAll dispatch items a with ⟨outcome, c⟩
  cases outcome <;> simp [Attempt.orRestore]

theorem attemptAll_cons_eq_matched {item : Expr T} {items : List (Expr T)} :
    attemptAll dispatch (item :: items) a = (.matched (), b) ↔
      ∃ c, item.attempt dispatch a = (.matched (), c) ∧
        attemptAll dispatch items c = (.matched (), b) := by
  rw [attemptAll]
  rcases item.attempt dispatch a with ⟨outcome, c⟩
  cases outcome <;> simp

theorem attemptAll_nil_eq_matched :
    attemptAll dispatch [] a = (.matched (), b) ↔ b = a := by
  rw [attemptAll, Prod.mk.injEq, eq_comm (a := a)]
  exact and_iff_right rfl

/-- A repetition matches if its least number of rounds does and the further rounds do. -/
theorem attempt_rep_eq_matched {least : Nat} {body : Expr T} :
    (Expr.rep least body).attempt dispatch a = (.matched (), b) ↔
      ∃ c, a.rounds (fun a => body.attempt dispatch a) least = (.matched (), c) ∧
        c.roundsWhileAny (fun a => body.attempt dispatch a) = (.matched (), b) := by
  rw [attempt]
  rcases a.rounds (fun a => body.attempt dispatch a) least with ⟨outcome, c⟩
  cases outcome <;> simp [Attempt.orRestore]

end Expr

/-! ## Grammars -/

variable [TokenStream S T]

/-- What a rule with one alternative has done when it matches. -/
theorem attemptAlternatives_singleton_eq_matched {build : Builder T N W} {dispatch : Dispatch N W S}
    {id : RuleId} {alternative : Alternative T} {world world' : W} {stream stream' : S} {node : N} :
    attemptAlternatives build dispatch id [alternative] world stream =
        ⟨.matched node, world', stream'⟩ ↔
      ∃ b, alternative.expr.attempt dispatch
          ⟨stream, Production.start id alternative.shape, world⟩ = (.matched (), b) ∧
        b.pieces.reduce build b.world = (node, world') ∧ b.stream = stream' := by
  rw [attemptAlternatives]
  rcases alternative.expr.attempt dispatch ⟨stream, Production.start id alternative.shape, world⟩ with
    ⟨outcome, b⟩
  cases outcome with
  | matched value => simp [Prod.ext_iff, and_assoc]
  | noMatch why => simp [attemptAlternatives]
  | failed why => simp

theorem attemptAlternatives_stays (build : Builder T N W) (dispatch : Dispatch N W S) (id : RuleId) :
    ∀ (alternatives : List (Alternative T)) (world : W) (stream : S) (why : Mismatch),
      (attemptAlternatives build dispatch id alternatives world stream).outcome = .noMatch why →
        (attemptAlternatives build dispatch id alternatives world stream).stream = stream
  | [], _, _, _, _ => rfl
  | alternative :: alternatives, world, stream, why, h => by
    rw [attemptAlternatives] at h ⊢
    split at h
    · cases h
    · exact attemptAlternatives_stays build dispatch id alternatives _ stream why h
    · cases h

namespace Grammar

/-- The dispatcher for the nonterminals of the rule `id`, which is matched with `left` tokens ahead. -/
def dispatchWithin (g : Grammar T) (build : Builder T N W) (left : Nat) (fresh : List RuleId)
    (id : RuleId) : Dispatch N W S := fun id' world stream =>
  if TokenStream.remaining stream < left then
    g.matchFresh build (TokenStream.remaining stream) g.ids id' world stream
  else g.matchFresh build left (fresh.erase id) id' world stream

theorem matchFresh_eq_dispatchWithin {g : Grammar T} {build : Builder T N W} {left : Nat}
    {fresh : List RuleId} {id : RuleId} {rule : Rule T} {world : W} {stream : S}
    (hend : TokenStream.atEnd stream = false) (hrule : g.rule? id = some rule) (hfresh : id ∈ fresh) :
    g.matchFresh build left fresh id world stream =
      attemptAlternatives build (g.dispatchWithin build left fresh id) rule.id rule.alternatives
        world stream := by
  rw [matchFresh, hrule]
  simp only [hend, Bool.false_eq_true, if_false, dif_pos hfresh]
  rfl

/-- Matches a rule, with `d` for the rules inside of it. -/
def matchOnce (g : Grammar T) (build : Builder T N W) (d : Dispatch N W S) : Dispatch N W S :=
  fun r world stream =>
    if TokenStream.atEnd stream then ⟨.failed (.unexpectedEnd r), world, stream⟩
    else
      match g.rule? r with
      | none => ⟨.failed (.undefinedRule r), world, stream⟩
      | some rule => attemptAlternatives build d rule.id rule.alternatives world stream

/-- Why a rule does not start that is in progress. -/
def blame (g : Grammar T) (r : RuleId) (atEnd : Bool) : Failure :=
  if atEnd then .unexpectedEnd r
  else if (g.rule? r).isNone then .undefinedRule r
  else .leftRecursion r

/-- A rule that may start is matched once. -/
theorem matchFresh_of_mem {g : Grammar T} {build : Builder T N W} {left : Nat}
    {fresh : List RuleId} {id : RuleId} {world : W} {stream : S} (hfresh : id ∈ fresh) :
    g.matchFresh build left fresh id world stream =
      g.matchOnce build (g.dispatchWithin build left fresh id) id world stream := by
  rw [matchFresh, matchOnce]
  cases g.rule? id with
  | none => rfl
  | some rule =>
    simp only [dif_pos hfresh]
    rfl

theorem matchFresh_of_not_mem {g : Grammar T} {build : Builder T N W} {left : Nat}
    {fresh : List RuleId} {id : RuleId} {world : W} {stream : S} (hfresh : id ∉ fresh) :
    g.matchFresh build left fresh id world stream =
      ⟨.failed (g.blame id (TokenStream.atEnd stream)), world, stream⟩ := by
  rw [matchFresh, blame]
  split
  · rfl
  · cases g.rule? id with
    | none => rfl
    | some rule => rfl

/-- A rule either fails where it stands or is matched through its alternatives. -/
theorem matchFresh_cases (g : Grammar T) (build : Builder T N W) (left : Nat) (fresh : List RuleId)
    (id : RuleId) (world : W) (stream : S) :
    (∃ why, g.matchFresh build left fresh id world stream = ⟨.failed why, world, stream⟩) ∨
      ∃ rule, TokenStream.atEnd stream = false ∧ g.rule? id = some rule ∧ id ∈ fresh ∧
        g.matchFresh build left fresh id world stream =
          attemptAlternatives build (g.dispatchWithin build left fresh id) rule.id
            rule.alternatives world stream := by
  by_cases hend : TokenStream.atEnd stream = true
  · refine Or.inl ⟨.unexpectedEnd id, ?_⟩
    rw [matchFresh, if_pos hend]
  · rw [Bool.not_eq_true] at hend
    cases hrule : g.rule? id with
    | none =>
      refine Or.inl ⟨.undefinedRule id, ?_⟩
      rw [matchFresh, hrule]
      simp [hend]
    | some rule =>
      by_cases hfresh : id ∈ fresh
      · exact Or.inr ⟨rule, hend, rfl, hfresh, matchFresh_eq_dispatchWithin hend hrule hfresh⟩
      · refine Or.inl ⟨.leftRecursion id, ?_⟩
        rw [matchFresh, hrule]
        simp [hend, hfresh]

/-- A rule that does not match stays where it is, whichever rules are in progress. -/
theorem matchFresh_stays (g : Grammar T) (build : Builder T N W) (left : Nat) (fresh : List RuleId) :
    Dispatch.StaysOnMismatch (S := S) (g.matchFresh build left fresh) := by
  intro id world stream why h
  obtain ⟨cause, hfailed⟩ | ⟨rule, -, -, -, heq⟩ :=
    g.matchFresh_cases build left fresh id world stream
  · rw [hfailed]
  · rw [heq] at h ⊢
    exact attemptAlternatives_stays build _ _ _ world stream why h

theorem dispatchWithin_stays (g : Grammar T) (build : Builder T N W) (left : Nat)
    (fresh : List RuleId) (id : RuleId) :
    (g.dispatchWithin build left fresh id : Dispatch N W S).StaysOnMismatch := by
  intro id' world stream why h
  rw [dispatchWithin] at h ⊢
  split
  · next hless =>
    rw [if_pos hless] at h
    exact g.matchFresh_stays build _ _ id' world stream why h
  · next hless =>
    rw [if_neg hless] at h
    exact g.matchFresh_stays build _ _ id' world stream why h

/-- A grammar gives the stream back when a rule does not match. -/
theorem matchRule_stays (g : Grammar T) (build : Builder T N W) :
    (g.matchRule build : Dispatch N W S).StaysOnMismatch := fun id world stream why =>
  g.matchFresh_stays build _ g.ids id world stream why

end Grammar

/-! ## Backtracking is pure -/

/-- **A match that does not apply leaves no trace, and no match removes a piece.**  This holds for
every expression and every dispatcher that stays where it is on a mismatch, and every grammar is such
a dispatcher. -/
theorem attempt_restores_or_extends :
    (∀ dispatch : Dispatch N W S, dispatch.StaysOnMismatch →
      ∀ (e : Expr T) (a : Attempt T N W S),
        (∀ why, (e.attempt dispatch a).1 = .noMatch why →
          (e.attempt dispatch a).2.stream = a.stream ∧
            (e.attempt dispatch a).2.pieces = a.pieces) ∧
        ((e.attempt dispatch a).1.isNoMatch = false →
          a.pieces.terms.toList <+: (e.attempt dispatch a).2.pieces.terms.toList ∧
            a.pieces.nonterms.toList <+: (e.attempt dispatch a).2.pieces.nonterms.toList)) ∧
      ∀ (g : Grammar T) (build : Builder T N W),
        (g.matchRule build : Dispatch N W S).StaysOnMismatch := by
  refine ⟨fun dispatch hstays e a => ?_, Grammar.matchRule_stays⟩
  have hback := Expr.attempt_backtracks hstays e a
  exact ⟨hback.restores, fun _ => ⟨hback.adds.terms, hback.adds.nonterms⟩⟩

/-- Rules that each take one even number. -/
def evenNumbers : Dispatch Nat Unit (TokenArray Nat) := fun _ world stream =>
  match stream.ahead with
  | [] => ⟨.noMatch .rule, world, stream⟩
  | number :: _ =>
    if number % 2 = 0 then ⟨.matched number, world, stream.advance⟩
    else ⟨.noMatch .rule, world, stream⟩

theorem evenNumbers_stays : evenNumbers.StaysOnMismatch := by
  intro rule world stream why h
  unfold evenNumbers at h ⊢
  split at h
  · rfl
  · split at h
    · cases h
    · next hodd => rw [if_neg hodd]

/-- The sequence gets as far as its third item, which half matches in both of its ways. -/
theorem attempt_restores_third_item :
    let pieces : Production Nat Nat := ⟨⟨0⟩, .termNontermList, #[7], #[8]⟩
    let start : Attempt Nat Nat Unit (TokenArray Nat) := ⟨.ofList [1, 4, 2, 5], pieces, ()⟩
    let twos : Expr Nat :=
      .choice [.seq [.nonterm ⟨0⟩, .term (· == 3)], .rep 2 (.term (· == 2))]
    let e : Expr Nat := .seq [.term (· == 1), .nonterm ⟨0⟩, twos]
    evenNumbers.StaysOnMismatch ∧ (e.attempt evenNumbers start).1 = .noMatch .sequence ∧
      (e.attempt evenNumbers start).2.pieces = pieces := by
  intro pieces start twos e
  have hmismatch : (e.attempt evenNumbers start).1 = .noMatch .sequence := by decide
  have hrestored := (attempt_restores_or_extends.1 evenNumbers evenNumbers_stays e start).1
  exact ⟨evenNumbers_stays, hmismatch, (hrestored .sequence hmismatch).2⟩

end GrammarKit
