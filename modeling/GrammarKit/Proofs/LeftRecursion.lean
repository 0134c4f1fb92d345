import GrammarKit.Proofs.Coupling
import GrammarKit.Proofs.Returning

/-!
# Left recursion is what does not return

The parser keeps the list of the rules in progress at the present place, and reports a rule that
starts there once more.  The plain recursion keeps no such list, and would go on for ever.  So the
reports have to be right in both ways: where there is none, the plain recursion returns, with the same
reply; where there is one, it does not return.

The first part is a bound on the depth: tokens ahead, and for each number of them all the rules.  For
the second part suppose that a rule returns at a place.  Take the least depth at which it does, from
whatever world.  Inside it does not start again at that place: that would have returned at a smaller
depth.  What is in the world does not matter here, since it is not looked at.

Two things are asked of the stream.  It gets shorter when it moves, and its offset grows.  Then a
change of the offset, which is all that the repetitions of the plain recursion look at, is a move.

* `Onward`: a place that is reached from another.
* `Expr.returns_sound`, `Expr.returns_complete`: the plain match of an expression and that of the
  parser, with replies that go together.
* `Grammar.returns_iff`: a rule returns exactly the replies of the parser that do not report a left
  recursion.
-/

namespace GrammarKit

variable {T N W S : Type} [TokenStream S T]

/-! ## 1.  Places on the way -/

/-- The second place is reached by moving on from the first. -/
def Onward (s s' : S) : Prop := ∃ k, s' = TokenStream.advance^[k] s

theorem Onward.refl (s : S) : Onward s s := ⟨0, rfl⟩

theorem Onward.trans {s s' s'' : S} (h : Onward s s') (h' : Onward s' s'') : Onward s s'' := by
  obtain ⟨k, rfl⟩ := h
  obtain ⟨j, rfl⟩ := h'
  exact ⟨j + k, (Function.iterate_add_apply _ j k s).symm⟩

theorem Onward.advance (s : S) : Onward s (TokenStream.advance s) := ⟨1, rfl⟩

theorem OffsetsGrow.onward {s s' : S} (hgrow : OffsetsGrow s) (h : Onward s s') :
    OffsetsGrow s' := by
  obtain ⟨k, rfl⟩ := h
  exact hgrow.iterate_advance k

/-- A place on the way is the same place, or there are fewer tokens ahead and the offset is
larger. -/
theorem Onward.eq_or_moved [LawfulTokenStream S] {s s' : S} (h : Onward s s')
    (hgrow : OffsetsGrow s) :
    s' = s ∨ TokenStream.remaining s' < TokenStream.remaining s ∧
      TokenStream.offset s < TokenStream.offset s' := by
  obtain ⟨k, rfl⟩ := h
  induction k with
  | zero => exact Or.inl rfl
  | succ k ih =>
    have hoffset := hgrow k
    rw [Function.iterate_succ_apply'] at hoffset ⊢
    by_cases hpeek : TokenStream.peek (TokenStream.advance^[k] s) = none
    · rw [LawfulTokenStream.advance_of_peek_eq_none _ hpeek]
      exact ih
    · have hless := LawfulTokenStream.remaining_advance_lt _ hpeek
      have hlarger := hoffset hpeek
      rcases ih with hsame | ⟨hless', hlarger'⟩
      · rw [hsame] at hless hlarger ⊢
        exact Or.inr ⟨hless, hlarger⟩
      · exact Or.inr ⟨Nat.lt_trans hless hless', Nat.lt_trans hlarger' hlarger⟩

/-- **A change of the offset is a move.** -/
theorem Onward.remaining_lt_iff [LawfulTokenStream S] {s s' : S} (h : Onward s s')
    (hgrow : OffsetsGrow s) :
    TokenStream.remaining s' < TokenStream.remaining s ↔
      TokenStream.offset s' ≠ TokenStream.offset s := by
  rcases h.eq_or_moved hgrow with rfl | ⟨hless, hlarger⟩
  · simp
  · exact ⟨fun _ => Nat.ne_of_gt hlarger, fun _ => hless⟩

/-- The outcome does not report a left recursion. -/
def Outcome.Proper {α : Type} (outcome : Outcome α) : Prop :=
  ∀ r, outcome ≠ .failed (.leftRecursion r)

theorem Outcome.proper_matched {α : Type} (value : α) : (Outcome.matched value).Proper :=
  fun _ h => nomatch h

theorem Outcome.proper_noMatch {α : Type} (why : Mismatch) :
    (Outcome.noMatch why : Outcome α).Proper :=
  fun _ h => nomatch h

/-! ## 2.  Ends and steps -/

namespace Attempt

/-- `next` goes on where `first` has matched. -/
def andThen (first next : Attempt T N W S → Outcome Unit × Attempt T N W S) (a : Attempt T N W S) :
    Outcome Unit × Attempt T N W S :=
  match first a with
  | (.matched (), b) => next b
  | (.noMatch why, b) => (.noMatch why, b)
  | (.failed why, b) => (.failed why, b)

/-- `next` goes on where `first` has not matched. -/
def orElse (first next : Attempt T N W S → Outcome Unit × Attempt T N W S) (a : Attempt T N W S) :
    Outcome Unit × Attempt T N W S :=
  match first a with
  | (.noMatch _, b) => next b
  | (.matched (), b) => (.matched (), b)
  | (.failed why, b) => (.failed why, b)

end Attempt

namespace Ends

variable {origin : S} {ends first next step : Ends T N W S}
  {f f' : Attempt T N W S → Outcome Unit × Attempt T N W S}

/-- Each end is the one that the function gives, at a place further on. -/
def Sound (origin : S) (ends : Ends T N W S)
    (f : Attempt T N W S → Outcome Unit × Attempt T N W S) : Prop :=
  ∀ a r, Onward origin a.stream → ends a r → f a = r ∧ Onward a.stream r.2.stream

/-- What the function gives is an end at a place further on, unless it reports a left recursion. -/
def Complete (origin : S) (ends : Ends T N W S)
    (f : Attempt T N W S → Outcome Unit × Attempt T N W S) : Prop :=
  ∀ a, Onward origin a.stream → (f a).1.Proper → ends a (f a) ∧ Onward a.stream (f a).2.stream

theorem sound_done : Sound origin (Done : Ends T N W S) fun a => (.matched (), a) := by
  rintro a _ - rfl
  exact ⟨rfl, Onward.refl _⟩

theorem complete_done : Complete origin (Done : Ends T N W S) fun a => (.matched (), a) :=
  fun a _ _ => ⟨rfl, Onward.refl a.stream⟩

theorem Sound.andThen (hfirst : first.Sound origin f) (hnext : next.Sound origin f') :
    (AndThen first next).Sound origin (Attempt.andThen f f') := by
  intro a r ha h
  cases h with
  | matched h hthen =>
    obtain ⟨heq, hb⟩ := hfirst _ _ ha h
    obtain ⟨heq', hr⟩ := hnext _ _ (ha.trans hb) hthen
    exact ⟨by rw [Attempt.andThen, heq]; exact heq', hb.trans hr⟩
  | noMatch h =>
    obtain ⟨heq, hb⟩ := hfirst _ _ ha h
    exact ⟨by rw [Attempt.andThen, heq], hb⟩
  | failed h =>
    obtain ⟨heq, hb⟩ := hfirst _ _ ha h
    exact ⟨by rw [Attempt.andThen, heq], hb⟩

theorem Complete.andThen (hfirst : first.Complete origin f) (hnext : next.Complete origin f') :
    (AndThen first next).Complete origin (Attempt.andThen f f') := by
  intro a ha hproper
  have hends := hfirst a ha
  rcases heq : f a with ⟨outcome, b⟩
  rw [heq] at hends
  rw [Attempt.andThen, heq] at hproper ⊢
  cases outcome with
  | matched value =>
    obtain ⟨h, hb⟩ := hends (Outcome.proper_matched _)
    obtain ⟨h', hr⟩ := hnext b (ha.trans hb) hproper
    exact ⟨.matched h h', hb.trans hr⟩
  | noMatch why =>
    obtain ⟨h, hb⟩ := hends hproper
    exact ⟨.noMatch h, hb⟩
  | failed why =>
    obtain ⟨h, hb⟩ := hends hproper
    exact ⟨.failed h, hb⟩

theorem Sound.orElse (hfirst : first.Sound origin f) (hnext : next.Sound origin f') :
    (OrElse first next).Sound origin (Attempt.orElse f f') := by
  intro a r ha h
  cases h with
  | noMatch h helse =>
    obtain ⟨heq, hb⟩ := hfirst _ _ ha h
    obtain ⟨heq', hr⟩ := hnext _ _ (ha.trans hb) helse
    exact ⟨by rw [Attempt.orElse, heq]; exact heq', hb.trans hr⟩
  | matched h =>
    obtain ⟨heq, hb⟩ := hfirst _ _ ha h
    exact ⟨by rw [Attempt.orElse, heq], hb⟩
  | failed h =>
    obtain ⟨heq, hb⟩ := hfirst _ _ ha h
    exact ⟨by rw [Attempt.orElse, heq], hb⟩

theorem Complete.orElse (hfirst : first.Complete origin f) (hnext : next.Complete origin f') :
    (OrElse first next).Complete origin (Attempt.orElse f f') := by
  intro a ha hproper
  have hends := hfirst a ha
  rcases heq : f a with ⟨outcome, b⟩
  rw [heq] at hends
  rw [Attempt.orElse, heq] at hproper ⊢
  cases outcome with
  | noMatch why =>
    obtain ⟨h, hb⟩ := hends (Outcome.proper_noMatch _)
    obtain ⟨h', hr⟩ := hnext b (ha.trans hb) hproper
    exact ⟨.noMatch h h', hb.trans hr⟩
  | matched value =>
    obtain ⟨h, hb⟩ := hends hproper
    exact ⟨.matched h, hb⟩
  | failed why =>
    obtain ⟨h, hb⟩ := hends hproper
    exact ⟨.failed h, hb⟩

theorem Sound.restored (hfirst : first.Sound origin f) (why : Mismatch) :
    (Restored why first).Sound origin
      fun a => Attempt.orRestore a.stream a.pieces.checkpoint why (f a) := by
  intro a r ha h
  cases h with
  | @intro a r h =>
    obtain ⟨heq, hr⟩ := hfirst _ _ ha h
    refine ⟨congrArg _ heq, ?_⟩
    obtain ⟨outcome, b⟩ := r
    cases outcome with
    | matched value => exact hr
    | noMatch reason => exact Onward.refl _
    | failed cause => exact hr

theorem Complete.restored (hfirst : first.Complete origin f) (why : Mismatch) :
    (Restored why first).Complete origin
      fun a => Attempt.orRestore a.stream a.pieces.checkpoint why (f a) := by
  intro a ha hproper
  have hends := hfirst a ha
  rcases heq : f a with ⟨outcome, b⟩
  rw [heq] at hends
  simp only [heq] at hproper ⊢
  cases outcome with
  | matched value =>
    obtain ⟨h, hb⟩ := hends hproper
    exact ⟨.intro h, hb⟩
  | noMatch reason =>
    obtain ⟨h, hb⟩ := hends (Outcome.proper_noMatch _)
    exact ⟨.intro h, Onward.refl _⟩
  | failed cause =>
    obtain ⟨h, hb⟩ := hends hproper
    exact ⟨.intro h, hb⟩

theorem Sound.rounds (hstep : step.Sound origin f) :
    ∀ n, (Rounds step n).Sound origin (Attempt.rounds f n)
  | 0 => sound_done
  | n + 1 => hstep.andThen (Sound.rounds hstep n)

theorem Complete.rounds (hstep : step.Complete origin f) :
    ∀ n, (Rounds step n).Complete origin (Attempt.rounds f n)
  | 0 => complete_done
  | n + 1 => hstep.andThen (Complete.rounds hstep n)

variable [LawfulTokenStream S]

theorem Sound.whileAny (hgrow : OffsetsGrow origin) (hstep : step.Sound origin f) :
    (WhileAny step).Sound origin (Attempt.roundsWhileAny f) := by
  intro a r ha h
  induction h with
  | atEnd hend =>
    rw [Attempt.roundsWhileAny, if_pos hend]
    exact ⟨rfl, Onward.refl _⟩
  | same hend h hoffset =>
    obtain ⟨heq, hb⟩ := hstep _ _ ha h
    have hstill := mt (hb.remaining_lt_iff (hgrow.onward ha)).mp (not_not.mpr hoffset)
    rw [Attempt.roundsWhileAny, heq]
    simp only [hend, Bool.false_eq_true, if_false, if_neg hstill]
    exact ⟨trivial, hb⟩
  | moved hend h hoffset _ ih =>
    obtain ⟨heq, hb⟩ := hstep _ _ ha h
    have hless := (hb.remaining_lt_iff (hgrow.onward ha)).mpr hoffset
    obtain ⟨heq', hr⟩ := ih (ha.trans hb)
    rw [Attempt.roundsWhileAny, heq]
    simp only [hend, Bool.false_eq_true, if_false, if_pos hless]
    exact ⟨heq', hb.trans hr⟩
  | noMatch hend h =>
    obtain ⟨heq, hb⟩ := hstep _ _ ha h
    rw [Attempt.roundsWhileAny, heq]
    simp only [hend, Bool.false_eq_true, if_false]
    exact ⟨trivial, hb⟩
  | failed hend h =>
    obtain ⟨heq, hb⟩ := hstep _ _ ha h
    rw [Attempt.roundsWhileAny, heq]
    simp only [hend, Bool.false_eq_true, if_false]
    exact ⟨trivial, hb⟩

theorem Complete.whileAny (hgrow : OffsetsGrow origin) (hstep : step.Complete origin f) :
    (WhileAny step).Complete origin (Attempt.roundsWhileAny f) := by
  intro a ha
  have hends : ∀ {a outcome b}, Onward origin a.stream → f a = (outcome, b) → outcome.Proper →
      step a (outcome, b) ∧ Onward a.stream b.stream := by
    intro a outcome b ha heq hproper
    have h := hstep a ha
    rw [heq] at h
    exact h hproper
  fun_induction Attempt.roundsWhileAny f a with
  | case1 a hend => exact fun _ => ⟨.atEnd hend, Onward.refl _⟩
  | case2 a hend b heq hless ih =>
    intro hproper
    obtain ⟨h, hb⟩ := hends ha heq (Outcome.proper_matched _)
    obtain ⟨hrest, hr⟩ := ih (ha.trans hb) hproper
    have hoffset := (hb.remaining_lt_iff (hgrow.onward ha)).mp hless
    exact ⟨.moved (Bool.not_eq_true _ ▸ hend) h hoffset hrest, hb.trans hr⟩
  | case3 a hend b heq hless =>
    intro _
    obtain ⟨h, hb⟩ := hends ha heq (Outcome.proper_matched _)
    have hoffset := not_not.mp (mt (hb.remaining_lt_iff (hgrow.onward ha)).mpr hless)
    exact ⟨.same (Bool.not_eq_true _ ▸ hend) h hoffset, hb⟩
  | case4 a hend why b heq =>
    intro _
    obtain ⟨h, hb⟩ := hends ha heq (Outcome.proper_noMatch _)
    exact ⟨.noMatch (Bool.not_eq_true _ ▸ hend) h, hb⟩
  | case5 a hend why b heq =>
    intro hproper
    obtain ⟨h, hb⟩ := hends ha heq hproper
    exact ⟨.failed (Bool.not_eq_true _ ▸ hend) h, hb⟩

end Ends

/-! ## 3.  Expressions -/

namespace Replies

/-- Each reply is the one that the dispatcher gives, at a place further on. -/
def Sound (origin : S) (replies : Replies N W S) (d : Dispatch N W S) : Prop :=
  ∀ r world stream reply, Onward origin stream → replies r world stream reply →
    d r world stream = reply ∧ Onward stream reply.stream

/-- What the dispatcher gives is a reply at a place further on, unless it reports a left
recursion. -/
def Complete (origin : S) (replies : Replies N W S) (d : Dispatch N W S) : Prop :=
  ∀ r world stream, Onward origin stream → (d r world stream).outcome.Proper →
    replies r world stream (d r world stream) ∧ Onward stream (d r world stream).stream

end Replies

namespace Expr

variable {origin : S} {replies : Replies N W S} {d : Dispatch N W S}

theorem onward_attemptTerm (accepts : T → Bool) (a : Attempt T N W S) :
    Onward a.stream (attemptTerm accepts a).2.stream := by
  obtain ⟨stream, pieces, world⟩ := a
  simp only [attemptTerm]
  split
  · split
    · exact Onward.advance _
    · exact Onward.refl _
  · exact Onward.refl _

theorem asks_sound (hreplies : replies.Sound origin d) (rule : RuleId) :
    (Ends.Asks replies rule : Ends T N W S).Sound origin (attemptNonterm d rule) := by
  intro a r ha h
  cases h with
  | atEnd hend =>
    rw [attemptNonterm, if_pos hend]
    exact ⟨rfl, Onward.refl _⟩
  | matched hend h =>
    obtain ⟨heq, hr⟩ := hreplies _ _ _ _ ha h
    rw [attemptNonterm, hend, heq]
    exact ⟨rfl, hr⟩
  | noMatch hend h =>
    obtain ⟨heq, hr⟩ := hreplies _ _ _ _ ha h
    rw [attemptNonterm, hend, heq]
    exact ⟨rfl, hr⟩
  | failed hend h =>
    obtain ⟨heq, hr⟩ := hreplies _ _ _ _ ha h
    rw [attemptNonterm, hend, heq]
    exact ⟨rfl, hr⟩

theorem asks_complete (hreplies : replies.Complete origin d) (rule : RuleId) :
    (Ends.Asks replies rule : Ends T N W S).Complete origin (attemptNonterm d rule) := by
  rintro ⟨stream, pieces, world⟩ ha hproper
  have hreply := hreplies rule world stream ha
  rcases heq : d rule world stream with ⟨outcome, world', stream'⟩
  rw [heq] at hreply
  cases hend : TokenStream.atEnd stream with
  | true =>
    rw [attemptNonterm, if_pos hend]
    exact ⟨.atEnd hend, Onward.refl _⟩
  | false =>
    rw [attemptNonterm, hend, heq] at hproper ⊢
    cases outcome with
    | matched node =>
      obtain ⟨h, hr⟩ := hreply (Outcome.proper_matched _)
      exact ⟨.matched hend h, hr⟩
    | noMatch why =>
      obtain ⟨h, hr⟩ := hreply (Outcome.proper_noMatch _)
      exact ⟨.noMatch hend h, hr⟩
    | failed why =>
      obtain ⟨h, hr⟩ := hreply fun r hr => hproper r (by cases hr; rfl)
      exact ⟨.failed hend h, hr⟩

mutual

/-- **Each end of a match is the one that the parser comes to.** -/
theorem returns_sound [LawfulTokenStream S] (hgrow : OffsetsGrow origin)
    (hreplies : replies.Sound origin d) :
    ∀ e : Expr T, (e.Returns replies).Sound origin fun a => e.attempt d a
  | .empty => by
    simp only [attempt]
    exact Ends.sound_done
  | .term accepts => by
    simp only [attempt]
    rintro a _ - rfl
    exact ⟨rfl, onward_attemptTerm accepts a⟩
  | .nonterm rule => by
    simp only [attempt]
    exact asks_sound hreplies rule
  | .seq items => by
    simp only [attempt]
    exact (allReturn_sound hgrow hreplies items).restored .sequence
  | .choice items => by
    simp only [attempt]
    exact firstReturns_sound hgrow hreplies items
  | .rep least body => by
    have hbody := returns_sound hgrow hreplies body
    simp only [attempt]
    exact ((hbody.rounds least).restored .tooFew).andThen (hbody.whileAny hgrow)
  | .opt body => by
    simp only [attempt]
    exact (returns_sound hgrow hreplies body).orElse Ends.sound_done

theorem allReturn_sound [LawfulTokenStream S] (hgrow : OffsetsGrow origin)
    (hreplies : replies.Sound origin d) :
    ∀ items : List (Expr T),
      Ends.Sound origin (AllReturn replies items) fun a => attemptAll d items a
  | [] => by
    simp only [attemptAll]
    exact Ends.sound_done
  | item :: items => by
    simp only [attemptAll]
    exact (returns_sound hgrow hreplies item).andThen (allReturn_sound hgrow hreplies items)

theorem firstReturns_sound [LawfulTokenStream S] (hgrow : OffsetsGrow origin)
    (hreplies : replies.Sound origin d) :
    ∀ items : List (Expr T),
      Ends.Sound origin (FirstReturns replies items) fun a => attemptFirst d items a
  | [] => by
    simp only [attemptFirst]
    rintro a _ - rfl
    exact ⟨rfl, Onward.refl _⟩
  | item :: items => by
    simp only [attemptFirst]
    exact (returns_sound hgrow hreplies item).orElse (firstReturns_sound hgrow hreplies items)

end

mutual

/-- **What the parser comes to is an end of the match.** -/
theorem returns_complete [LawfulTokenStream S] (hgrow : OffsetsGrow origin)
    (hreplies : replies.Complete origin d) :
    ∀ e : Expr T, (e.Returns replies).Complete origin fun a => e.attempt d a
  | .empty => by
    simp only [attempt]
    exact Ends.complete_done
  | .term accepts => by
    intro a _ _
    simp only [attempt]
    exact ⟨rfl, onward_attemptTerm accepts a⟩
  | .nonterm rule => by
    simp only [attempt]
    exact asks_complete hreplies rule
  | .seq items => by
    simp only [attempt]
    exact (allReturn_complete hgrow hreplies items).restored .sequence
  | .choice items => by
    simp only [attempt]
    exact firstReturns_complete hgrow hreplies items
  | .rep least body => by
    have hbody := returns_complete hgrow hreplies body
    simp only [attempt]
    exact ((hbody.rounds least).restored .tooFew).andThen (hbody.whileAny hgrow)
  | .opt body => by
    simp only [attempt]
    exact (returns_complete hgrow hreplies body).orElse Ends.complete_done

theorem allReturn_complete [LawfulTokenStream S] (hgrow : OffsetsGrow origin)
    (hreplies : replies.Complete origin d) :
    ∀ items : List (Expr T),
      Ends.Complete origin (AllReturn replies items) fun a => attemptAll d items a
  | [] => by
    simp only [attemptAll]
    exact Ends.complete_done
  | item :: items => by
    simp only [attemptAll]
    exact (returns_complete hgrow hreplies item).andThen (allReturn_complete hgrow hreplies items)

theorem firstReturns_complete [LawfulTokenStream S] (hgrow : OffsetsGrow origin)
    (hreplies : replies.Complete origin d) :
    ∀ items : List (Expr T),
      Ends.Complete origin (FirstReturns replies items) fun a => attemptFirst d items a
  | [] => by
    intro a _ _
    simp only [attemptFirst]
    exact ⟨rfl, Onward.refl _⟩
  | item :: items => by
    simp only [attemptFirst]
    exact (returns_complete hgrow hreplies item).orElse
      (firstReturns_complete hgrow hreplies items)

end

end Expr

/-! ## 4.  Rules -/

section Rules

variable [LawfulTokenStream S] {build : Builder T N W} {replies : Replies N W S}
  {d : Dispatch N W S} {stream : S}

theorem AlternativesReturn.sound (hgrow : OffsetsGrow stream) (hreplies : replies.Sound stream d)
    {id : RuleId} {alternatives : List (Alternative T)} {world : W} {reply : Reply N W S}
    (h : AlternativesReturn build replies id alternatives world stream reply) :
    attemptAlternatives build d id alternatives world stream = reply ∧
      Onward stream reply.stream := by
  induction h with
  | nil => exact ⟨rfl, Onward.refl _⟩
  | matched h =>
    obtain ⟨heq, hr⟩ := Expr.returns_sound hgrow hreplies _ _ _ (Onward.refl _) h
    dsimp only at heq
    rw [attemptAlternatives, heq]
    exact ⟨rfl, hr⟩
  | noMatch h _ ih =>
    obtain ⟨heq, -⟩ := Expr.returns_sound hgrow hreplies _ _ _ (Onward.refl _) h
    dsimp only at heq
    rw [attemptAlternatives, heq]
    exact ih hgrow hreplies
  | failed h =>
    obtain ⟨heq, hr⟩ := Expr.returns_sound hgrow hreplies _ _ _ (Onward.refl _) h
    dsimp only at heq
    rw [attemptAlternatives, heq]
    exact ⟨rfl, hr⟩

theorem alternativesReturn_complete (hgrow : OffsetsGrow stream)
    (hreplies : replies.Complete stream d) (id : RuleId) :
    ∀ (alternatives : List (Alternative T)) (world : W),
      (attemptAlternatives build d id alternatives world stream).outcome.Proper →
        AlternativesReturn build replies id alternatives world stream
            (attemptAlternatives build d id alternatives world stream) ∧
          Onward stream (attemptAlternatives build d id alternatives world stream).stream
  | [], _, _ => ⟨.nil, Onward.refl _⟩
  | alternative :: alternatives, world, hproper => by
    have hends := Expr.returns_complete hgrow hreplies alternative.expr
      ⟨stream, Production.start id alternative.shape, world⟩ (Onward.refl _)
    rw [attemptAlternatives] at hproper ⊢
    rcases heq : alternative.expr.attempt d
      ⟨stream, Production.start id alternative.shape, world⟩ with ⟨outcome, b⟩
    simp only [heq] at hends hproper ⊢
    cases outcome with
    | matched value =>
      obtain ⟨h, hb⟩ := hends (Outcome.proper_matched _)
      exact ⟨.matched h, hb⟩
    | noMatch why =>
      obtain ⟨h, -⟩ := hends (Outcome.proper_noMatch _)
      obtain ⟨hrest, hr⟩ :=
        alternativesReturn_complete hgrow hreplies id alternatives b.world hproper
      exact ⟨.noMatch h hrest, hr⟩
    | failed why =>
      obtain ⟨h, hb⟩ := hends fun r hr => hproper r (by cases hr; rfl)
      exact ⟨.failed h, hb⟩

end Rules

namespace Grammar

variable {g : Grammar T} {build : Builder T N W} {replies : Replies N W S} {d : Dispatch N W S}
  {r : RuleId} {world : W} {stream : S} {reply : Reply N W S}

theorem RuleReturns.sound [LawfulTokenStream S] (hgrow : OffsetsGrow stream)
    (hreplies : replies.Sound stream d) (h : g.RuleReturns build replies r world stream reply) :
    g.matchOnce build d r world stream = reply ∧ Onward stream reply.stream := by
  cases h with
  | atEnd hend => exact ⟨if_pos hend, Onward.refl _⟩
  | undefined hend hrule =>
    rw [matchOnce, hend, hrule]
    exact ⟨rfl, Onward.refl _⟩
  | rule hend hrule h =>
    rw [matchOnce, hend, hrule]
    exact h.sound hgrow hreplies

theorem ruleReturns_complete [LawfulTokenStream S] (hgrow : OffsetsGrow stream)
    (hreplies : replies.Complete stream d)
    (hproper : (g.matchOnce build d r world stream).outcome.Proper) :
    g.RuleReturns build replies r world stream (g.matchOnce build d r world stream) ∧
      Onward stream (g.matchOnce build d r world stream).stream := by
  rw [matchOnce] at hproper ⊢
  cases hend : TokenStream.atEnd stream with
  | true =>
    rw [if_pos rfl]
    exact ⟨.atEnd hend, Onward.refl _⟩
  | false =>
    rw [hend, if_neg Bool.false_ne_true] at hproper
    rw [if_neg Bool.false_ne_true]
    cases hrule : g.rule? r with
    | none => exact ⟨.undefined hend hrule, Onward.refl _⟩
    | some rule =>
      rw [hrule] at hproper
      obtain ⟨h, hr⟩ := alternativesReturn_complete hgrow hreplies rule.id rule.alternatives world
        hproper
      exact ⟨.rule hend hrule h, hr⟩

/-! ## 5.  What is not reported returns -/

/-- How deep rules can be one inside the other, with so many tokens ahead and so many rules that may
still start here. -/
def depthBound (g : Grammar T) (left : Nat) (fresh : List RuleId) : Nat :=
  left * (g.ids.length + 1) + fresh.length + 1

theorem depthBound_lt_of_lt {left left' : Nat} (h : left' < left) (fresh : List RuleId) :
    g.depthBound left' g.ids ≤ left * (g.ids.length + 1) + fresh.length := by
  have hrounds := Nat.mul_le_mul_right (g.ids.length + 1) (Nat.succ_le_of_lt h)
  rw [Nat.succ_mul] at hrounds
  rw [depthBound]
  omega

theorem depthBound_erase {fresh : List RuleId} (h : r ∈ fresh) (left : Nat) :
    g.depthBound left (fresh.erase r) ≤ left * (g.ids.length + 1) + fresh.length := by
  have := List.length_pos_of_mem h
  rw [depthBound, List.length_erase_of_mem h]
  omega

/-- A rule that is in progress returns if that is not what is wrong. -/
theorem ruleReturns_of_not_mem {left : Nat} {fresh : List RuleId} (hfresh : r ∉ fresh)
    (hproper : (g.matchFresh build left fresh r world stream).outcome.Proper) :
    g.RuleReturns build replies r world stream (g.matchFresh build left fresh r world stream) ∧
      Onward stream (g.matchFresh build left fresh r world stream).stream := by
  rw [matchFresh_of_not_mem hfresh, blame] at hproper ⊢
  refine ⟨?_, Onward.refl stream⟩
  cases hend : TokenStream.atEnd stream with
  | true => exact .atEnd hend
  | false =>
    rw [hend] at hproper
    cases hrule : g.rule? r with
    | none => exact .undefined hend hrule
    | some rule =>
      rw [hrule] at hproper
      exact absurd rfl (hproper r)

/-- **A rule that is not reported returns**, and not too deep. -/
theorem returnsWithin_matchFresh [LawfulTokenStream S] (g : Grammar T) (build : Builder T N W)
    (left : Nat) (fresh : List RuleId) (r : RuleId) (world : W) {stream : S}
    (hgrow : OffsetsGrow stream)
    (hproper : (g.matchFresh build left fresh r world stream).outcome.Proper) :
    g.ReturnsWithin build .any (g.depthBound left fresh) r world stream
        (g.matchFresh build left fresh r world stream) ∧
      Onward stream (g.matchFresh build left fresh r world stream).stream := by
  induction left using Nat.strongRecOn generalizing fresh r world stream with
  | _ left ihleft =>
    induction hcount : fresh.length using Nat.strongRecOn generalizing fresh r world stream with
    | _ count ihfresh =>
      by_cases hfresh : r ∈ fresh
      · rw [matchFresh_of_mem hfresh] at hproper ⊢
        refine ruleReturns_complete hgrow (fun r' world' stream' hon hproper' => ?_) hproper
        have hgrow' := hgrow.onward hon
        simp only [dispatchWithin] at hproper' ⊢
        by_cases hless : TokenStream.remaining stream' < left
        · rw [if_pos hless] at hproper' ⊢
          obtain ⟨h, hr⟩ := ihleft _ hless g.ids r' world' hgrow' hproper'
          exact ⟨⟨h.mono (depthBound_lt_of_lt hless fresh), trivial⟩, hr⟩
        · rw [if_neg hless] at hproper' ⊢
          have herase : (fresh.erase r).length < count := by
            have := List.length_pos_of_mem hfresh
            rw [List.length_erase_of_mem hfresh]
            omega
          obtain ⟨h, hr⟩ := ihfresh _ herase (fresh.erase r) r' world' hgrow' hproper' rfl
          exact ⟨⟨h.mono (depthBound_erase hfresh left), trivial⟩, hr⟩
      · exact ruleReturns_of_not_mem hfresh hproper

/-! ## 6.  What returns is not reported -/

/-- A reply that is returned is no report of a left recursion. -/
theorem ReturnsWithin.proper {inner : Replies N W S} {depth : Nat}
    (h : g.ReturnsWithin build inner depth r world stream reply) : reply.outcome.Proper := by
  induction depth generalizing r world stream reply with
  | zero => exact h.elim
  | succ depth ih =>
    cases h with
    | atEnd => exact fun _ h => nomatch h
    | undefined => exact fun _ h => nomatch h
    | rule _ _ h =>
      intro r' hreport
      exact h.failsOnly (P := fun why => ∀ r, why ≠ .leftRecursion r)
        (fun _ _ _ _ _ _ why _ _ _ h r hwhy => ih h.1 r (congrArg Outcome.failed hwhy))
        hreport r' rfl

/-- The parser with a bound on the depth instead of the list of the rules in progress. -/
def matchWithin (g : Grammar T) (build : Builder T N W) : Nat → Dispatch N W S
  | 0 => fun r world stream => ⟨.failed (.leftRecursion r), world, stream⟩
  | depth + 1 => g.matchOnce build (g.matchWithin build depth)

variable [LawfulTokenStream S]

theorem ReturnsWithin.sound {depth : Nat} (hgrow : OffsetsGrow stream)
    (h : g.ReturnsWithin build .any depth r world stream reply) :
    g.matchWithin build depth r world stream = reply ∧ Onward stream reply.stream := by
  induction depth generalizing r world stream reply with
  | zero => exact h.elim
  | succ depth ih =>
    exact RuleReturns.sound hgrow (fun _ _ _ _ hon h => ih (hgrow.onward hon) h.1) h

theorem returnsWithin_complete {depth : Nat} (hgrow : OffsetsGrow stream)
    (hproper : (g.matchWithin build depth r world stream).outcome.Proper) :
    g.ReturnsWithin build .any depth r world stream (g.matchWithin build depth r world stream) ∧
      Onward stream (g.matchWithin build depth r world stream).stream := by
  induction depth generalizing r world stream with
  | zero => exact absurd rfl (hproper r)
  | succ depth ih =>
    refine ruleReturns_complete hgrow (fun r' world' stream' hon hproper' => ?_) hproper
    obtain ⟨h, hr⟩ := ih (hgrow.onward hon) hproper'
    exact ⟨⟨h, trivial⟩, hr⟩

theorem matchWithin_coupled (c : Coupling build build) {tokens : List T} (depth : Nat)
    (hahead : Ahead stream tokens) (r : RuleId) {w : W × W} (hgood : c.good w) :
    (g.matchWithin build depth r w.1 stream).Coupled c stream stream tokens 0 w
      (g.matchWithin build depth r w.2 stream) := by
  induction depth generalizing stream tokens r w with
  | zero => exact .of_failed _ hgood
  | succ depth ih =>
    exact g.matchOnce_coupled ⟨hahead, hahead⟩ (fun r' k w hk hgood =>
      (ih (hahead.iterate_advance hk) r' hgood).from_origin hk) r hgood

end Grammar

theorem Outcome.Alike.proper {X : Type} {means : N → X → Prop} {outcome : Outcome N}
    {outcome' : Outcome X} (h : outcome.Alike means outcome') (hproper : outcome.Proper) :
    outcome'.Proper := by
  cases h with
  | matched => exact Outcome.proper_matched _
  | noMatch => exact Outcome.proper_noMatch _
  | failed why => exact fun r hr => hproper r (by cases hr; rfl)

namespace Grammar

variable {g : Grammar T} {build : Builder T N W} {r : RuleId} {world : W} {stream : S}
  {reply : Reply N W S} [LawfulTokenStream S]

/-- **Whether a rule returns does not depend on the world.** -/
theorem ReturnsWithin.from_world {depth : Nat} (hgrow : OffsetsGrow stream)
    (h : g.ReturnsWithin build .any depth r world stream reply) (world' : W) :
    ∃ reply', g.ReturnsWithin build .any depth r world' stream reply' := by
  obtain ⟨tokens, htokens⟩ := exists_ahead stream
  have hboth := g.matchWithin_coupled (Coupling.any build build) depth htokens r
    (w := (world, world')) trivial
  have hproper := h.proper
  rw [← (h.sound hgrow).1] at hproper
  exact ⟨_, (returnsWithin_complete hgrow (hboth.outcome.proper hproper)).1⟩

/-- **A rule that returns is not reported**, if the rules in progress do not return at the same place
as soon as that. -/
theorem ReturnsWithin.matchFresh_eq {depth : Nat} (hgrow : OffsetsGrow stream)
    (h : g.ReturnsWithin build .any depth r world stream reply) {fresh : List RuleId}
    (hfresh : ∀ r' ∈ g.ids, r' ∉ fresh → ∀ world' reply',
      ¬ g.ReturnsWithin build .any depth r' world' stream reply') :
    g.matchFresh build (TokenStream.remaining stream) fresh r world stream = reply := by
  induction depth using Nat.strongRecOn generalizing fresh r world stream reply with
  | _ depth ih =>
    by_cases hsooner : ∃ sooner < depth, ∃ world' reply',
        g.ReturnsWithin build .any sooner r world' stream reply'
    · -- The rule returns at a smaller depth from another world, so it does from this one.
      obtain ⟨sooner, hless, world', reply', h'⟩ := hsooner
      obtain ⟨reply'', h''⟩ := h'.from_world hgrow world
      have hsame : reply'' = reply :=
        ((h''.mono (Nat.le_of_lt hless)).sound hgrow).1.symm.trans (h.sound hgrow).1
      refine ih sooner hless hgrow (hsame ▸ h'') fun r' hr' hmem world' reply' hr'' => ?_
      exact hfresh r' hr' hmem world' reply' (hr''.mono (Nat.le_of_lt hless))
    · cases depth with
      | zero => exact h.elim
      | succ depth =>
        by_cases hmem : r ∈ fresh
        · rw [matchFresh_of_mem hmem]
          refine (RuleReturns.sound hgrow (fun r' world' stream' reply' hon hreply => ?_) h).1
          have hgrow' := hgrow.onward hon
          refine ⟨?_, (hreply.1.sound hgrow').2⟩
          rw [dispatchWithin]
          rcases hon.eq_or_moved hgrow with rfl | ⟨hless, -⟩
          · rw [if_neg (Nat.lt_irrefl _)]
            refine ih depth (Nat.lt_succ_self _) hgrow hreply.1
              fun r'' hr'' hnot world'' reply'' h'' => ?_
            by_cases hself : r'' = r
            · exact hsooner ⟨depth, Nat.lt_succ_self _, world'', reply'', hself ▸ h''⟩
            · refine hfresh r'' hr'' (fun hin => hnot ?_) world'' reply''
                (h''.mono (Nat.le_succ _))
              exact (List.mem_erase_of_ne hself).mpr hin
          · rw [if_pos hless]
            exact ih depth (Nat.lt_succ_self _) hgrow' hreply.1
              fun _ hr'' hnot => absurd hr'' hnot
        · by_cases hid : r ∈ g.ids
          · exact absurd h (hfresh r hid hmem world reply)
          · rw [matchFresh_of_not_mem hmem, blame]
            cases h with
            | atEnd hend =>
              rw [hend]
              rfl
            | undefined hend hrule =>
              rw [hend, hrule]
              rfl
            | rule _ hrule _ =>
              exact absurd (mem_ids.mpr (Array.getElem?_eq_some_iff.mp hrule).1) hid

/-- **A rule returns exactly the replies that do not report a left recursion.** -/
theorem returns_iff (hgrow : OffsetsGrow stream) :
    g.Returns build r world stream reply ↔
      g.matchRule build r world stream = reply ∧ reply.outcome.Proper := by
  constructor
  · rintro ⟨depth, h⟩
    exact ⟨h.matchFresh_eq hgrow fun _ hr hnot => absurd hr hnot, h.proper⟩
  · rintro ⟨rfl, hproper⟩
    exact ⟨_, (g.returnsWithin_matchFresh build _ g.ids r world hgrow hproper).1⟩

/-- A parse returns exactly the answers that do not report a left recursion. -/
theorem parseReturns_iff {answer : Except ParseError N × W} (hgrow : OffsetsGrow stream) :
    g.ParseReturns build world stream answer ↔
      g.parse build world stream = answer ∧
        ∀ r, answer.1 ≠ .error (.failed (.leftRecursion r)) := by
  have hverdict : ∀ reply : Reply N W S, reply.outcome.Proper ↔
      ∀ r, (verdict reply).1 ≠ .error (.failed (.leftRecursion r)) := by
    rintro ⟨outcome, world, stream⟩
    cases outcome with
    | matched node =>
      refine iff_of_true (Outcome.proper_matched _) fun r => ?_
      rw [verdict]
      split <;> exact fun h => nomatch h
    | noMatch why => exact iff_of_true (Outcome.proper_noMatch _) fun r h => nomatch h
    | failed why => simp [verdict, Outcome.Proper]
  constructor
  · rintro ⟨reply, h, rfl⟩
    obtain ⟨rfl, hproper⟩ := (returns_iff hgrow).mp h
    exact ⟨rfl, (hverdict _).mp hproper⟩
  · rintro ⟨rfl, hproper⟩
    exact ⟨_, (returns_iff hgrow).mpr ⟨rfl, (hverdict _).mpr hproper⟩, rfl⟩

end Grammar

end GrammarKit
