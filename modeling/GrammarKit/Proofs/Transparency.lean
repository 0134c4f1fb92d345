import GrammarKit.Proofs.LeftRecursion

/-!
# A failure is the last reply

A match asks for rules, one after the other, and goes on by the replies.  It takes back what has not
matched and tries another way, but a failure it never catches: whatever it is in the middle of, it
asks no more, puts nothing back and hands the failure on.  So whether a match fails can be read off
the last reply, and the stream is where that reply has left it.

Nothing is asked of the dispatcher.  It may reply as it likes and leave the stream anywhere, also
further back, whatever the outcome is.  Then it makes a difference when a repetition takes a round to
have moved on: the match that runs looks at the tokens that remain, the plain recursion at the offset.
Both are the same relation with another test, and that relation is what the induction is about.

* `Dispatch.logged`, `Replies.logged`: the replies are kept in a list.
* `Expr.EndsBy`: the ends of a match, for any test of having moved on.
* `Transparent`: what the replies say about an end.
* `failure_is_last_reply`: they say it of every match, and keeping the list changes nothing else.
-/

namespace GrammarKit

variable {T N W S : Type}

/-! ## 1.  Keeping the replies -/

/-- A rule that was asked for, and the reply. -/
structure Asked (N W S : Type) where
  /-- The rule. -/
  rule : RuleId
  /-- What came of it. -/
  reply : Reply N W S

/-- The same reply, at the end of the list of all replies. -/
def Reply.logged (reply : Reply N W S) (rule : RuleId) (asked : List (Asked N W S)) :
    Reply N (W × List (Asked N W S)) S :=
  ⟨reply.outcome, (reply.world, asked ++ [⟨rule, reply⟩]), reply.stream⟩

/-- The dispatcher that keeps a list of its replies. -/
def Dispatch.logged (d : Dispatch N W S) : Dispatch N (W × List (Asked N W S)) S :=
  fun rule w stream => (d rule w.1 stream).logged rule w.2

/-- The replies, each of them kept in a list. -/
def Replies.logged (replies : Replies N W S) : Replies N (W × List (Asked N W S)) S :=
  fun rule w stream reply => ∃ plain, replies rule w.1 stream plain ∧ plain.logged rule w.2 = reply

/-- The replies of a dispatcher. -/
def Dispatch.replies (d : Dispatch N W S) : Replies N W S :=
  fun rule world stream reply => d rule world stream = reply

theorem Dispatch.replies_logged (d : Dispatch N W S) : d.logged.replies = d.replies.logged := by
  funext rule w stream reply
  simp [replies, Replies.logged, logged]

/-- An attempt without the list. -/
def Attempt.forget {L : Type} (a : Attempt T N (W × L) S) : Attempt T N W S :=
  ⟨a.stream, a.pieces, a.world.1⟩

/-! ## 2.  One match for every test of having moved on -/

namespace Ends

variable [TokenStream S T]

/-- Rounds while there are tokens, the step matches, and it has moved on as `more` tells. -/
inductive RoundsWhile (more : S → S → Prop) (step : Ends T N W S) : Ends T N W S where
  | atEnd {a} (hend : TokenStream.atEnd a.stream = true) : RoundsWhile more step a (.matched (), a)
  | last {a b} (hend : TokenStream.atEnd a.stream = false) (hstep : step a (.matched (), b))
      (hmore : ¬ more a.stream b.stream) : RoundsWhile more step a (.matched (), b)
  | next {a b r} (hend : TokenStream.atEnd a.stream = false) (hstep : step a (.matched (), b))
      (hmore : more a.stream b.stream) (hrest : RoundsWhile more step b r) :
      RoundsWhile more step a r
  | noMatch {a b why} (hend : TokenStream.atEnd a.stream = false)
      (hstep : step a (.noMatch why, b)) : RoundsWhile more step a (.matched (), b)
  | failed {a b why} (hend : TokenStream.atEnd a.stream = false)
      (hstep : step a (.failed why, b)) : RoundsWhile more step a (.failed why, b)

/-- The plain recursion tells by the offset. -/
theorem roundsWhile_offset (step : Ends T N W S) :
    RoundsWhile (fun s s' => TokenStream.offset s' ≠ TokenStream.offset s) step = WhileAny step := by
  funext a r
  refine propext ⟨fun h => ?_, fun h => ?_⟩
  · induction h with
    | atEnd hend => exact .atEnd hend
    | last hend hstep hmore => exact .same hend hstep (not_not.mp hmore)
    | next hend hstep hmore _ ih => exact .moved hend hstep hmore ih
    | noMatch hend hstep => exact .noMatch hend hstep
    | failed hend hstep => exact .failed hend hstep
  · induction h with
    | atEnd hend => exact .atEnd hend
    | same hend hstep hoffset => exact .last hend hstep (not_not.mpr hoffset)
    | moved hend hstep hoffset _ ih => exact .next hend hstep hoffset ih
    | noMatch hend hstep => exact .noMatch hend hstep
    | failed hend hstep => exact .failed hend hstep

end Ends

namespace Expr

variable [TokenStream S T]

mutual

/-- **The ends of a match of an expression**, if the questions have these replies and a repetition
takes a round to have moved on as `more` tells. -/
def EndsBy (more : S → S → Prop) (replies : Replies N W S) : Expr T → Ends T N W S
  | .empty => Ends.Done
  | .term accepts => fun a r => r = attemptTerm accepts a
  | .nonterm rule => Ends.Asks replies rule
  | .seq items => Ends.Restored .sequence (AllEndBy more replies items)
  | .choice items => FirstEndsBy more replies items
  | .rep least body =>
    Ends.AndThen (Ends.Restored .tooFew (Ends.Rounds (body.EndsBy more replies) least))
      (Ends.RoundsWhile more (body.EndsBy more replies))
  | .opt body => Ends.OrElse (body.EndsBy more replies) Ends.Done

/-- The same for all the expressions of a list, one after the other. -/
def AllEndBy (more : S → S → Prop) (replies : Replies N W S) : List (Expr T) → Ends T N W S
  | [] => Ends.Done
  | item :: items => Ends.AndThen (item.EndsBy more replies) (AllEndBy more replies items)

/-- The same for the first expression of a list that matches. -/
def FirstEndsBy (more : S → S → Prop) (replies : Replies N W S) : List (Expr T) → Ends T N W S
  | [] => Ends.Refused .choice
  | item :: items => Ends.OrElse (item.EndsBy more replies) (FirstEndsBy more replies items)

end

mutual

/-- The plain recursion is the case in which the offset tells. -/
theorem endsBy_offset (replies : Replies N W S) : ∀ e : Expr T,
    e.EndsBy (fun s s' => TokenStream.offset s' ≠ TokenStream.offset s) replies = e.Returns replies
  | .empty => rfl
  | .term _ => rfl
  | .nonterm _ => rfl
  | .seq items => by rw [EndsBy, Returns, allEndBy_offset replies items]
  | .choice items => by rw [EndsBy, Returns, firstEndsBy_offset replies items]
  | .rep least body => by
    rw [EndsBy, Returns, endsBy_offset replies body, Ends.roundsWhile_offset]
  | .opt body => by rw [EndsBy, Returns, endsBy_offset replies body]

theorem allEndBy_offset (replies : Replies N W S) : ∀ items : List (Expr T),
    AllEndBy (fun s s' => TokenStream.offset s' ≠ TokenStream.offset s) replies items =
      AllReturn replies items
  | [] => rfl
  | item :: items => by
    rw [AllEndBy, AllReturn, endsBy_offset replies item, allEndBy_offset replies items]

theorem firstEndsBy_offset (replies : Replies N W S) : ∀ items : List (Expr T),
    FirstEndsBy (fun s s' => TokenStream.offset s' ≠ TokenStream.offset s) replies items =
      FirstReturns replies items
  | [] => rfl
  | item :: items => by
    rw [FirstEndsBy, FirstReturns, endsBy_offset replies item, firstEndsBy_offset replies items]

end

end Expr

/-! ## 3.  The match that runs -/

namespace Ends

/-- The one end from each place is the one that the function gives. -/
def IsGraph (ends : Ends T N W S) (f : Attempt T N W S → Outcome Unit × Attempt T N W S) : Prop :=
  ∀ a r, ends a r ↔ f a = r

variable {first next step : Ends T N W S} {f f' : Attempt T N W S → Outcome Unit × Attempt T N W S}

theorem isGraph_done : IsGraph (Done : Ends T N W S) fun a => (.matched (), a) :=
  fun _ _ => eq_comm

theorem IsGraph.andThen (hfirst : first.IsGraph f) (hnext : next.IsGraph f') :
    (AndThen first next).IsGraph (Attempt.andThen f f') := by
  intro a r
  rw [Attempt.andThen]
  constructor
  · intro h
    cases h with
    | matched h hthen => rw [(hfirst _ _).mp h, ← (hnext _ _).mp hthen]
    | noMatch h => rw [(hfirst _ _).mp h]
    | failed h => rw [(hfirst _ _).mp h]
  · rintro rfl
    rcases heq : f a with ⟨outcome, b⟩
    have h := (hfirst _ _).mpr heq
    cases outcome with
    | matched value => exact .matched h ((hnext _ _).mpr rfl)
    | noMatch why => exact .noMatch h
    | failed why => exact .failed h

theorem IsGraph.orElse (hfirst : first.IsGraph f) (hnext : next.IsGraph f') :
    (OrElse first next).IsGraph (Attempt.orElse f f') := by
  intro a r
  rw [Attempt.orElse]
  constructor
  · intro h
    cases h with
    | noMatch h helse => rw [(hfirst _ _).mp h, ← (hnext _ _).mp helse]
    | matched h => rw [(hfirst _ _).mp h]
    | failed h => rw [(hfirst _ _).mp h]
  · rintro rfl
    rcases heq : f a with ⟨outcome, b⟩
    have h := (hfirst _ _).mpr heq
    cases outcome with
    | noMatch why => exact .noMatch h ((hnext _ _).mpr rfl)
    | matched value => exact .matched h
    | failed why => exact .failed h

theorem IsGraph.restored (hfirst : first.IsGraph f) (why : Mismatch) :
    (Restored why first).IsGraph
      fun a => Attempt.orRestore a.stream a.pieces.checkpoint why (f a) := by
  intro a r
  constructor
  · intro h
    cases h with
    | intro h => exact congrArg _ ((hfirst _ _).mp h)
  · rintro rfl
    exact .intro ((hfirst _ _).mpr rfl)

theorem IsGraph.rounds (hstep : step.IsGraph f) :
    ∀ n, (Rounds step n).IsGraph (Attempt.rounds f n)
  | 0 => isGraph_done
  | n + 1 => hstep.andThen (IsGraph.rounds hstep n)

variable [TokenStream S T]

/-- The repetition that runs tells by the tokens that remain. -/
theorem IsGraph.roundsWhile (hstep : step.IsGraph f) :
    (RoundsWhile (fun s s' => TokenStream.remaining s' < TokenStream.remaining s) step).IsGraph
      (Attempt.roundsWhileAny f) := by
  intro a r
  constructor
  · intro h
    induction h with
    | atEnd hend => rw [Attempt.roundsWhileAny, if_pos hend]
    | last hend h hmore =>
      rw [Attempt.roundsWhileAny, (hstep _ _).mp h]
      simp only [hend, Bool.false_eq_true, if_false, if_neg hmore]
    | next hend h hmore _ ih =>
      rw [Attempt.roundsWhileAny, (hstep _ _).mp h]
      simp only [hend, Bool.false_eq_true, if_false, if_pos hmore]
      exact ih
    | noMatch hend h =>
      rw [Attempt.roundsWhileAny, (hstep _ _).mp h]
      simp only [hend, Bool.false_eq_true, if_false]
    | failed hend h =>
      rw [Attempt.roundsWhileAny, (hstep _ _).mp h]
      simp only [hend, Bool.false_eq_true, if_false]
  · rintro rfl
    fun_induction Attempt.roundsWhileAny f a with
    | case1 a hend => exact .atEnd hend
    | case2 a hend b heq hless ih =>
      exact .next (Bool.not_eq_true _ ▸ hend) ((hstep _ _).mpr heq) hless ih
    | case3 a hend b heq hless =>
      exact .last (Bool.not_eq_true _ ▸ hend) ((hstep _ _).mpr heq) hless
    | case4 a hend why b heq => exact .noMatch (Bool.not_eq_true _ ▸ hend) ((hstep _ _).mpr heq)
    | case5 a hend why b heq => exact .failed (Bool.not_eq_true _ ▸ hend) ((hstep _ _).mpr heq)

theorem isGraph_asks (d : Dispatch N W S) (rule : RuleId) :
    (Asks d.replies rule : Ends T N W S).IsGraph (Expr.attemptNonterm d rule) := by
  rintro ⟨stream, pieces, world⟩ r
  rw [Expr.attemptNonterm]
  constructor
  · intro h
    cases h with
    | atEnd hend => rw [if_pos hend]
    | matched hend h => rw [hend, show d rule world stream = _ from h]; rfl
    | noMatch hend h => rw [hend, show d rule world stream = _ from h]; rfl
    | failed hend h => rw [hend, show d rule world stream = _ from h]; rfl
  · rintro rfl
    split
    · next hend => exact .atEnd hend
    · next hend =>
      have hopen := Bool.not_eq_true _ ▸ hend
      split
      · next h => exact .matched hopen h
      · next h => exact .noMatch hopen h
      · next h => exact .failed hopen h

end Ends

namespace Expr

variable [TokenStream S T]

mutual

/-- **The match that runs is the case in which the remaining tokens tell.** -/
theorem isGraph_attempt (d : Dispatch N W S) : ∀ e : Expr T,
    (e.EndsBy (fun s s' => TokenStream.remaining s' < TokenStream.remaining s) d.replies).IsGraph
      fun a => e.attempt d a
  | .empty => by
    simp only [attempt]
    exact Ends.isGraph_done
  | .term accepts => by
    simp only [attempt]
    exact fun _ _ => eq_comm
  | .nonterm rule => by
    simp only [attempt]
    exact Ends.isGraph_asks d rule
  | .seq items => by
    simp only [attempt]
    exact (isGraph_attemptAll d items).restored .sequence
  | .choice items => by
    simp only [attempt]
    exact isGraph_attemptFirst d items
  | .rep least body => by
    have hbody := isGraph_attempt d body
    simp only [attempt]
    exact ((hbody.rounds least).restored .tooFew).andThen hbody.roundsWhile
  | .opt body => by
    simp only [attempt]
    exact (isGraph_attempt d body).orElse Ends.isGraph_done

theorem isGraph_attemptAll (d : Dispatch N W S) : ∀ items : List (Expr T),
    Ends.IsGraph
      (AllEndBy (fun s s' => TokenStream.remaining s' < TokenStream.remaining s) d.replies items)
      fun a => attemptAll d items a
  | [] => by
    simp only [attemptAll]
    exact Ends.isGraph_done
  | item :: items => by
    simp only [attemptAll]
    exact (isGraph_attempt d item).andThen (isGraph_attemptAll d items)

theorem isGraph_attemptFirst (d : Dispatch N W S) : ∀ items : List (Expr T),
    Ends.IsGraph
      (FirstEndsBy (fun s s' => TokenStream.remaining s' < TokenStream.remaining s) d.replies items)
      fun a => attemptFirst d items a
  | [] => by
    simp only [attemptFirst]
    exact fun _ _ => eq_comm
  | item :: items => by
    simp only [attemptFirst]
    exact (isGraph_attempt d item).orElse (isGraph_attemptFirst d items)

end

end Expr

/-! ## 4.  The list changes nothing -/

namespace Ends

variable {L : Type} {first next step : Ends T N W S} {first' next' step' : Ends T N (W × L) S}

/-- Each end is also one of a match that keeps a list. -/
def Lifts (ends : Ends T N W S) (kept : Ends T N (W × L) S) : Prop :=
  ∀ a r, ends a.forget r → ∃ r', kept a r' ∧ (r'.1, r'.2.forget) = r

theorem Lifts.exists_kept (hlifts : first.Lifts first') {a : Attempt T N (W × L) S}
    {outcome : Outcome Unit} {b : Attempt T N W S} (h : first a.forget (outcome, b)) :
    ∃ b', first' a (outcome, b') ∧ b'.forget = b := by
  obtain ⟨⟨_, b'⟩, hkept, heq⟩ := hlifts a _ h
  cases heq
  exact ⟨b', hkept, rfl⟩

theorem lifts_done : Lifts (L := L) (Done : Ends T N W S) Done := by
  rintro a _ rfl
  exact ⟨_, rfl, rfl⟩

theorem lifts_refused (why : Mismatch) : Lifts (L := L) (Refused why : Ends T N W S) (Refused why) := by
  rintro a _ rfl
  exact ⟨_, rfl, rfl⟩

theorem Lifts.andThen (hfirst : first.Lifts first') (hnext : next.Lifts next') :
    (AndThen first next).Lifts (AndThen first' next') := by
  intro a r h
  cases h with
  | matched h hthen =>
    obtain ⟨b, hkept, rfl⟩ := hfirst.exists_kept h
    obtain ⟨r, hthen, heq⟩ := hnext _ _ hthen
    exact ⟨r, .matched hkept hthen, heq⟩
  | noMatch h =>
    obtain ⟨b, hkept, rfl⟩ := hfirst.exists_kept h
    exact ⟨_, .noMatch hkept, rfl⟩
  | failed h =>
    obtain ⟨b, hkept, rfl⟩ := hfirst.exists_kept h
    exact ⟨_, .failed hkept, rfl⟩

theorem Lifts.orElse (hfirst : first.Lifts first') (hnext : next.Lifts next') :
    (OrElse first next).Lifts (OrElse first' next') := by
  intro a r h
  cases h with
  | noMatch h helse =>
    obtain ⟨b, hkept, rfl⟩ := hfirst.exists_kept h
    obtain ⟨r, helse, heq⟩ := hnext _ _ helse
    exact ⟨r, .noMatch hkept helse, heq⟩
  | matched h =>
    obtain ⟨b, hkept, rfl⟩ := hfirst.exists_kept h
    exact ⟨_, .matched hkept, rfl⟩
  | failed h =>
    obtain ⟨b, hkept, rfl⟩ := hfirst.exists_kept h
    exact ⟨_, .failed hkept, rfl⟩

theorem Lifts.restored (hfirst : first.Lifts first') (why : Mismatch) :
    (Restored why first).Lifts (Restored why first') := by
  intro a r h
  cases h with
  | intro h =>
    obtain ⟨⟨outcome, b⟩, hkept, rfl⟩ := hfirst _ _ h
    refine ⟨_, .intro hkept, ?_⟩
    cases outcome <;> rfl

theorem Lifts.rounds (hstep : step.Lifts step') : ∀ n, (Rounds step n).Lifts (Rounds step' n)
  | 0 => lifts_done
  | n + 1 => hstep.andThen (Lifts.rounds hstep n)

variable [TokenStream S T]

theorem Lifts.roundsWhile {more : S → S → Prop} (hstep : step.Lifts step') :
    (RoundsWhile more step).Lifts (RoundsWhile more step') := by
  intro a r h
  generalize hplain : a.forget = plain at h
  induction h generalizing a with
  | atEnd hend =>
    subst hplain
    exact ⟨_, .atEnd hend, rfl⟩
  | last hend h hmore =>
    subst hplain
    obtain ⟨b, hkept, rfl⟩ := hstep.exists_kept h
    exact ⟨_, .last hend hkept hmore, rfl⟩
  | next hend h hmore _ ih =>
    subst hplain
    obtain ⟨b, hkept, rfl⟩ := hstep.exists_kept h
    obtain ⟨r, hrest, heq⟩ := ih b rfl
    exact ⟨r, .next hend hkept hmore hrest, heq⟩
  | noMatch hend h =>
    subst hplain
    obtain ⟨b, hkept, rfl⟩ := hstep.exists_kept h
    exact ⟨_, .noMatch hend hkept, rfl⟩
  | failed hend h =>
    subst hplain
    obtain ⟨b, hkept, rfl⟩ := hstep.exists_kept h
    exact ⟨_, .failed hend hkept, rfl⟩

theorem lifts_term (accepts : T → Bool) :
    Lifts (L := L) (fun a r => r = Expr.attemptTerm accepts a : Ends T N W S)
      (fun a r => r = Expr.attemptTerm accepts a) := by
  rintro ⟨stream, pieces, world⟩ _ rfl
  refine ⟨_, rfl, ?_⟩
  simp only [Expr.attemptTerm, Attempt.forget]
  split
  · split <;> rfl
  · rfl

theorem lifts_asks (replies : Replies N W S) (rule : RuleId) :
    Lifts (Asks replies rule : Ends T N W S) (Asks replies.logged rule) := by
  rintro ⟨stream, pieces, world, asked⟩ r h
  cases h with
  | atEnd hend => exact ⟨_, .atEnd hend, rfl⟩
  | matched hend h => exact ⟨_, .matched hend ⟨_, h, rfl⟩, rfl⟩
  | noMatch hend h => exact ⟨_, .noMatch hend ⟨_, h, rfl⟩, rfl⟩
  | failed hend h => exact ⟨_, .failed hend ⟨_, h, rfl⟩, rfl⟩

end Ends

namespace Expr

variable [TokenStream S T] (more : S → S → Prop) (replies : Replies N W S)

mutual

/-- **Every end of a match is one of the match that keeps the replies.** -/
theorem lifts_endsBy : ∀ e : Expr T, (e.EndsBy more replies).Lifts (e.EndsBy more replies.logged)
  | .empty => Ends.lifts_done
  | .term accepts => Ends.lifts_term accepts
  | .nonterm rule => Ends.lifts_asks replies rule
  | .seq items => (lifts_allEndBy items).restored .sequence
  | .choice items => lifts_firstEndsBy items
  | .rep least body =>
    (((lifts_endsBy body).rounds least).restored .tooFew).andThen (lifts_endsBy body).roundsWhile
  | .opt body => (lifts_endsBy body).orElse Ends.lifts_done

theorem lifts_allEndBy : ∀ items : List (Expr T),
    Ends.Lifts (AllEndBy more replies items) (AllEndBy more replies.logged items)
  | [] => Ends.lifts_done
  | item :: items => (lifts_endsBy item).andThen (lifts_allEndBy items)

theorem lifts_firstEndsBy : ∀ items : List (Expr T),
    Ends.Lifts (FirstEndsBy more replies items) (FirstEndsBy more replies.logged items)
  | [] => Ends.lifts_refused .choice
  | item :: items => (lifts_endsBy item).orElse (lifts_firstEndsBy items)

end

end Expr

/-! ## 5.  What the replies say -/

variable {V : Type}

/-- The course of a match that had recorded `before` when it began: either all replies let it go on
and it does not fail, or it fails as the last of them does and stands where that one has left it. -/
inductive Course (before : Production T N) :
    List (Asked N W S) → Outcome Unit × Attempt T N V S → Prop where
  | passes {asked outcome b} (hasked : ∀ q ∈ asked, q.reply.outcome.isFailed = false)
      (houtcome : outcome.isFailed = false) (hadds : b.pieces.Extends before) :
      Course before asked (outcome, b)
  | fails {asked last why b} (hasked : ∀ q ∈ asked, q.reply.outcome.isFailed = false)
      (hlast : last.reply.outcome = .failed why) (hstream : b.stream = last.reply.stream)
      (hadds : b.pieces.Extends before) : Course before (asked ++ [last]) (.failed why, b)

namespace Course

variable {before : Production T N} {asked more : List (Asked N W S)} {outcome : Outcome Unit}
  {b : Attempt T N V S} {r : Outcome Unit × Attempt T N V S}

theorem adds (h : Course before asked r) : r.2.pieces.Extends before := by
  cases h with
  | passes _ _ hadds => exact hadds
  | fails _ _ _ hadds => exact hadds

/-- Behind a part that did not fail the match goes on, and asks for more. -/
theorem andThen (h : Course before asked (outcome, b)) (houtcome : outcome.isFailed = false)
    (hrest : Course b.pieces more r) : Course before (asked ++ more) r := by
  cases h with
  | fails => cases houtcome
  | passes hasked _ hadds =>
    cases hrest with
    | passes hmore houtcome' hadds' =>
      exact .passes (fun q hq => (List.mem_append.mp hq).elim (hasked q) (hmore q)) houtcome'
        (hadds'.trans hadds)
    | fails hmore hlast hstream hadds' =>
      rw [← List.append_assoc]
      exact .fails (fun q hq => (List.mem_append.mp hq).elim (hasked q) (hmore q)) hlast hstream
        (hadds'.trans hadds)

/-- A mismatch may be taken for a match. -/
theorem matched_of_noMatch {why : Mismatch} (h : Course before asked (.noMatch why, b)) :
    Course before asked (.matched (), b) := by
  cases h with
  | passes hasked _ hadds => exact .passes hasked rfl hadds

end Course

namespace Ends

/-- From each place the match takes its course with the replies that it adds to the list. -/
def Honest (ends : Ends T N (W × List (Asked N W S)) S) : Prop :=
  ∀ a r, ends a r → ∃ asked, r.2.world.2 = a.world.2 ++ asked ∧ Course a.pieces asked r

variable {first next step : Ends T N (W × List (Asked N W S)) S}

/-- Nothing is asked for. -/
theorem honest_still {ends : Ends T N (W × List (Asked N W S)) S}
    (h : ∀ a r, ends a r → r.1.isFailed = false ∧ r.2.world = a.world ∧
      r.2.pieces.Extends a.pieces) : ends.Honest := by
  intro a r hr
  obtain ⟨houtcome, hworld, hadds⟩ := h a r hr
  refine ⟨[], by rw [hworld, List.append_nil], ?_⟩
  exact .passes (fun _ hq => nomatch hq) houtcome hadds

theorem honest_done : (Done : Ends T N (W × List (Asked N W S)) S).Honest :=
  honest_still fun _ _ h => h ▸ ⟨rfl, rfl, Production.Extends.refl _⟩

theorem honest_refused (why : Mismatch) :
    (Refused why : Ends T N (W × List (Asked N W S)) S).Honest :=
  honest_still fun _ _ h => h ▸ ⟨rfl, rfl, Production.Extends.refl _⟩

/-- What goes on behind a part that did not fail. -/
theorem Honest.goOn (hfirst : first.Honest) {a b : Attempt T N (W × List (Asked N W S)) S}
    {outcome : Outcome Unit} {r : Outcome Unit × Attempt T N (W × List (Asked N W S)) S}
    (h : first a (outcome, b)) (houtcome : outcome.isFailed = false)
    (hrest : ∃ asked, r.2.world.2 = b.world.2 ++ asked ∧ Course b.pieces asked r) :
    ∃ asked, r.2.world.2 = a.world.2 ++ asked ∧ Course a.pieces asked r := by
  obtain ⟨asked, hlist, hcourse⟩ := hfirst _ _ h
  obtain ⟨more, hmore, hcourse'⟩ := hrest
  dsimp only at hlist
  exact ⟨asked ++ more, by rw [hmore, hlist, List.append_assoc],
    hcourse.andThen houtcome hcourse'⟩

theorem Honest.andThen (hfirst : first.Honest) (hnext : next.Honest) :
    (AndThen first next).Honest := by
  intro a r h
  cases h with
  | matched h hthen => exact hfirst.goOn h rfl (hnext _ _ hthen)
  | noMatch h => exact hfirst _ _ h
  | failed h => exact hfirst _ _ h

theorem Honest.orElse (hfirst : first.Honest) (hnext : next.Honest) :
    (OrElse first next).Honest := by
  intro a r h
  cases h with
  | noMatch h helse => exact hfirst.goOn h rfl (hnext _ _ helse)
  | matched h => exact hfirst _ _ h
  | failed h => exact hfirst _ _ h

/-- **What is put back is never a failure**, and then all pieces of before are there again. -/
theorem Honest.restored (hfirst : first.Honest) (why : Mismatch) :
    (Restored why first).Honest := by
  intro a r h
  cases h with
  | @intro _ r h =>
    obtain ⟨outcome, b⟩ := r
    obtain ⟨asked, hlist, hcourse⟩ := hfirst _ _ h
    refine ⟨asked, ?_⟩
    cases outcome with
    | matched value => exact ⟨hlist, hcourse⟩
    | failed cause => exact ⟨hlist, hcourse⟩
    | noMatch reason =>
      refine ⟨hlist, ?_⟩
      cases hcourse with
      | passes hasked _ hadds =>
        refine .passes hasked rfl ?_
        show (b.pieces.rollback a.pieces.checkpoint).Extends a.pieces
        rw [hadds.rollback_eq]
        exact Production.Extends.refl _

theorem Honest.rounds (hstep : step.Honest) : ∀ n, (Rounds step n).Honest
  | 0 => honest_done
  | n + 1 => hstep.andThen (Honest.rounds hstep n)

variable [TokenStream S T]

theorem Honest.roundsWhile {more : S → S → Prop} (hstep : step.Honest) :
    (RoundsWhile more step).Honest := by
  intro a r h
  induction h with
  | atEnd => exact honest_done _ _ rfl
  | last _ h _ => exact hstep _ _ h
  | next _ h _ _ ih => exact hstep.goOn h rfl ih
  | noMatch _ h =>
    obtain ⟨asked, hlist, hcourse⟩ := hstep _ _ h
    exact ⟨asked, hlist, hcourse.matched_of_noMatch⟩
  | failed _ h => exact hstep _ _ h

theorem honest_term (accepts : T → Bool) :
    Honest (fun a r => r = Expr.attemptTerm accepts a : Ends T N (W × List (Asked N W S)) S) := by
  refine honest_still ?_
  rintro ⟨stream, pieces, world⟩ _ rfl
  simp only [Expr.attemptTerm]
  split
  · split
    · exact ⟨rfl, rfl, Production.extends_addTerm _ _⟩
    · exact ⟨rfl, rfl, Production.Extends.refl _⟩
  · exact ⟨rfl, rfl, Production.Extends.refl _⟩

/-- **One question.**  A failure is handed on with the stream as it is. -/
theorem honest_asks (replies : Replies N W S) (rule : RuleId) :
    (Asks replies.logged rule : Ends T N (W × List (Asked N W S)) S).Honest := by
  intro a r h
  cases h with
  | atEnd hend => exact honest_refused _ _ _ rfl
  | matched hend h =>
    obtain ⟨⟨outcome, world, stream⟩, -, heq⟩ := h
    cases heq
    refine ⟨_, rfl, .passes ?_ rfl (Production.extends_addNonterm _ _)⟩
    simp [Outcome.isFailed]
  | noMatch hend h =>
    obtain ⟨⟨outcome, world, stream⟩, -, heq⟩ := h
    cases heq
    refine ⟨_, rfl, .passes ?_ rfl (Production.Extends.refl _)⟩
    simp [Outcome.isFailed]
  | failed hend h =>
    obtain ⟨⟨outcome, world, stream⟩, -, heq⟩ := h
    cases heq
    have hnone : ∀ q ∈ ([] : List (Asked N W S)), q.reply.outcome.isFailed = false :=
      fun _ hq => nomatch hq
    exact ⟨[_], rfl, .fails hnone rfl rfl (Production.Extends.refl _)⟩

end Ends

namespace Expr

variable [TokenStream S T] (more : S → S → Prop) (replies : Replies N W S)

mutual

/-- **Every match takes its course with the replies that it was given.** -/
theorem honest_endsBy : ∀ e : Expr T, (e.EndsBy more replies.logged).Honest
  | .empty => Ends.honest_done
  | .term accepts => Ends.honest_term accepts
  | .nonterm rule => Ends.honest_asks replies rule
  | .seq items => (honest_allEndBy items).restored .sequence
  | .choice items => honest_firstEndsBy items
  | .rep least body =>
    (((honest_endsBy body).rounds least).restored .tooFew).andThen (honest_endsBy body).roundsWhile
  | .opt body => (honest_endsBy body).orElse Ends.honest_done

theorem honest_allEndBy : ∀ items : List (Expr T), Ends.Honest (AllEndBy more replies.logged items)
  | [] => Ends.honest_done
  | item :: items => (honest_endsBy item).andThen (honest_allEndBy items)

theorem honest_firstEndsBy : ∀ items : List (Expr T),
    Ends.Honest (FirstEndsBy more replies.logged items)
  | [] => Ends.honest_refused .choice
  | item :: items => (honest_endsBy item).orElse (honest_firstEndsBy items)

end

end Expr

/-- **Failures pass through.**  The match fails exactly if the last reply is a failure, and with the
same cause; no reply before it is one; the stream is where that reply has left it; and behind the
pieces of before there may be more. -/
structure Transparent (before : Production T N) (asked : List (Asked N W S))
    (r : Outcome Unit × Attempt T N V S) : Prop where
  fails_iff : ∀ why, r.1 = .failed why ↔
    ∃ last, asked.getLast? = some last ∧ last.reply.outcome = .failed why
  ends : ∀ front q back, asked = front ++ q :: back → q.reply.outcome.isFailed = true → back = []
  stays : r.1.isFailed = true → ∀ last, asked.getLast? = some last → r.2.stream = last.reply.stream
  adds : r.2.pieces.Extends before

/-- What a course says about its last reply. -/
theorem Course.transparent {before : Production T N} {asked : List (Asked N W S)}
    {r : Outcome Unit × Attempt T N V S} (h : Course before asked r) :
    Transparent before asked r := by
  have hadds := h.adds
  cases h with
  | @passes _ outcome b hasked houtcome _ =>
    refine ⟨fun why => ⟨fun hwhy => ?_, ?_⟩, ?_, ?_, hadds⟩
    · dsimp only at hwhy
      rw [hwhy] at houtcome
      cases houtcome
    · rintro ⟨last, hlast, hwhy⟩
      have hpasses := hasked last (List.mem_of_getLast? hlast)
      rw [hwhy] at hpasses
      cases hpasses
    · intro front q back heq hq
      rw [hasked q (heq ▸ List.mem_append_right _ List.mem_cons_self)] at hq
      cases hq
    · intro hfailed
      rw [houtcome] at hfailed
      cases hfailed
  | @fails asked last why b hasked hlast hstream _ =>
    refine ⟨fun why' => ⟨fun hwhy => ?_, ?_⟩, ?_, ?_, hadds⟩
    · cases hwhy
      exact ⟨last, List.getLast?_concat, hlast⟩
    · rintro ⟨last', hlast', hwhy⟩
      rw [List.getLast?_concat] at hlast'
      cases hlast'
      rw [hlast] at hwhy
      cases hwhy
      rfl
    · intro front q back heq hq
      rcases List.eq_nil_or_concat back with hback | ⟨back, last', rfl⟩
      · exact hback
      · rw [List.concat_eq_append, ← List.cons_append, ← List.append_assoc] at heq
        have hfront := List.append_inj_left' heq rfl
        rw [hasked q (hfront ▸ List.mem_append_right _ List.mem_cons_self)] at hq
        cases hq
    · intro _ last' hlast'
      rw [List.getLast?_concat] at hlast'
      cases hlast'
      exact hstream

variable [TokenStream S T]

/-- **A match fails exactly if its last question does.**  For every expression, from every place and
with whatever is recorded there: if a dispatcher keeps a list of its replies, the match is the same,
and failures pass through it.  The same holds of every end of the plain recursion, in which a
repetition goes on as long as the offset changes and which need not come to an end: each of its ends
is one with the list, and failures pass through all of these. -/
theorem failure_is_last_reply (e : Expr T) (stream : S) (pieces : Production T N) (world : W) :
    (∀ d : Dispatch N W S,
      let r := e.attempt d.logged ⟨stream, pieces, (world, [])⟩
      (r.1, r.2.forget) = e.attempt d ⟨stream, pieces, world⟩ ∧
        Transparent pieces r.2.world.2 r) ∧
      ∀ replies : Replies N W S,
        (∀ r, e.Returns replies ⟨stream, pieces, world⟩ r →
          ∃ r', e.Returns replies.logged ⟨stream, pieces, (world, [])⟩ r' ∧
            (r'.1, r'.2.forget) = r) ∧
          ∀ r, e.Returns replies.logged ⟨stream, pieces, (world, [])⟩ r →
            Transparent pieces r.2.world.2 r := by
  constructor
  · intro d r
    have hgraph := e.isGraph_attempt d.logged
    rw [d.replies_logged] at hgraph
    obtain ⟨r', hkept, hforget⟩ := e.lifts_endsBy _ d.replies ⟨stream, pieces, (world, [])⟩ _
      ((e.isGraph_attempt d _ _).mpr rfl)
    obtain rfl : r = r' := (hgraph _ _).mp hkept
    obtain ⟨asked, hlist, hcourse⟩ := e.honest_endsBy _ d.replies _ _ hkept
    refine ⟨hforget, ?_⟩
    rw [hlist]
    exact hcourse.transparent
  · intro replies
    simp only [← Expr.endsBy_offset]
    refine ⟨fun r h => e.lifts_endsBy _ replies ⟨stream, pieces, (world, [])⟩ r h, fun r h => ?_⟩
    obtain ⟨asked, hlist, hcourse⟩ := e.honest_endsBy _ replies _ _ h
    rw [hlist]
    exact hcourse.transparent

/-- Each rule takes an even number, and fails over an odd one when it is past it. -/
def evenOrFailed : Dispatch Nat Unit (TokenArray Nat) := fun _ world stream =>
  match stream.ahead with
  | [] => ⟨.noMatch .rule, world, stream⟩
  | number :: _ =>
    if number % 2 = 0 then ⟨.matched number, world, stream.advance⟩
    else ⟨.failed (.other "odd"), world, stream.advance⟩

/-- The third question of a sequence fails, within an option that is the first item of a choice. -/
theorem failure_is_last_reply_third_question :
    let threeRules : Expr Nat := .seq [.nonterm ⟨0⟩, .nonterm ⟨1⟩, .nonterm ⟨2⟩]
    let e : Expr Nat := .choice [.opt threeRules, .term (· == 2)]
    let r := e.attempt evenOrFailed.logged
      ⟨.ofList [2, 4, 5, 6], ⟨⟨0⟩, .nontermList, #[], #[8]⟩, ((), [])⟩
    r.1 = .failed (.other "odd") ∧ r.2.world.2.length = 3 ∧
      ∃ last, r.2.world.2.getLast? = some last ∧ last.reply.outcome = .failed (.other "odd") := by
  intro threeRules e r
  have hfailed : r.1 = .failed (.other "odd") := by decide
  have htransparent := (((failure_is_last_reply e (.ofList [2, 4, 5, 6])
    ⟨⟨0⟩, .nontermList, #[], #[8]⟩ ()).1 evenOrFailed)).2
  exact ⟨hfailed, by decide, (htransparent.fails_iff _).mp hfailed⟩

end GrammarKit
