import GrammarKit.Proofs.Recursion
import GrammarKit.Proofs.Transparency

/-!
# Expressions that may be written in another way

A repetition begins with a sequence of rounds, an option is a choice between the body and nothing, and
brackets around a part of a sequence or of a choice seem to change nothing.  The matches do not look
alike, though.  A sequence inside of a sequence keeps a checkpoint of its own and puts back what the
outer one puts back once more; the rounds of a repetition are counted and then looked at for progress,
and the items of a sequence are not.  So the ends have to be compared one by one, failures included,
behind which nothing is put back at all.

Nothing is asked of the rules: a dispatcher may reply as it likes, also differently each time, and may
move the stream when it refuses.  It does matter that pieces are only added.  Then the outer
checkpoint is never behind the inner one, and what the inner sequence has put back makes no difference
to the outer one.

At the end of the tokens all this is idle.  There an expression asks for nothing and moves nothing, and
whether it matches can be read off it; so a repetition that looks for the end stops no earlier than it
would have done without.

* `SameEnd`: the same end, but for the reason of a mismatch.
* `Ends.PutBack`: the ends of a part, put back where the whole began.
* `Expr.Agrees`: two expressions whose matches come to the same ends.
* `Ends.Idle`: what comes of a match when the tokens are used up.
* `combinators_agree`: the four laws, and the end of the tokens.
-/

namespace GrammarKit

variable {T N W S : Type}

/-! ## 1.  The same end -/

/-- The ends are the same, but for the reason of a mismatch. -/
structure SameEnd (r r' : Outcome Unit × Attempt T N W S) : Prop where
  outcome : r.1 = r'.1 ∨ r.1.isNoMatch = true ∧ r'.1.isNoMatch = true
  attempt : r.2 = r'.2

theorem SameEnd.refl (r : Outcome Unit × Attempt T N W S) : SameEnd r r := ⟨Or.inl rfl, rfl⟩

theorem sameEnd_noMatch (why why' : Mismatch) (a : Attempt T N W S) :
    SameEnd (.noMatch why, a) (.noMatch why', a) := ⟨Or.inr ⟨rfl, rfl⟩, rfl⟩

/-- Each end of one match is an end of the other one, but for the reason of a mismatch. -/
structure SameEnds (ends ends' : Outcome Unit × Attempt T N W S → Prop) : Prop where
  exists_right : ∀ r, ends r → ∃ r', ends' r' ∧ SameEnd r r'
  exists_left : ∀ r', ends' r' → ∃ r, ends r ∧ SameEnd r r'

theorem SameEnds.refl (ends : Outcome Unit × Attempt T N W S → Prop) : SameEnds ends ends :=
  ⟨fun r h => ⟨r, h, .refl r⟩, fun r h => ⟨r, h, .refl r⟩⟩

/-! ## 2.  Going on and going on -/

namespace Ends

variable {first next step : Ends T N W S}

theorem done_andThen (next : Ends T N W S) : AndThen Done next = next := by
  funext a r
  refine propext ⟨fun h => ?_, fun h => .matched rfl h⟩
  cases h with
  | matched h hnext =>
    cases h
    exact hnext
  | noMatch h => cases h
  | failed h => cases h

theorem andThen_done (first : Ends T N W S) : AndThen first Done = first := by
  funext a r
  refine propext ⟨fun h => ?_, fun h => ?_⟩
  · cases h with
    | matched h hdone =>
      cases hdone
      exact h
    | noMatch h => exact h
    | failed h => exact h
  · obtain ⟨outcome, b⟩ := r
    cases outcome with
    | matched value => exact .matched h rfl
    | noMatch why => exact .noMatch h
    | failed why => exact .failed h

/-- **Going on is associative.** -/
theorem andThen_assoc (first second third : Ends T N W S) :
    AndThen (AndThen first second) third = AndThen first (AndThen second third) := by
  funext a r
  refine propext ⟨fun h => ?_, fun h => ?_⟩
  · cases h with
    | matched h hthird =>
      cases h with
      | matched hfirst hsecond => exact .matched hfirst (.matched hsecond hthird)
    | noMatch h =>
      cases h with
      | matched hfirst hsecond => exact .matched hfirst (.noMatch hsecond)
      | noMatch hfirst => exact .noMatch hfirst
    | failed h =>
      cases h with
      | matched hfirst hsecond => exact .matched hfirst (.failed hsecond)
      | failed hfirst => exact .failed hfirst
  · cases h with
    | matched hfirst h =>
      cases h with
      | matched hsecond hthird => exact .matched (.matched hfirst hsecond) hthird
      | noMatch hsecond => exact .noMatch (.matched hfirst hsecond)
      | failed hsecond => exact .failed (.matched hfirst hsecond)
    | noMatch hfirst => exact .noMatch (.noMatch hfirst)
    | failed hfirst => exact .failed (.failed hfirst)

theorem done_orElse (next : Ends T N W S) : OrElse Done next = Done := by
  funext a r
  refine propext ⟨fun h => ?_, ?_⟩
  · cases h with
    | noMatch h => cases h
    | matched h => exact h
    | failed h => cases h
  · rintro rfl
    exact .matched rfl

theorem refused_orElse (why : Mismatch) (next : Ends T N W S) : OrElse (Refused why) next = next := by
  funext a r
  refine propext ⟨fun h => ?_, fun h => .noMatch rfl h⟩
  cases h with
  | noMatch h hnext =>
    cases h
    exact hnext
  | matched h => cases h
  | failed h => cases h

/-- **Trying in order is associative.** -/
theorem orElse_assoc (first second third : Ends T N W S) :
    OrElse (OrElse first second) third = OrElse first (OrElse second third) := by
  funext a r
  refine propext ⟨fun h => ?_, fun h => ?_⟩
  · cases h with
    | noMatch h hthird =>
      cases h with
      | noMatch hfirst hsecond => exact .noMatch hfirst (.noMatch hsecond hthird)
    | matched h =>
      cases h with
      | noMatch hfirst hsecond => exact .noMatch hfirst (.matched hsecond)
      | matched hfirst => exact .matched hfirst
    | failed h =>
      cases h with
      | noMatch hfirst hsecond => exact .noMatch hfirst (.failed hsecond)
      | failed hfirst => exact .failed hfirst
  · cases h with
    | noMatch hfirst h =>
      cases h with
      | noMatch hsecond hthird => exact .noMatch (.noMatch hfirst hsecond) hthird
      | matched hsecond => exact .matched (.noMatch hfirst hsecond)
      | failed hsecond => exact .failed (.noMatch hfirst hsecond)
    | matched hfirst => exact .matched (.matched hfirst)
    | failed hfirst => exact .failed (.failed hfirst)

/-! ## 3.  Putting back -/

/-- A match that adds pieces only. -/
def Adds (ends : Ends T N W S) : Prop := ∀ a r, ends a r → r.2.pieces.Extends a.pieces

/-- Checkpoints in the order in which they were taken: what is forgotten down to the later one and
then down to the earlier one is forgotten down to the earlier one. -/
theorem restore_restore {a b c : Attempt T N W S} (h : b.pieces.Extends a.pieces) :
    (c.restore b.stream b.pieces.checkpoint).restore a.stream a.pieces.checkpoint =
      c.restore a.stream a.pieces.checkpoint := by
  have hshrink : ∀ {α : Type} {xs ys zs : Array α}, xs.toList <+: ys.toList →
      (zs.shrink ys.size).shrink xs.size = zs.shrink xs.size := by
    intro α xs ys zs hprefix
    have hle : xs.size ≤ ys.size := by simpa using hprefix.length_le
    apply Array.ext'
    rw [Array.toList_shrink, Array.toList_shrink, Array.toList_shrink, List.take_take,
      Nat.min_eq_left hle]
  simp only [Attempt.restore, Production.rollback, Production.checkpoint, hshrink h.terms,
    hshrink h.nonterms]

/-- The ends of a part of a match, put back to where the match began, which is `a`. -/
def PutBack (a : Attempt T N W S) (why : Mismatch) (ends : Ends T N W S) : Ends T N W S :=
  fun b r => ∃ r', ends b r' ∧ r = Attempt.orRestore a.stream a.pieces.checkpoint why r'

theorem restored_iff {why : Mismatch} {ends : Ends T N W S} {a : Attempt T N W S}
    {r : Outcome Unit × Attempt T N W S} :
    Restored why ends a r ↔ PutBack a why ends a r := by
  constructor
  · rintro ⟨h⟩
    exact ⟨_, h, rfl⟩
  · rintro ⟨r', h, rfl⟩
    exact .intro h

theorem restored_matched_iff {why : Mismatch} {ends : Ends T N W S} {a b : Attempt T N W S} :
    Restored why ends a (.matched (), b) ↔ ends a (.matched (), b) := by
  refine ⟨fun h => ?_, fun h => .intro h⟩
  obtain ⟨⟨outcome, c⟩, hends, hend⟩ := restored_iff.mp h
  cases outcome <;> cases hend
  exact hends

theorem restored_failed_iff {why : Mismatch} {cause : Failure} {ends : Ends T N W S}
    {a b : Attempt T N W S} :
    Restored why ends a (.failed cause, b) ↔ ends a (.failed cause, b) := by
  refine ⟨fun h => ?_, fun h => .intro h⟩
  obtain ⟨⟨outcome, c⟩, hends, hend⟩ := restored_iff.mp h
  cases outcome <;> cases hend
  exact hends

/-- Only a mismatch is put back. -/
theorem exists_of_restored_noMatch {why reason : Mismatch} {ends : Ends T N W S}
    {a b : Attempt T N W S} (h : Restored why ends a (.noMatch reason, b)) :
    reason = why ∧ ∃ reason' c, ends a (.noMatch reason', c) ∧
      b = c.restore a.stream a.pieces.checkpoint := by
  obtain ⟨⟨outcome, c⟩, hends, hend⟩ := restored_iff.mp h
  cases outcome <;> cases hend
  exact ⟨rfl, _, c, hends, rfl⟩

/-- **What an inner sequence has put back makes no difference**, since the outer one puts back
more. -/
theorem putBack_restored_andThen {a b : Attempt T N W S} {why inner : Mismatch}
    (hb : b.pieces.Extends a.pieces) (first next : Ends T N W S) :
    PutBack a why (AndThen (Restored inner first) next) b = PutBack a why (AndThen first next) b := by
  have hrefused : ∀ (c : Attempt T N W S) (reason reason' : Mismatch),
      Attempt.orRestore a.stream a.pieces.checkpoint why
          (.noMatch reason, c.restore b.stream b.pieces.checkpoint) =
        Attempt.orRestore a.stream a.pieces.checkpoint why (.noMatch reason', c) := by
    intro c reason reason'
    simp only [Attempt.orRestore, restore_restore hb]
  funext r
  refine propext ⟨?_, ?_⟩
  · rintro ⟨r', h, rfl⟩
    cases h with
    | matched h hnext => exact ⟨_, .matched (restored_matched_iff.mp h) hnext, rfl⟩
    | noMatch h =>
      obtain ⟨-, reason, c, hfirst, rfl⟩ := exists_of_restored_noMatch h
      exact ⟨_, .noMatch hfirst, hrefused c _ _⟩
    | failed h => exact ⟨_, .failed (restored_failed_iff.mp h), rfl⟩
  · rintro ⟨r', h, rfl⟩
    cases h with
    | matched hfirst hnext => exact ⟨_, .matched (.intro hfirst) hnext, rfl⟩
    | noMatch hfirst => exact ⟨_, .noMatch (.intro hfirst), (hrefused _ _ _).symm⟩
    | failed hfirst => exact ⟨_, .failed (.intro hfirst), rfl⟩

/-- What goes on may be exchanged wherever it is put back to the same ends. -/
theorem putBack_andThen_congr {a b : Attempt T N W S} {why : Mismatch} {next' : Ends T N W S}
    (hadds : first.Adds) (hb : b.pieces.Extends a.pieces)
    (hnext : ∀ c : Attempt T N W S, c.pieces.Extends a.pieces →
      PutBack a why next c = PutBack a why next' c) :
    PutBack a why (AndThen first next) b = PutBack a why (AndThen first next') b := by
  have hgo : ∀ {next next' : Ends T N W S}, (∀ c : Attempt T N W S, c.pieces.Extends a.pieces →
      PutBack a why next c = PutBack a why next' c) → ∀ r, PutBack a why (AndThen first next) b r →
      PutBack a why (AndThen first next') b r := by
    rintro next next' hnext r ⟨r', h, rfl⟩
    cases h with
    | @matched _ c r' hfirst h =>
      have hput : PutBack a why next c (Attempt.orRestore a.stream a.pieces.checkpoint why r') :=
        ⟨r', h, rfl⟩
      rw [hnext c ((hadds _ _ hfirst).trans hb)] at hput
      obtain ⟨r'', h', heq⟩ := hput
      exact ⟨r'', .matched hfirst h', heq⟩
    | noMatch hfirst => exact ⟨_, .noMatch hfirst, rfl⟩
    | failed hfirst => exact ⟨_, .failed hfirst, rfl⟩
  funext r
  exact propext ⟨hgo hnext r, hgo (fun c hc => (hnext c hc).symm) r⟩

/-- **A sequence inside of a sequence**, with parts before it and behind. -/
theorem restored_andThen_restored {why inner : Mismatch} (hadds : first.Adds)
    (middle last : Ends T N W S) :
    Restored why (AndThen first (AndThen (Restored inner middle) last)) =
      Restored why (AndThen first (AndThen middle last)) := by
  funext a r
  rw [restored_iff.eq, restored_iff.eq]
  have hinner : ∀ c : Attempt T N W S, c.pieces.Extends a.pieces →
      PutBack a why (AndThen (Restored inner middle) last) c =
        PutBack a why (AndThen middle last) c := fun c hc =>
    putBack_restored_andThen hc middle last
  rw [putBack_andThen_congr hadds (Production.Extends.refl a.pieces) hinner]

/-- Behind the first part no mismatch is left to be put back, so it is all the same how far the putting
back reaches. -/
theorem sameEnds_restored_andThen (hnext : ∀ a why b, ¬ next a (.noMatch why, b))
    (inner outer : Mismatch) (a : Attempt T N W S) :
    SameEnds (AndThen (Restored inner first) next a) (Restored outer (AndThen first next) a) := by
  have hkeeps : ∀ {b r}, next b r →
      Attempt.orRestore a.stream a.pieces.checkpoint outer r = r := by
    rintro b ⟨outcome, c⟩ h
    cases outcome with
    | matched value => rfl
    | noMatch why => exact absurd h (hnext b why c)
    | failed why => rfl
  refine ⟨fun r h => ?_, fun r h => ?_⟩
  · cases h with
    | matched h hthen =>
      refine ⟨r, ?_, .refl r⟩
      rw [← hkeeps hthen]
      exact .intro (.matched (restored_matched_iff.mp h) hthen)
    | noMatch h =>
      obtain ⟨rfl, reason, c, hfirst, rfl⟩ := exists_of_restored_noMatch h
      exact ⟨_, .intro (.noMatch hfirst), sameEnd_noMatch _ outer _⟩
    | failed h => exact ⟨_, .intro (.failed (restored_failed_iff.mp h)), .refl _⟩
  · obtain ⟨r', hboth, rfl⟩ := restored_iff.mp h
    cases hboth with
    | matched hfirst hthen =>
      rw [hkeeps hthen]
      exact ⟨r', .matched (.intro hfirst) hthen, .refl r'⟩
    | noMatch hfirst => exact ⟨_, .noMatch (.intro hfirst), sameEnd_noMatch inner outer _⟩
    | failed hfirst => exact ⟨_, .failed (.intro hfirst), .refl _⟩

/-! ## 4.  The end of the tokens -/

/-- At this place the match has one end, at the place itself, and it does not fail there; `mayMatch`
tells whether it matches. -/
def Idle (ends : Ends T N W S) (a : Attempt T N W S) (mayMatch : Bool) : Prop :=
  ∃ outcome : Outcome Unit, outcome.isFailed = false ∧ outcome.isMatched = mayMatch ∧
    ∀ r, ends a r ↔ r = (outcome, a)

variable {a : Attempt T N W S} {m m' : Bool}

theorem idle_done : Idle (Done : Ends T N W S) a true :=
  ⟨.matched (), rfl, rfl, fun _ => Iff.rfl⟩

theorem idle_refused (why : Mismatch) : Idle (Refused why : Ends T N W S) a false :=
  ⟨.noMatch why, rfl, rfl, fun _ => Iff.rfl⟩

/-- An idle match either matches or refuses. -/
theorem Idle.cases (h : first.Idle a m) :
    (m = true ∧ ∀ r, first a r ↔ r = (.matched (), a)) ∨
      m = false ∧ ∃ why, ∀ r, first a r ↔ r = (.noMatch why, a) := by
  obtain ⟨outcome, hfailed, rfl, hends⟩ := h
  cases outcome with
  | matched value => exact Or.inl ⟨rfl, hends⟩
  | noMatch why => exact Or.inr ⟨rfl, why, hends⟩
  | failed why => cases hfailed

theorem Idle.andThen (hfirst : first.Idle a m) (hnext : next.Idle a m') :
    (AndThen first next).Idle a (m && m') := by
  rcases hfirst.cases with ⟨rfl, hends⟩ | ⟨rfl, why, hends⟩
  · obtain ⟨outcome, hfailed, hmatched, hends'⟩ := hnext
    refine ⟨outcome, hfailed, hmatched.trans (Bool.true_and m').symm, fun r => ?_⟩
    rw [← hends']
    refine ⟨fun h => ?_, fun h => .matched ((hends _).mpr rfl) h⟩
    cases h with
    | matched h hthen =>
      cases (hends _).mp h
      exact hthen
    | noMatch h => cases (hends _).mp h
    | failed h => cases (hends _).mp h
  · refine ⟨.noMatch why, rfl, (Bool.false_and m').symm, fun r => ⟨fun h => ?_, ?_⟩⟩
    · cases h with
      | matched h => cases (hends _).mp h
      | noMatch h => exact (hends _).mp h
      | failed h => cases (hends _).mp h
    · rintro rfl
      exact .noMatch ((hends _).mpr rfl)

theorem Idle.orElse (hfirst : first.Idle a m) (hnext : next.Idle a m') :
    (OrElse first next).Idle a (m || m') := by
  rcases hfirst.cases with ⟨rfl, hends⟩ | ⟨rfl, why, hends⟩
  · refine ⟨.matched (), rfl, (Bool.true_or m').symm, fun r => ⟨fun h => ?_, ?_⟩⟩
    · cases h with
      | noMatch h => cases (hends _).mp h
      | matched h => exact (hends _).mp h
      | failed h => cases (hends _).mp h
    · rintro rfl
      exact .matched ((hends _).mpr rfl)
  · obtain ⟨outcome, hfailed, hmatched, hends'⟩ := hnext
    refine ⟨outcome, hfailed, hmatched.trans (Bool.false_or m').symm, fun r => ?_⟩
    rw [← hends']
    refine ⟨fun h => ?_, fun h => .noMatch ((hends _).mpr rfl) h⟩
    cases h with
    | noMatch h helse =>
      cases (hends _).mp h
      exact helse
    | matched h => cases (hends _).mp h
    | failed h => cases (hends _).mp h

/-- Where nothing was done nothing is put back. -/
theorem Idle.restored (hfirst : first.Idle a m) (why : Mismatch) :
    (Restored why first).Idle a m := by
  have hself : a.restore a.stream a.pieces.checkpoint = a := by
    rw [Attempt.restore, Production.rollback_checkpoint]
  have hput : ∀ r, Restored why first a r ↔
      ∃ r', first a r' ∧ r = Attempt.orRestore a.stream a.pieces.checkpoint why r' :=
    fun r => restored_iff
  rcases hfirst.cases with ⟨rfl, hends⟩ | ⟨rfl, reason, hends⟩
  · refine ⟨.matched (), rfl, rfl, fun r => ?_⟩
    simp only [hput, hends, exists_eq_left, Attempt.orRestore]
  · refine ⟨.noMatch why, rfl, rfl, fun r => ?_⟩
    simp only [hput, hends, exists_eq_left, Attempt.orRestore, hself]

theorem Idle.rounds (hstep : step.Idle a m) : ∀ n, (Rounds step n).Idle a (n == 0 || m)
  | 0 => idle_done
  | n + 1 => by
    have hmore := hstep.andThen (Idle.rounds hstep n)
    have hcount : (m && (n == 0 || m)) = (n + 1 == 0 || m) := by
      cases m <;> simp
    rwa [hcount] at hmore

variable [TokenStream S T] {more : S → S → Prop}

theorem idle_roundsWhile (hend : TokenStream.atEnd a.stream = true) :
    (RoundsWhile more step).Idle a true := by
  refine ⟨.matched (), rfl, rfl, fun r => ⟨fun h => ?_, ?_⟩⟩
  · have hopen : ¬ TokenStream.atEnd a.stream = false := by simp [hend]
    cases h with
    | atEnd => rfl
    | last h => exact absurd h hopen
    | next h => exact absurd h hopen
    | noMatch h => exact absurd h hopen
    | failed h => exact absurd h hopen
  · rintro rfl
    exact .atEnd hend

theorem idle_term (accepts : T → Bool) (hend : TokenStream.atEnd a.stream = true) :
    Idle (fun a r => r = Expr.attemptTerm accepts a : Ends T N W S) a false := by
  obtain ⟨stream, pieces, world⟩ := a
  have hpeek : TokenStream.peek stream = none := TokenStream.atEnd_iff.mp hend
  refine ⟨.noMatch .term, rfl, rfl, fun r => ?_⟩
  simp only [Expr.attemptTerm, hpeek]

theorem idle_asks (replies : Replies N W S) (rule : RuleId)
    (hend : TokenStream.atEnd a.stream = true) :
    (Asks replies rule : Ends T N W S).Idle a false := by
  refine ⟨.noMatch .nontermAtEnd, rfl, rfl, fun r => ⟨fun h => ?_, ?_⟩⟩
  · cases h with
    | atEnd => rfl
    | matched hopen => simp [hend] at hopen
    | noMatch hopen => simp [hend] at hopen
    | failed hopen => simp [hend] at hopen
  · rintro rfl
    exact .atEnd hend

/-! ## 5.  Rounds that do not look for the end -/

/-- Rounds as long as the step matches and has moved on as `more` tells, whether or not there are
tokens. -/
inductive RoundsWhileMoving (more : S → S → Prop) (step : Ends T N W S) : Ends T N W S where
  | last {a b} (hstep : step a (.matched (), b)) (hmore : ¬ more a.stream b.stream) :
      RoundsWhileMoving more step a (.matched (), b)
  | next {a b r} (hstep : step a (.matched (), b)) (hmore : more a.stream b.stream)
      (hrest : RoundsWhileMoving more step b r) : RoundsWhileMoving more step a r
  | noMatch {a b why} (hstep : step a (.noMatch why, b)) :
      RoundsWhileMoving more step a (.matched (), b)
  | failed {a b why} (hstep : step a (.failed why, b)) :
      RoundsWhileMoving more step a (.failed why, b)

/-- **It makes no difference whether a repetition looks for the end**, if its body is idle there and
standing still is no move. -/
theorem roundsWhile_eq_roundsWhileMoving (hstill : ∀ s, ¬ more s s)
    (hidle : ∀ a : Attempt T N W S, TokenStream.atEnd a.stream = true → ∃ m, step.Idle a m) :
    RoundsWhile more step = RoundsWhileMoving more step := by
  funext a r
  refine propext ⟨fun h => ?_, fun h => ?_⟩
  · induction h with
    | @atEnd a hend =>
      obtain ⟨m, h⟩ := hidle a hend
      rcases h.cases with ⟨-, hends⟩ | ⟨-, why, hends⟩
      · exact .last ((hends _).mpr rfl) (hstill a.stream)
      · exact .noMatch ((hends _).mpr rfl)
    | last _ h hmore => exact .last h hmore
    | next _ h hmore _ ih => exact .next h hmore ih
    | noMatch _ h => exact .noMatch h
    | failed _ h => exact .failed h
  · have hopen : ∀ {a outcome b}, step a (outcome, b) →
        TokenStream.atEnd a.stream = false ∨
          TokenStream.atEnd a.stream = true ∧ outcome.isFailed = false ∧ b = a := by
      intro a outcome b h
      cases hend : TokenStream.atEnd a.stream with
      | false => exact Or.inl rfl
      | true =>
        obtain ⟨m, outcome', hfailed, -, hends⟩ := hidle a hend
        cases (hends _).mp h
        exact Or.inr ⟨rfl, hfailed, rfl⟩
    induction h with
    | last h hmore =>
      rcases hopen h with hend | ⟨hend, -, rfl⟩
      · exact .last hend h hmore
      · exact .atEnd hend
    | next h hmore _ ih =>
      rcases hopen h with hend | ⟨hend, -, rfl⟩
      · exact .next hend h hmore ih
      · exact absurd hmore (hstill _)
    | noMatch h =>
      rcases hopen h with hend | ⟨hend, -, rfl⟩
      · exact .noMatch hend h
      · exact .atEnd hend
    | failed h =>
      rcases hopen h with hend | ⟨-, hfailed, -⟩
      · exact .failed hend h
      · cases hfailed

theorem not_roundsWhile_noMatch (a : Attempt T N W S) (why : Mismatch) (b : Attempt T N W S) :
    ¬ RoundsWhile more step a (.noMatch why, b) := by
  intro h
  generalize hr : (Outcome.noMatch why, b) = r at h
  induction h with
  | atEnd => cases hr
  | last => cases hr
  | next _ _ _ _ ih => exact ih hr
  | noMatch => cases hr
  | failed => cases hr

end Ends

/-! ## 6.  Expressions -/

namespace Expr

section Laws

variable [TokenStream S T] (more : S → S → Prop) (replies : Replies N W S)

/-- Pieces are only added, whatever the replies are. -/
theorem adds_allEndBy (items : List (Expr T)) : (AllEndBy more replies items).Adds := by
  intro a r h
  obtain ⟨r', hkept, rfl⟩ :=
    lifts_allEndBy more replies items ⟨a.stream, a.pieces, (a.world, [])⟩ r h
  obtain ⟨asked, -, hcourse⟩ := honest_allEndBy more replies items _ _ hkept
  exact hcourse.adds

theorem allEndBy_append (front back : List (Expr T)) :
    AllEndBy more replies (front ++ back) =
      Ends.AndThen (AllEndBy more replies front) (AllEndBy more replies back) := by
  induction front with
  | nil => exact (Ends.done_andThen _).symm
  | cons item front ih => rw [List.cons_append, AllEndBy, ih, AllEndBy, Ends.andThen_assoc]

theorem firstEndsBy_append (front back : List (Expr T)) :
    FirstEndsBy more replies (front ++ back) =
      Ends.OrElse (FirstEndsBy more replies front) (FirstEndsBy more replies back) := by
  induction front with
  | nil => exact (Ends.refused_orElse _ _).symm
  | cons item front ih => rw [List.cons_append, FirstEndsBy, ih, FirstEndsBy, Ends.orElse_assoc]

theorem allEndBy_replicate (n : Nat) (body : Expr T) :
    AllEndBy more replies (List.replicate n body) = Ends.Rounds (body.EndsBy more replies) n := by
  induction n with
  | zero => rfl
  | succ n ih => rw [List.replicate_succ, AllEndBy, ih, Ends.Rounds]

/-- A sequence inside of a sequence. -/
theorem endsBy_seq_flatten (front items back : List (Expr T)) :
    (seq (front ++ seq items :: back)).EndsBy more replies =
      (seq (front ++ items ++ back)).EndsBy more replies := by
  rw [EndsBy, EndsBy, allEndBy_append, AllEndBy, EndsBy,
    Ends.restored_andThen_restored (adds_allEndBy more replies front), ← allEndBy_append,
    ← allEndBy_append, List.append_assoc]

/-- A choice inside of a choice. -/
theorem endsBy_choice_flatten (front items back : List (Expr T)) :
    (choice (front ++ choice items :: back)).EndsBy more replies =
      (choice (front ++ items ++ back)).EndsBy more replies := by
  rw [EndsBy, EndsBy, firstEndsBy_append, FirstEndsBy, EndsBy, ← firstEndsBy_append,
    ← firstEndsBy_append, List.append_assoc]

/-- An option is a choice with nothing as its last item. -/
theorem endsBy_opt (body : Expr T) :
    (opt body).EndsBy more replies = (choice [body, empty]).EndsBy more replies := by
  rw [EndsBy, EndsBy, FirstEndsBy, FirstEndsBy, EndsBy, Ends.done_orElse]

/-- The least number of rounds is a sequence. -/
theorem sameEnds_rep (least : Nat) (body : Expr T) (a : Attempt T N W S) :
    SameEnds ((rep least body).EndsBy more replies a)
      ((seq (List.replicate least body ++ [rep 0 body])).EndsBy more replies a) := by
  have hnone : Ends.Restored .tooFew (Ends.Done : Ends T N W S) = Ends.Done := by
    funext b r
    refine propext (Ends.restored_iff.trans ⟨?_, ?_⟩)
    · rintro ⟨_, rfl, rfl⟩
      rfl
    · rintro rfl
      exact ⟨_, rfl, rfl⟩
  have hmore : AllEndBy more replies [rep 0 body] =
      Ends.RoundsWhile more (body.EndsBy more replies) := by
    rw [AllEndBy, AllEndBy, EndsBy, Ends.andThen_done, Ends.Rounds, hnone, Ends.done_andThen]
  rw [EndsBy, EndsBy, allEndBy_append, allEndBy_replicate, hmore]
  exact Ends.sameEnds_restored_andThen Ends.not_roundsWhile_noMatch _ _ a

mutual

/-- **At the end of the tokens an expression is idle.**  It matches just if it could do so without a
token and without any rule. -/
theorem idle_endsBy {a : Attempt T N W S} (hend : TokenStream.atEnd a.stream = true) :
    ∀ e : Expr T, (e.EndsBy more replies).Idle a (e.mayBeEmpty fun _ => false)
  | .empty => Ends.idle_done
  | .term accepts => Ends.idle_term accepts hend
  | .nonterm rule => Ends.idle_asks replies rule hend
  | .seq items => (idle_allEndBy hend items).restored .sequence
  | .choice items => idle_firstEndsBy hend items
  | .rep least body => by
    have hrounds := ((idle_endsBy hend body).rounds least).restored .tooFew
    have hwhile : (Ends.RoundsWhile more (body.EndsBy more replies)).Idle a true :=
      Ends.idle_roundsWhile hend
    have hrep := hrounds.andThen hwhile
    rwa [Bool.and_true] at hrep
  | .opt body => by
    have hopt := (idle_endsBy hend body).orElse Ends.idle_done
    rwa [Bool.or_true] at hopt

theorem idle_allEndBy {a : Attempt T N W S} (hend : TokenStream.atEnd a.stream = true) :
    ∀ items : List (Expr T),
      (AllEndBy more replies items).Idle a (allMayBeEmpty (fun _ => false) items)
  | [] => Ends.idle_done
  | item :: items => (idle_endsBy hend item).andThen (idle_allEndBy hend items)

theorem idle_firstEndsBy {a : Attempt T N W S} (hend : TokenStream.atEnd a.stream = true) :
    ∀ items : List (Expr T),
      (FirstEndsBy more replies items).Idle a (anyMayBeEmpty (fun _ => false) items)
  | [] => Ends.idle_refused .choice
  | item :: items => (idle_endsBy hend item).orElse (idle_firstEndsBy hend items)

end

end Laws

/-- **The two expressions may be written for each other**: from the same place, with the same pieces
and the same world, their matches come to the same end, but for the reason of a mismatch.  That is the
outcome, the stream, the pieces and the world, and the list of all that was asked for and replied, if
it is kept.  It holds for every dispatcher, and for the plain recursion, whose questions may have any
replies or none. -/
def Agrees (e e' : Expr T) : Prop :=
  ∀ {N W S : Type} [TokenStream S T] (stream : S) (pieces : Production T N) (world : W),
    (∀ d : Dispatch N W S,
      SameEnd (e.attempt d ⟨stream, pieces, world⟩) (e'.attempt d ⟨stream, pieces, world⟩) ∧
        SameEnd (e.attempt d.logged ⟨stream, pieces, (world, [])⟩)
          (e'.attempt d.logged ⟨stream, pieces, (world, [])⟩)) ∧
      ∀ replies : Replies N W S,
        SameEnds (e.Returns replies ⟨stream, pieces, world⟩)
            (e'.Returns replies ⟨stream, pieces, world⟩) ∧
          SameEnds (e.Returns replies.logged ⟨stream, pieces, (world, [])⟩)
            (e'.Returns replies.logged ⟨stream, pieces, (world, [])⟩)

/-- It is enough to compare the ends, for every test of having moved on. -/
theorem agrees_of_sameEnds {e e' : Expr T}
    (h : ∀ {N W S : Type} [TokenStream S T] (more : S → S → Prop) (replies : Replies N W S)
      (a : Attempt T N W S), SameEnds (e.EndsBy more replies a) (e'.EndsBy more replies a)) :
    e.Agrees e' := by
  have hrun : ∀ {N W S : Type} [TokenStream S T] (d : Dispatch N W S) (a : Attempt T N W S),
      SameEnd (e.attempt d a) (e'.attempt d a) := by
    intro N W S _ d a
    obtain ⟨r', h', hsame⟩ := (h _ d.replies a).exists_right _ ((e.isGraph_attempt d _ _).mpr rfl)
    rwa [← (e'.isGraph_attempt d _ _).mp h'] at hsame
  intro N W S _ stream pieces world
  refine ⟨fun d => ⟨hrun d _, hrun d.logged _⟩, fun replies => ?_⟩
  simp only [← endsBy_offset]
  exact ⟨h _ replies _, h _ replies.logged _⟩

variable [TokenStream S T]

/-- The match that runs is idle at the end of the tokens. -/
theorem attempt_atEnd (d : Dispatch N W S) (e : Expr T) {a : Attempt T N W S}
    (hend : TokenStream.atEnd a.stream = true) :
    ∃ outcome : Outcome Unit, outcome.isFailed = false ∧
      outcome.isMatched = e.mayBeEmpty (fun _ => false) ∧ e.attempt d a = (outcome, a) := by
  obtain ⟨outcome, hfailed, hmatched, hends⟩ := idle_endsBy _ d.replies hend e
  exact ⟨outcome, hfailed, hmatched, (e.isGraph_attempt d _ _).mp ((hends _).mpr rfl)⟩

/-- **The rounds of a repetition, written without a look for the end.** -/
theorem roundsWhileAny_eq_next (d : Dispatch N W S) (e : Expr T) (a : Attempt T N W S) :
    a.roundsWhileAny (fun a => e.attempt d a) =
      match e.attempt d a with
      | (.matched (), b) =>
        if TokenStream.remaining b.stream < TokenStream.remaining a.stream then
          b.roundsWhileAny (fun a => e.attempt d a)
        else (.matched (), b)
      | (.noMatch _, b) => (.matched (), b)
      | (.failed why, b) => (.failed why, b) := by
  by_cases hend : TokenStream.atEnd a.stream = true
  · obtain ⟨outcome, hfailed, -, heq⟩ := attempt_atEnd d e hend
    rw [Attempt.roundsWhileAny, if_pos hend, heq]
    cases outcome with
    | matched value => exact (if_neg (Nat.lt_irrefl _)).symm
    | noMatch why => rfl
    | failed why => cases hfailed
  · rw [Attempt.roundsWhileAny]
    exact if_neg hend

end Expr

/-- **The algebra of expressions.**  A repetition may be written as a sequence of its least number of
rounds with a repetition behind them; a sequence inside of a sequence and a choice inside of a choice
may be written without the brackets; and an option may be written as a choice between the body and
nothing.

When the tokens are used up, a match of any expression has exactly one end, whatever the rules would
reply and even if they do not reply at all: it asks for nothing, records nothing, stays where it is
and does not fail.  Hence a repetition goes on in the same way whether or not it looks for the end,
with either test of having moved on. -/
theorem combinators_agree :
    (∀ (least : Nat) (body : Expr T),
      (Expr.rep least body).Agrees (.seq (List.replicate least body ++ [.rep 0 body]))) ∧
    (∀ front items back : List (Expr T),
      (Expr.seq (front ++ .seq items :: back)).Agrees (.seq (front ++ items ++ back))) ∧
    (∀ front items back : List (Expr T),
      (Expr.choice (front ++ .choice items :: back)).Agrees (.choice (front ++ items ++ back))) ∧
    (∀ body : Expr T, (Expr.opt body).Agrees (.choice [body, .empty])) ∧
    ∀ {N W S : Type} [TokenStream S T] (e : Expr T),
      (∀ a : Attempt T N W S, TokenStream.atEnd a.stream = true →
        (∀ d, ∃ outcome : Outcome Unit, outcome.isFailed = false ∧ e.attempt d a = (outcome, a)) ∧
          ∀ replies, ∃ outcome : Outcome Unit, outcome.isFailed = false ∧
            ∀ r, e.Returns replies a r ↔ r = (outcome, a)) ∧
      (∀ (d : Dispatch N W S) (a : Attempt T N W S),
        a.roundsWhileAny (fun a => e.attempt d a) =
          match e.attempt d a with
          | (.matched (), b) =>
            if TokenStream.remaining b.stream < TokenStream.remaining a.stream then
              b.roundsWhileAny (fun a => e.attempt d a)
            else (.matched (), b)
          | (.noMatch _, b) => (.matched (), b)
          | (.failed why, b) => (.failed why, b)) ∧
      ∀ replies : Replies N W S,
        Ends.WhileAny (e.Returns replies) =
          Ends.RoundsWhileMoving (fun s s' => TokenStream.offset s' ≠ TokenStream.offset s)
            (e.Returns replies) := by
  refine ⟨fun least body => ?_, fun front items back => ?_, fun front items back => ?_,
    fun body => ?_, fun {N W S} _ e => ⟨fun a hend => ⟨fun d => ?_, fun replies => ?_⟩,
      fun d => Expr.roundsWhileAny_eq_next d e, fun replies => ?_⟩⟩
  · exact Expr.agrees_of_sameEnds fun more replies => Expr.sameEnds_rep more replies least body
  · refine Expr.agrees_of_sameEnds fun more replies a => ?_
    rw [Expr.endsBy_seq_flatten]
    exact .refl _
  · refine Expr.agrees_of_sameEnds fun more replies a => ?_
    rw [Expr.endsBy_choice_flatten]
    exact .refl _
  · refine Expr.agrees_of_sameEnds fun more replies a => ?_
    rw [Expr.endsBy_opt]
    exact .refl _
  · obtain ⟨outcome, hfailed, -, heq⟩ := Expr.attempt_atEnd d e hend
    exact ⟨outcome, hfailed, heq⟩
  · obtain ⟨outcome, hfailed, -, hends⟩ := Expr.idle_endsBy
      (fun s s' => TokenStream.offset s' ≠ TokenStream.offset s) replies hend e
    rw [Expr.endsBy_offset] at hends
    exact ⟨outcome, hfailed, hends⟩
  · rw [← Ends.roundsWhile_offset, ← Expr.endsBy_offset]
    exact Ends.roundsWhile_eq_roundsWhileMoving (fun s => not_not.mpr rfl)
      fun a hend => ⟨_, Expr.idle_endsBy _ replies hend e⟩

/-- Each rule takes an even number; an odd one it refuses, but it is past it then. -/
def evenOrPast : Dispatch Nat Unit (TokenArray Nat) := fun _ world stream =>
  match stream.ahead with
  | [] => ⟨.noMatch .rule, world, stream⟩
  | number :: _ =>
    if number % 2 = 0 then ⟨.matched number, world, stream.advance⟩
    else ⟨.noMatch .rule, world, stream.advance⟩

/-- The inner sequence refuses at its second item, behind the number that the rule has skipped. -/
theorem combinators_agree_skipped :
    let inner : List (Expr Nat) := [.nonterm ⟨0⟩, .nonterm ⟨1⟩]
    let nested : Expr Nat := .seq ([.term (· == 1)] ++ .seq inner :: [.term (· == 7)])
    let flat : Expr Nat := .seq ([.term (· == 1)] ++ inner ++ [.term (· == 7)])
    let pieces : Production Nat Nat := ⟨⟨0⟩, .termNontermList, #[], #[8]⟩
    let start : Attempt Nat Nat (Unit × List (Asked Nat Unit (TokenArray Nat))) (TokenArray Nat) :=
      ⟨.ofList [1, 2, 5, 7], pieces, ((), [])⟩
    (flat.attempt evenOrPast.logged start).2.stream.position = 0 ∧
      (nested.attempt evenOrPast.logged start).2.stream.position = 0 ∧
      (nested.attempt evenOrPast.logged start).2.world.2.map (·.rule) = [⟨0⟩, ⟨1⟩] := by
  intro inner nested flat pieces start
  have hstream : (flat.attempt evenOrPast.logged start).2.stream.position = 0 := by decide
  have hasked : (flat.attempt evenOrPast.logged start).2.world.2.map (·.rule) = [⟨0⟩, ⟨1⟩] := by
    decide
  have hsame := ((combinators_agree.2.1 [.term (· == 1)] inner [.term (· == 7)]
    (.ofList [1, 2, 5, 7]) pieces ()).1 evenOrPast).2.attempt
  exact ⟨hstream, hsame ▸ hstream, hsame ▸ hasked⟩

end GrammarKit
