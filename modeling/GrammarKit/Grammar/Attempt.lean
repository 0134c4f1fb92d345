import GrammarKit.Grammar.Expr
import GrammarKit.Grammar.Outcome
import GrammarKit.Grammar.Production
import GrammarKit.Stream

/-!
# Matching an expression

An attempt is what a match works on: the stream of tokens, the pieces recorded so far, and the
world of the builder.  Matching an expression advances the stream over what it takes and records the
pieces.  What happens at a nonterminal is left to a dispatcher, so the engine of a grammar and a
scripted stand-in run the same code.

A sequence or a repetition that does not match puts the stream and the pieces back as they were.  A
choice and an option rely on their items for that.  A failure is never caught.  The world is never
put back: a builder keeps what it has made, even for pieces that are forgotten.

A repetition first makes its least number of rounds, whatever they take; then it goes on while there
are tokens, the body matches, and each round takes something.
-/

namespace GrammarKit

/-- What comes of a rule: the outcome with its node, and the world and the stream afterwards. -/
structure Reply (N W S : Type) where
  /-- What comes of the match. -/
  outcome : Outcome N
  /-- The builder's world afterwards. -/
  world : W
  /-- The stream afterwards. -/
  stream : S

/-- Resolves the nonterminals of an expression. -/
abbrev Dispatch (N W S : Type) := RuleId → W → S → Reply N W S

/-- What a match works on. -/
structure Attempt (T N W S : Type) where
  /-- The place in the tokens. -/
  stream : S
  /-- The pieces recorded so far. -/
  pieces : Production T N
  /-- The builder's world. -/
  world : W

namespace Attempt

variable {T N W S : Type}

/-- The attempt with its stream and its pieces put back. -/
def restore (a : Attempt T N W S) (stream : S) (mark : Production.Checkpoint) : Attempt T N W S :=
  { a with stream, pieces := a.pieces.rollback mark }

/-- Puts the stream and the pieces back after a match that does not apply, for the reason given. -/
@[noinline] def orRestore (stream : S) (mark : Production.Checkpoint) (why : Mismatch) :
    Outcome Unit × Attempt T N W S → Outcome Unit × Attempt T N W S
  | (.noMatch _, a) => (.noMatch why, a.restore stream mark)
  | (.matched (), a) => (.matched (), a)
  | (.failed why, a) => (.failed why, a)

/-- A number of rounds of `step`, each of which has to match. -/
def rounds (step : Attempt T N W S → Outcome Unit × Attempt T N W S) :
    Nat → Attempt T N W S → Outcome Unit × Attempt T N W S
  | 0, a => (.matched (), a)
  | n + 1, a =>
    match step a with
    | (.matched (), a) => rounds step n a
    | (.noMatch why, a) => (.noMatch why, a)
    | (.failed why, a) => (.failed why, a)

variable [TokenStream S T]

/-- Rounds of `step` while there are tokens, it matches, and it takes some of them. -/
def roundsWhileAny (step : Attempt T N W S → Outcome Unit × Attempt T N W S)
    (a : Attempt T N W S) : Outcome Unit × Attempt T N W S :=
  if TokenStream.atEnd a.stream then (.matched (), a)
  else
    match step a with
    | (.matched (), next) =>
      if TokenStream.remaining next.stream < TokenStream.remaining a.stream then
        roundsWhileAny step next
      else (.matched (), next)
    | (.noMatch _, next) => (.matched (), next)
    | (.failed why, next) => (.failed why, next)
termination_by TokenStream.remaining a.stream

end Attempt

namespace Expr

variable {T N W S : Type} [TokenStream S T]

/-- Matches one token. -/
def attemptTerm (accepts : T → Bool) : Attempt T N W S → Outcome Unit × Attempt T N W S
  | ⟨stream, pieces, world⟩ =>
    match TokenStream.peek stream with
    | some token =>
      if accepts token then
        (.matched (), ⟨TokenStream.advance stream, pieces.addTerm token, world⟩)
      else (.noMatch .term, ⟨stream, pieces, world⟩)
    | none => (.noMatch .term, ⟨stream, pieces, world⟩)

/-- Matches a rule, which does not start at the end of the tokens. -/
def attemptNonterm (dispatch : Dispatch N W S) (rule : RuleId) :
    Attempt T N W S → Outcome Unit × Attempt T N W S
  | ⟨stream, pieces, world⟩ =>
    if TokenStream.atEnd stream then (.noMatch .nontermAtEnd, ⟨stream, pieces, world⟩)
    else
      match dispatch rule world stream with
      | ⟨.matched node, world, stream⟩ => (.matched (), ⟨stream, pieces.addNonterm node, world⟩)
      | ⟨.noMatch why, world, stream⟩ => (.noMatch why, ⟨stream, pieces, world⟩)
      | ⟨.failed why, world, stream⟩ => (.failed why, ⟨stream, pieces, world⟩)

mutual

/-- Matches an expression. -/
def attempt (dispatch : Dispatch N W S) :
    Expr T → Attempt T N W S → Outcome Unit × Attempt T N W S
  | .empty, a => (.matched (), a)
  | .term accepts, a => attemptTerm accepts a
  | .nonterm rule, a => attemptNonterm dispatch rule a
  | .seq items, a =>
    Attempt.orRestore a.stream a.pieces.checkpoint .sequence (attemptAll dispatch items a)
  | .choice items, a => attemptFirst dispatch items a
  | .rep least body, a =>
    match Attempt.orRestore a.stream a.pieces.checkpoint .tooFew
        (a.rounds (fun a => body.attempt dispatch a) least) with
    | (.matched (), b) => b.roundsWhileAny (fun a => body.attempt dispatch a)
    | (.noMatch why, b) => (.noMatch why, b)
    | (.failed why, b) => (.failed why, b)
  | .opt body, a =>
    match body.attempt dispatch a with
    | (.noMatch _, b) => (.matched (), b)
    | (.matched (), b) => (.matched (), b)
    | (.failed why, b) => (.failed why, b)

/-- Matches all the expressions of a list, one after the other. -/
def attemptAll (dispatch : Dispatch N W S) :
    List (Expr T) → Attempt T N W S → Outcome Unit × Attempt T N W S
  | [], a => (.matched (), a)
  | item :: items, a =>
    match item.attempt dispatch a with
    | (.matched (), b) => attemptAll dispatch items b
    | (.noMatch why, b) => (.noMatch why, b)
    | (.failed why, b) => (.failed why, b)

/-- Matches the first expression of a list that does. -/
def attemptFirst (dispatch : Dispatch N W S) :
    List (Expr T) → Attempt T N W S → Outcome Unit × Attempt T N W S
  | [], a => (.noMatch .choice, a)
  | item :: items, a =>
    match item.attempt dispatch a with
    | (.noMatch _, b) => attemptFirst dispatch items b
    | (.matched (), b) => (.matched (), b)
    | (.failed why, b) => (.failed why, b)

end

end Expr

end GrammarKit
