import GrammarKit.Grammar.RuleId

/-!
# The three outcomes of a match

A match succeeds with a value, or it does not apply here and another way may be tried, or the text
cannot be parsed at all.  The middle outcome is taken back by whoever asked; the last one is handed
on unchanged, so it ends the parse.

* `Mismatch` and `Failure` are the causes, with their wording in `message`.
* `Outcome.map` changes the value and nothing else.
-/

namespace GrammarKit

/-- Why a match does not apply. -/
inductive Mismatch where
  /-- The token is none of those that the term accepts. -/
  | term
  /-- A rule was to start at the end of the tokens. -/
  | nontermAtEnd
  /-- An item of a sequence does not match. -/
  | sequence
  /-- None of the items of a choice matches. -/
  | choice
  /-- A repetition ended before its least number of rounds. -/
  | tooFew
  /-- None of the alternatives of a rule matches. -/
  | rule
  /-- A reason given by whoever resolves the rules. -/
  | other (reason : String)
  deriving DecidableEq, Repr

/-- The wording of a mismatch. -/
def Mismatch.message : Mismatch → String
  | .term => "term does not match"
  | .nontermAtEnd => "nonterminal at end of input"
  | .sequence => "sequence does not match"
  | .choice => "no alternative matches"
  | .tooFew => "too few repetitions"
  | .rule => "rule does not match"
  | .other reason => reason

/-- Why a parse cannot go on. -/
inductive Failure where
  /-- The rule was to start, and the tokens are used up. -/
  | unexpectedEnd (rule : RuleId)
  /-- The grammar has no such rule. -/
  | undefinedRule (rule : RuleId)
  /-- The rule was to start at a place where it had already started, and would do so for ever. -/
  | leftRecursion (rule : RuleId)
  /-- A cause given by whoever resolves the rules. -/
  | other (cause : String)
  deriving DecidableEq, Repr

/-- The wording of a failure. -/
def Failure.message : Failure → String
  | .unexpectedEnd rule => "unexpected end of input in " ++ rule.label
  | .undefinedRule rule => rule.label ++ " is not defined"
  | .leftRecursion rule => rule.label ++ " is left-recursive"
  | .other cause => cause

/-- What comes of a match. -/
inductive Outcome (α : Type) where
  /-- It succeeds. -/
  | matched (value : α)
  /-- It does not apply here. -/
  | noMatch (why : Mismatch)
  /-- It ends the parse. -/
  | failed (why : Failure)
  deriving DecidableEq, Repr

namespace Outcome

variable {α β : Type}

/-- Whether the match succeeded. -/
def isMatched : Outcome α → Bool
  | .matched _ => true
  | _ => false

/-- Whether the match does not apply. -/
def isNoMatch : Outcome α → Bool
  | .noMatch _ => true
  | _ => false

/-- Whether the parse is over. -/
def isFailed : Outcome α → Bool
  | .failed _ => true
  | _ => false

/-- The same outcome with another value. -/
def map (f : α → β) : Outcome α → Outcome β
  | .matched value => .matched (f value)
  | .noMatch why => .noMatch why
  | .failed why => .failed why

/-- The wording of the cause, unless the match succeeded. -/
def message? : Outcome α → Option String
  | .matched _ => none
  | .noMatch why => some why.message
  | .failed why => some why.message

/-- The value, if the match succeeded. -/
def value? : Outcome α → Option α
  | .matched value => some value
  | _ => none

@[simp] theorem map_matched (f : α → β) (value : α) : (matched value).map f = .matched (f value) := rfl

@[simp] theorem map_noMatch (f : α → β) (why : Mismatch) : (noMatch why).map f = .noMatch why := rfl

@[simp] theorem map_failed (f : α → β) (why : Failure) : (failed why).map f = .failed why := rfl

theorem value?_map (f : α → β) (o : Outcome α) : (o.map f).value? = o.value?.map f := by
  cases o <;> rfl

theorem message?_map (f : α → β) (o : Outcome α) : (o.map f).message? = o.message? := by
  cases o <;> rfl

end Outcome

end GrammarKit
