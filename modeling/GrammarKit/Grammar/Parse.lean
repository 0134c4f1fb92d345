import GrammarKit.Grammar.Attempt
import GrammarKit.Grammar.Basic

/-!
# Parsing with a grammar

The nonterminals of an expression are resolved by the grammar itself: the rule is looked up and its
alternatives are tried in order, each with a fresh production.

A rule that starts again at the place where it is being matched would do so for ever.  So the rules
in progress at the present place are kept track of: `fresh` are the ones that may still start here,
and all rules may start once tokens have been taken.  A rule that is not fresh is left-recursive,
which ends the parse.  Hence the recursion goes down in the pair of the tokens ahead and the fresh
rules.

* `Grammar.matchRule` matches one rule at a place of a stream.
* `Grammar.parse` matches a whole stream with the first rule.
-/

namespace GrammarKit

variable {T N W S : Type} [TokenStream S T]

/-- Tries the alternatives of the rule `id` in order, from the same place each time. -/
def attemptAlternatives (build : Builder T N W) (dispatch : Dispatch N W S) (id : RuleId) :
    List (Alternative T) → W → S → Reply N W S
  | [], world, stream => ⟨.noMatch .rule, world, stream⟩
  | alternative :: alternatives, world, stream =>
    match alternative.expr.attempt dispatch
        { stream, pieces := Production.start id alternative.shape, world } with
    | (.matched (), ⟨stream, pieces, world⟩) =>
      match pieces.reduce build world with
      | (node, world) => ⟨.matched node, world, stream⟩
    | (.noMatch _, a) => attemptAlternatives build dispatch id alternatives a.world stream
    | (.failed why, a) => ⟨.failed why, a.world, a.stream⟩

namespace Grammar

/-- Matches a rule at a place with `left` tokens ahead, of whose rules only those in `fresh` are not
in progress. -/
def matchFresh (g : Grammar T) (build : Builder T N W) (left : Nat) (fresh : List RuleId)
    (id : RuleId) (world : W) (stream : S) : Reply N W S :=
  if TokenStream.atEnd stream then ⟨.failed (.unexpectedEnd id), world, stream⟩
  else
    match g.rule? id with
    | none => ⟨.failed (.undefinedRule id), world, stream⟩
    | some rule =>
      if _fresh : id ∈ fresh then
        attemptAlternatives build
          (fun id' world stream =>
            let ahead := TokenStream.remaining stream
            if _less : ahead < left then matchFresh g build ahead g.ids id' world stream
            else matchFresh g build left (fresh.erase id) id' world stream)
          rule.id rule.alternatives world stream
      else ⟨.failed (.leftRecursion id), world, stream⟩
termination_by (left, fresh.length)
decreasing_by
  · exact Prod.Lex.left _ _ _less
  · refine Prod.Lex.right _ ?_
    have := List.length_pos_of_mem _fresh
    rw [List.length_erase_of_mem _fresh]
    omega

/-- Matches a rule at a place of a stream. -/
def matchRule (g : Grammar T) (build : Builder T N W) : Dispatch N W S := fun id world stream =>
  g.matchFresh build (TokenStream.remaining stream) g.ids id world stream

end Grammar

/-- Why a stream is not parsed. -/
inductive ParseError where
  /-- The parse ended with a failure. -/
  | failed (why : Failure)
  /-- The first rule does not match. -/
  | noMatch
  /-- The first rule matches, but not up to the end. -/
  | tokensLeft (offset : Nat)
  deriving DecidableEq, Repr

/-- The wording of a parse error. -/
def ParseError.message : ParseError → String
  | .failed why => why.message
  | .noMatch => "rule #0 doesn't match"
  | .tokensLeft offset => "tokens left at offset " ++ toString offset

namespace Grammar

/-- Matches all tokens of a stream with the first rule of the grammar. -/
def parse (g : Grammar T) (build : Builder T N W) (world : W) (stream : S) :
    Except ParseError N × W :=
  match g.matchRule build RuleId.start world stream with
  | ⟨.matched node, world, stream⟩ =>
    if TokenStream.atEnd stream then (.ok node, world)
    else (.error (.tokensLeft (TokenStream.offset stream)), world)
  | ⟨.noMatch _, world, _⟩ => (.error .noMatch, world)
  | ⟨.failed why, world, _⟩ => (.error (.failed why), world)

end Grammar

end GrammarKit
