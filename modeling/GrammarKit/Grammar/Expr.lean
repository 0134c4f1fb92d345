import GrammarKit.Grammar.RuleId

/-!
# Parse expressions

An expression says what a rule matches.  Choices are ordered, repetitions take as much as they can,
and a nonterminal stands for another rule of the grammar.
-/

namespace GrammarKit

/-- What a rule matches, over tokens of type `T`. -/
inductive Expr (T : Type) where
  /-- Nothing, which always matches. -/
  | empty
  /-- One token that the predicate accepts. -/
  | term (accepts : T → Bool)
  /-- Another rule. -/
  | nonterm (rule : RuleId)
  /-- All the items, one after the other. -/
  | seq (items : List (Expr T))
  /-- The first of the items that matches. -/
  | choice (items : List (Expr T))
  /-- The body, at least so many times and then as often as it matches. -/
  | rep (least : Nat) (body : Expr T)
  /-- The body, or nothing. -/
  | opt (body : Expr T)

namespace Expr

variable {T : Type}

/-- The body, as often as it matches. -/
def zeroOrMore (body : Expr T) : Expr T := .rep 0 body

/-- The body once, and then as often as it matches. -/
def oneOrMore (body : Expr T) : Expr T := .rep 1 body

/-- Operands with operators between them: `operand (operator operand)*`. -/
def chain (operators : List (Expr T)) (operand : RuleId) : Expr T :=
  .seq [.nonterm operand, zeroOrMore (.seq [.choice operators, .nonterm operand])]

mutual

/-- The rules that an expression refers to, in the order in which they are written. -/
def references : Expr T → List RuleId
  | .empty => []
  | .term _ => []
  | .nonterm rule => [rule]
  | .seq items => referencesOfAll items
  | .choice items => referencesOfAll items
  | .rep _ body => body.references
  | .opt body => body.references

/-- The rules that a list of expressions refers to. -/
def referencesOfAll : List (Expr T) → List RuleId
  | [] => []
  | item :: items => item.references ++ referencesOfAll items

end

mutual

/-- How an expression is shown.  Of a term only its place is shown. -/
def label : Expr T → String
  | .empty => "Empty"
  | .term _ => "Term(..)"
  | .nonterm rule => "NonTerm(" ++ rule.label ++ ")"
  | .seq items => "Sequence([" ++ ", ".intercalate (labels items) ++ "])"
  | .choice items => "Choice([" ++ ", ".intercalate (labels items) ++ "])"
  | .rep least body => "Repeat \x7b min: " ++ toString least ++ ", expr: " ++ body.label ++ " \x7d"
  | .opt body => "Optional(" ++ body.label ++ ")"

/-- How each of a list of expressions is shown. -/
def labels : List (Expr T) → List String
  | [] => []
  | item :: items => item.label :: labels items

end

theorem referencesOfAll_eq_flatMap (items : List (Expr T)) :
    referencesOfAll items = items.flatMap references := by
  induction items with
  | nil => rfl
  | cons item items ih => rw [referencesOfAll, ih, List.flatMap_cons]

end Expr

end GrammarKit
