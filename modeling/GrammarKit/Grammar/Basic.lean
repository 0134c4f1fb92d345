import GrammarKit.Grammar.Expr
import GrammarKit.Grammar.Production

/-!
# Grammars

A grammar is a list of rules.  A rule is known by its place in the list, has at least one
alternative, and refers to rules of the list only; a value of type `Grammar` carries the proof that
the list has no such fault.

* `firstFault?` finds the first fault of a list of rules: an empty list, then the places and the
  alternatives rule by rule, then the references in the order in which they are written.
* `Grammar.ofRules` makes a grammar of a list without faults.
-/

namespace GrammarKit

/-- One way to match a rule: what to match, and what its node is made of. -/
structure Alternative (T : Type) where
  /-- What the node is made of. -/
  shape : Shape
  /-- What to match. -/
  expr : Expr T

/-- A rule of a grammar, with its alternatives in the order in which they are tried. -/
structure Rule (T : Type) where
  /-- The place of the rule. -/
  id : RuleId
  /-- A name for the reader. -/
  name : String
  /-- The ways to match the rule. -/
  alternatives : List (Alternative T)

/-- A fault of a list of rules. -/
inductive GrammarError where
  /-- There are no rules. -/
  | noRules
  /-- The rule at this position carries another number. -/
  | misplaced (position : Nat) (rule : RuleId)
  /-- The rule has no alternatives. -/
  | noAlternatives (rule : RuleId)
  /-- The rule refers to one that is not in the list. -/
  | unknownRule (rule target : RuleId)
  deriving DecidableEq, Repr

/-- The wording of a fault. -/
def GrammarError.message : GrammarError → String
  | .noRules => "grammar has no rules"
  | .misplaced position rule => rule.label ++ " is declared at position " ++ toString position
  | .noAlternatives rule => rule.label ++ " has no alternatives"
  | .unknownRule rule target => rule.label ++ " refers to undefined " ++ target.label

variable {T : Type}

/-- The first rule that is out of place or has no alternatives, if the list starts at `position`. -/
def layoutFault? : (position : Nat) → List (Rule T) → Option GrammarError
  | _, [] => none
  | position, rule :: rules =>
    if rule.id.index ≠ position then some (.misplaced position rule.id)
    else if rule.alternatives.isEmpty then some (.noAlternatives rule.id)
    else layoutFault? (position + 1) rules

/-- The rules that a rule refers to, alternative by alternative. -/
def Rule.references (rule : Rule T) : List RuleId :=
  rule.alternatives.flatMap fun alternative => alternative.expr.references

/-- The first reference of a rule that leads out of a list of `size` rules. -/
def Rule.referenceFault? (size : Nat) (rule : Rule T) : Option GrammarError :=
  (rule.references.find? (size ≤ ·.index)).map (.unknownRule rule.id)

/-- The first fault of a list of rules. -/
def firstFault? (rules : List (Rule T)) : Option GrammarError :=
  if rules.isEmpty then some .noRules
  else (layoutFault? 0 rules).or (rules.findSome? (Rule.referenceFault? rules.length))

/-- A list of rules without faults. -/
structure Grammar (T : Type) where
  /-- The rules, each at the place that is its number. -/
  rules : Array (Rule T)
  faultless : firstFault? rules.toList = none

namespace Grammar

/-- The grammar of a list of rules, or the first fault of the list. -/
def ofRules (rules : List (Rule T)) : Except GrammarError (Grammar T) :=
  match h : firstFault? rules with
  | none => .ok ⟨rules.toArray, by simpa using h⟩
  | some fault => .error fault

/-- The rule of that number. -/
def rule? (g : Grammar T) (r : RuleId) : Option (Rule T) := g.rules[r.index]?

/-- The numbers of all rules. -/
def ids (g : Grammar T) : List RuleId := (List.range g.rules.size).map RuleId.mk

theorem mem_ids {g : Grammar T} {r : RuleId} : r ∈ g.ids ↔ r.index < g.rules.size := by
  obtain ⟨i⟩ := r
  simp [ids]

end Grammar

end GrammarKit
