/-!
# Names of grammar rules

A rule is known by its place in the grammar.
-/

namespace GrammarKit

/-- A grammar rule, by its place in the list of rules. -/
structure RuleId where
  /-- The place in the list of rules, counted from zero. -/
  index : Nat
  deriving DecidableEq, Repr

namespace RuleId

/-- The rule that a whole text has to match. -/
def start : RuleId := ⟨0⟩

/-- How a rule is shown. -/
def label (r : RuleId) : String := "Rule#" ++ toString r.index

end RuleId

end GrammarKit
