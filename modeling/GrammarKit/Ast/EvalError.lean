import GrammarKit.Ast.Arena

/-!
# Why a tree has no value
-/

namespace GrammarKit

/-- Why the evaluation of a tree ends early. -/
inductive EvalError where
  /-- A divisor is zero. -/
  | divisionByZero
  /-- The result of this operator is out of range. -/
  | overflow (op : String)
  /-- The text of a literal is not a number. -/
  | invalidNumber (text : String)
  /-- The variable has no value yet. -/
  | undefinedVariable (name : String)
  /-- A node of this sort has no value. -/
  | unsupported (node : String)
  /-- The tree itself is broken. -/
  | tree (fault : TreeFault)
  deriving DecidableEq, Repr

/-- The wording of an error. -/
def EvalError.message : EvalError → String
  | .divisionByZero => "division by zero"
  | .overflow op => "integer overflow in `" ++ op ++ "`"
  | .invalidNumber text => "invalid number literal `" ++ text ++ "`"
  | .undefinedVariable name => "undefined variable `" ++ name ++ "`"
  | .unsupported node => "cannot evaluate a " ++ node ++ " node"
  | .tree fault => fault.message

/-- Reads a node during an evaluation. -/
def Arena.node (arena : Arena) (id : NodeId) : Except EvalError Node :=
  (arena.get id).mapError .tree

end GrammarKit
