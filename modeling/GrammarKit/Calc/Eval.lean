import GrammarKit.Ast.EvalError
import GrammarKit.Decimal.Digits

/-!
# Values of the calculator

The calculator computes with the integers from -2³¹ to 2³¹ - 1.  A result outside of that range is an
error and not rounded or wrapped; division drops the fraction.  The left operand is evaluated before
the right one, and both before the operator is looked at.
-/

namespace GrammarKit.Calc

/-- The integers of 32 bits. -/
def inRange (v : Int) : Bool := -2147483648 ≤ v && v ≤ 2147483647

/-- The result of an operator, unless it is out of range. -/
def checked (op : String) (v : Int) : Except EvalError Int :=
  if inRange v then .ok v else .error (.overflow op)

/-- The value of a literal. -/
def literal (text : String) : Except EvalError Int :=
  match Decimal.integer? text with
  | some v => if inRange v then .ok v else .error (.invalidNumber text)
  | none => .error (.invalidNumber text)

/-- An operator in front of a value. -/
def applyUnary : UnaryOp → Int → Except EvalError Int
  | .plus, v => .ok v
  | .minus, v => checked "-" (-v)

/-- An operator between two values. -/
def applyBinary (op : BinaryOp) (a b : Int) : Except EvalError Int :=
  match op with
  | .add => checked op.symbol (a + b)
  | .sub => checked op.symbol (a - b)
  | .mul => checked op.symbol (a * b)
  | .intDiv => if b = 0 then .error .divisionByZero else checked op.symbol (a.tdiv b)
  | .floatDiv | .assign => .error (.unsupported "non-integer operator")

/-- The value of a node that is reached by a way of at most `height` nodes. -/
def evalNode (arena : Arena) : (height : Nat) → NodeId → Except EvalError Int
  | 0, _ => .error (.tree .cycle)
  | height + 1, id =>
    match arena.node id with
    | .error why => .error why
    | .ok (.const _ text) => literal text
    | .ok (.unary op _ operand) =>
      match evalNode arena height operand with
      | .error why => .error why
      | .ok v => applyUnary op v
    | .ok (.binary op _ left right) =>
      match evalNode arena height left with
      | .error why => .error why
      | .ok a =>
        match evalNode arena height right with
        | .error why => .error why
        | .ok b => applyBinary op a b
    | .ok other => .error (.unsupported other.kindName)

/-- The value of a tree. -/
def eval (tree : Tree) : Except EvalError Int := evalNode tree.arena tree.height tree.root

end GrammarKit.Calc
