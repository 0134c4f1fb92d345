import GrammarKit.Ast.EvalError
import GrammarKit.Decimal.Reading
import GrammarKit.Decimal.Shortest
import GrammarKit.Pascal.Store

/-!
# Running a program of the Pascal subset

All values are floats of 64 bits.  `DIV` drops the fraction of the quotient and `/` keeps it; both
refuse to divide by zero, whatever its sign.  A run changes the store assignment by assignment, and a
run that fails leaves the assignments before the failure in place.

An expression that contains itself has no value, because the store does not change while it is
evaluated.  A statement that contains itself is another matter: it finds another store each time, and
so a run of it may end with an assignment that fails, however many levels down.
-/

namespace GrammarKit.Pascal

/-- The number without its fraction. -/
def truncate (x : Float) : Float := if x < 0 then x.ceil else x.floor

/-- An operator in front of a value. -/
def applyUnary : UnaryOp → Float → Float
  | .plus, x => x
  | .minus, x => -x

/-- An operator between two values. -/
def applyBinary (op : BinaryOp) (a b : Float) : Except EvalError Float :=
  match op with
  | .add => .ok (a + b)
  | .sub => .ok (a - b)
  | .mul => .ok (a * b)
  | .intDiv => if b == 0 then .error .divisionByZero else .ok (truncate (a / b))
  | .floatDiv => if b == 0 then .error .divisionByZero else .ok (a / b)
  | .assign => .error (.unsupported "assignment in expression")

/-- The value of a literal. -/
def literal (text : String) : Except EvalError Float :=
  match Decimal.float? text with
  | some x => .ok x
  | none => .error (.invalidNumber text)

/-- The value of a variable. -/
def Store.value (store : Store) (name : String) : Except EvalError Float :=
  match store.find? name with
  | some x => .ok x
  | none => .error (.undefinedVariable name)

/-- The value of an expression that is reached by a way of at most `height` nodes. -/
def evalNode (arena : Arena) (store : Store) : (height : Nat) → NodeId → Except EvalError Float
  | 0, _ => .error (.tree .cycle)
  | height + 1, id =>
    match arena.node id with
    | .error why => .error why
    | .ok (.const _ text) => literal text
    | .ok (.var name) => store.value name
    | .ok (.unary op _ operand) =>
      match evalNode arena store height operand with
      | .error why => .error why
      | .ok x => .ok (applyUnary op x)
    | .ok (.binary op _ left right) =>
      match evalNode arena store height left with
      | .error why => .error why
      | .ok a =>
        match evalNode arena store height right with
        | .error why => .error why
        | .ok b => applyBinary op a b
    | .ok other => .error (.unsupported other.kindName)

/-- Runs the statements of a list in order, up to the first that fails. -/
def runAll (run : NodeId → Store → Except EvalError Unit × Store) :
    List NodeId → Store → Except EvalError Unit × Store
  | [], store => (.ok (), store)
  | id :: ids, store =>
    match run id store with
    | (.ok (), store) => runAll run ids store
    | (.error why, store) => (.error why, store)

/-- Assigns the value of the expression `right` to the variable `left`. -/
def runAssign (arena : Arena) (left right : NodeId) (store : Store) : Except EvalError Unit × Store :=
  match arena.node left with
  | .error why => (.error why, store)
  | .ok (.var name) =>
    match evalNode arena store arena.height right with
    | .error why => (.error why, store)
    | .ok x => (.ok (), store.insert name x)
  | .ok other => (.error (.unsupported other.kindName), store)

/-- Runs a statement, going down at most `levels` nodes from it. -/
def runNode (arena : Arena) : (levels : Nat) → NodeId → Store → Except EvalError Unit × Store
  | 0, _, store => (.error (.tree .cycle), store)
  | levels + 1, id, store =>
    match arena.node id with
    | .error why => (.error why, store)
    | .ok (.program _ block) => runNode arena levels block store
    | .ok (.block _ body) => runNode arena levels body store
    | .ok (.compound statements) => runAll (runNode arena levels) statements store
    | .ok (.binary .assign _ left right) => runAssign arena left right store
    | .ok .nop => (.ok (), store)
    | .ok (.varDecl _ _) => (.ok (), store)
    | .ok other => (.error (.unsupported other.kindName), store)

/-- How many levels a run may go down beyond the number of nodes.  Only a tree that contains itself
has so many. -/
def spareLevels : Nat := 4000000

/-- Runs a tree.  A statement that contains itself is run again and again, until something in it
fails; if nothing does before the levels are used up, the fault of the tree is reported. -/
def run (tree : Tree) (store : Store) : Except EvalError Unit × Store :=
  runNode tree.arena (tree.height + spareLevels) tree.root store

/-- The variables of a store, one line each. -/
def Store.listing (store : Store) : String :=
  String.join (store.entries.map fun (name, x) => name ++ " := " ++ Decimal.ofFloat x ++ "\n")

end GrammarKit.Pascal
