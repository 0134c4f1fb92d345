/-!
# Nodes of a syntax tree

One set of nodes serves both languages.  A node names its children by their numbers in an arena, and
keeps the pieces of text that it was made from.
-/

namespace GrammarKit

/-- The number of a node in its arena. -/
structure NodeId where
  /-- The place in the arena, counted from zero. -/
  index : Nat
  deriving DecidableEq, Repr, Inhabited

/-- The two sorts of number literals. -/
inductive NumberKind where
  /-- Digits. -/
  | integer
  /-- Digits, a point, digits. -/
  | real
  deriving DecidableEq, Repr

/-- Operators in front of an operand. -/
inductive UnaryOp where
  /-- The sign that changes nothing. -/
  | plus
  /-- The sign that negates. -/
  | minus
  deriving DecidableEq, Repr

/-- The sign of a unary operator. -/
def UnaryOp.symbol : UnaryOp → String
  | .plus => "+"
  | .minus => "-"

/-- Operators between two operands. -/
inductive BinaryOp where
  /-- Addition. -/
  | add
  /-- Subtraction. -/
  | sub
  /-- Multiplication. -/
  | mul
  /-- Division that drops the fraction. -/
  | intDiv
  /-- Division that keeps the fraction. -/
  | floatDiv
  /-- Assignment. -/
  | assign
  deriving DecidableEq, Repr

/-- The usual sign of a binary operator, whatever was written. -/
def BinaryOp.symbol : BinaryOp → String
  | .add => "+"
  | .sub => "-"
  | .mul => "*"
  | .intDiv => "div"
  | .floatDiv => "/"
  | .assign => ":="

/-- A node of a syntax tree. -/
inductive Node where
  /-- A stand-in where the pieces of a node were missing. -/
  | null
  /-- The empty statement. -/
  | nop
  /-- A number, as it is written. -/
  | const (kind : NumberKind) (text : String)
  /-- A variable. -/
  | var (name : String)
  /-- An operator in front of an operand; `symbol` is what was written for it. -/
  | unary (op : UnaryOp) (symbol : String) (operand : NodeId)
  /-- An operator between two operands; `symbol` is what was written for it. -/
  | binary (op : BinaryOp) (symbol : String) (left right : NodeId)
  /-- Statements to be run one after the other. -/
  | compound (statements : List NodeId)
  /-- A program with the node of its name. -/
  | program (name block : NodeId)
  /-- Declarations and the statement that they are for. -/
  | block (declarations : List NodeId) (body : NodeId)
  /-- A variable that is declared, and its type. -/
  | varDecl (name type : String)
  /-- A piece of text that is not a node of the finished tree. -/
  | raw (text : String)
  /-- A list of nodes that is not a node of the finished tree. -/
  | rawList (items : List NodeId)
  deriving DecidableEq, Repr

/-- What sort of node it is, in words. -/
def Node.kindName : Node → String
  | .null => "null"
  | .nop => "nop"
  | .const .. => "constant"
  | .var .. => "variable"
  | .unary .. => "unary operator"
  | .binary .. => "binary operator"
  | .compound .. => "compound statement"
  | .program .. => "program"
  | .block .. => "block"
  | .varDecl .. => "variable declaration"
  | .raw .. => "raw"
  | .rawList .. => "raw list"

end GrammarKit
