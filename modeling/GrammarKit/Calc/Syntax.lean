import GrammarKit.Ast.Arena
import GrammarKit.Calc.Token
import GrammarKit.Grammar.Parse

/-!
# Syntax of the calculator

```text
expr   := term (("+" | "-") term)*
term   := factor (("*" | "/") factor)*
factor := "+" factor | "-" factor | "(" expr ")" | INTEGER
```

Operators of one level group to the left.  Parentheses leave no trace in the tree.
-/

namespace GrammarKit.Calc

/-- Sums and differences. -/
def expr : RuleId := ⟨0⟩

/-- Products and quotients. -/
def term : RuleId := ⟨1⟩

/-- Numbers, signs and parentheses. -/
def factor : RuleId := ⟨2⟩

/-- A token of this kind. -/
def kind (k : Kind) : Expr (Token Kind) := .term fun token => token.kind == k

/-- The grammar of the calculator. -/
def grammar : Grammar (Token Kind) where
  rules :=
    #[ { id := expr, name := "expr",
         alternatives := [⟨.chain, .chain [kind .plus, kind .minus] term⟩] },
       { id := term, name := "term",
         alternatives := [⟨.chain, .chain [kind .multiply, kind .divide] factor⟩] },
       { id := factor, name := "factor",
         alternatives :=
          [ ⟨.termNonterm, .seq [kind .plus, .nonterm factor]⟩,
            ⟨.termNonterm, .seq [kind .minus, .nonterm factor]⟩,
            ⟨.bypass, .seq [kind .lParens, .nonterm expr, kind .rParens]⟩,
            ⟨.term, kind .integer⟩ ] } ]
  faultless := rfl

/-- The operator of a token in front of a factor. -/
def unaryOp? : Kind → Option UnaryOp
  | .plus => some .plus
  | .minus => some .minus
  | _ => none

/-- The operator of a token in a chain of that rule. -/
def binaryOp? (rule : RuleId) (k : Kind) : Option BinaryOp :=
  if rule = expr then
    match k with
    | .plus => some .add
    | .minus => some .sub
    | _ => none
  else if rule = term then
    match k with
    | .multiply => some .mul
    | .divide => some .intDiv
    | _ => none
  else none

/-- The node of a matched rule.  Where the rules of the calculator never ask for a node, a stand-in
is made, or a node that says what was asked for. -/
def node : Reduction (Token Kind) NodeId → Node
  | .null => .null
  | .empty _ => .nop
  | .term rule token =>
    if rule = factor ∧ token.kind = .integer then .const .integer token.text else .null
  | .nonterm _ _ => .null
  | .termNonterm rule token operand =>
    if rule = factor then
      match unaryOp? token.kind with
      | some op => .unary op token.text operand
      | none => .null
    else .null
  | .nontermNonterm _ _ _ => .null
  | .nontermTermNonterm rule left token right =>
    match binaryOp? rule token.kind with
    | some op => .binary op token.text left right
    | none => .null
  | .nontermList _ nodes => .compound nodes
  | .termNontermList _ _ _ => .null

/-- Makes the nodes of the calculator in an arena.  Of two nonterminals in a row the second stands
for both, and no node is made. -/
def build : Builder (Token Kind) NodeId Arena
  | .nontermNonterm _ _ right, arena => (right, arena)
  | reduction, arena => arena.alloc (node reduction)

/-- The tree of an expression. -/
def parse (source : String) : Except ParseError Tree :=
  match grammar.parse build .empty (Cursor.start table source) with
  | (.ok root, arena) => .ok { arena, root }
  | (.error why, _) => .error why

end GrammarKit.Calc
