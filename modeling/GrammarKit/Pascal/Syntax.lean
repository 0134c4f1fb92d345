import GrammarKit.Ast.Arena
import GrammarKit.Grammar.Parse
import GrammarKit.Pascal.Token

/-!
# Syntax of the Pascal subset

```text
program              := PROGRAM variable ";" block "."
block                := declarations compound_statement
declarations         := VAR (variable_declaration ";")+ | empty
variable_declaration := ID ("," ID)* ":" type_spec
type_spec            := INTEGER | REAL
compound_statement   := BEGIN statement_list END
statement_list       := statement (";" statement)*
statement            := compound_statement | assignment_statement | empty
assignment_statement := variable ":=" expr
empty                :=
expr                 := term (("+" | "-") term)*
term                 := factor (("*" | DIV | "/") factor)*
factor               := "+" factor | "-" factor | INTEGER_CONST | REAL_CONST | "(" expr ")" | variable
variable             := ID
```

Declarations and statements travel upwards as lists of nodes, and a type as its bare text, until the
block, the compound statement or the declaration takes them apart.
-/

namespace GrammarKit.Pascal

/-! ## The rules -/

/-- A whole program. -/
def program : RuleId := ⟨0⟩

/-- Declarations and a compound statement. -/
def block : RuleId := ⟨1⟩

/-- All declarations of a block. -/
def declarations : RuleId := ⟨2⟩

/-- Names and their type. -/
def variableDeclaration : RuleId := ⟨3⟩

/-- A type. -/
def typeSpec : RuleId := ⟨4⟩

/-- Statements between `BEGIN` and `END`. -/
def compoundStatement : RuleId := ⟨5⟩

/-- Statements with semicolons between them. -/
def statementList : RuleId := ⟨6⟩

/-- One statement. -/
def statement : RuleId := ⟨7⟩

/-- An assignment. -/
def assignmentStatement : RuleId := ⟨8⟩

/-- The statement that does nothing. -/
def empty : RuleId := ⟨9⟩

/-- Sums and differences. -/
def expr : RuleId := ⟨10⟩

/-- Products and quotients. -/
def term : RuleId := ⟨11⟩

/-- Numbers, variables, signs and parentheses. -/
def factor : RuleId := ⟨12⟩

/-- A name in use. -/
def variableUse : RuleId := ⟨13⟩

/-- A token of this kind. -/
def kind (k : Kind) : Expr (Token Kind) := .term fun token => token.kind == k

/-- The grammar of the Pascal subset. -/
def grammar : Grammar (Token Kind) where
  rules :=
    #[ { id := program, name := "program",
         alternatives :=
          [ ⟨.nontermNonterm,
              .seq [kind .program, .nonterm variableUse, kind .semi, .nonterm block, kind .dot]⟩ ] },
       { id := block, name := "block",
         alternatives :=
          [ ⟨.nontermNonterm, .seq [.nonterm declarations, .nonterm compoundStatement]⟩ ] },
       { id := declarations, name := "declarations",
         alternatives :=
          [ ⟨.nontermList,
              .choice
                [ .seq [kind .var, .oneOrMore (.seq [.nonterm variableDeclaration, kind .semi])],
                  .nonterm empty ]⟩ ] },
       { id := variableDeclaration, name := "variable_declaration",
         alternatives :=
          [ ⟨.termNontermList,
              .seq
                [ kind .id, .zeroOrMore (.seq [kind .comma, kind .id]), kind .colon,
                  .nonterm typeSpec ]⟩ ] },
       { id := typeSpec, name := "type_spec",
         alternatives := [⟨.term, .choice [kind .integer, kind .real]⟩] },
       { id := compoundStatement, name := "compound_statement",
         alternatives :=
          [⟨.nonterm, .seq [kind .begin, .nonterm statementList, kind .end]⟩] },
       { id := statementList, name := "statement_list",
         alternatives :=
          [ ⟨.nontermList,
              .seq
                [ .nonterm statement, .zeroOrMore (.seq [kind .semi, .nonterm statement]) ]⟩ ] },
       { id := statement, name := "statement",
         alternatives :=
          [ ⟨.bypass, .nonterm compoundStatement⟩,
            ⟨.bypass, .nonterm assignmentStatement⟩,
            ⟨.bypass, .nonterm empty⟩ ] },
       { id := assignmentStatement, name := "assignment_statement",
         alternatives :=
          [⟨.nontermTermNonterm, .seq [.nonterm variableUse, kind .assign, .nonterm expr]⟩] },
       { id := empty, name := "empty", alternatives := [⟨.empty, .empty⟩] },
       { id := expr, name := "expr",
         alternatives := [⟨.chain, .chain [kind .plus, kind .minus] term⟩] },
       { id := term, name := "term",
         alternatives :=
          [⟨.chain, .chain [kind .multiply, kind .integerDiv, kind .floatDiv] factor⟩] },
       { id := factor, name := "factor",
         alternatives :=
          [ ⟨.termNonterm, .seq [kind .plus, .nonterm factor]⟩,
            ⟨.termNonterm, .seq [kind .minus, .nonterm factor]⟩,
            ⟨.term, kind .integerConst⟩,
            ⟨.term, kind .realConst⟩,
            ⟨.bypass, .seq [kind .lParens, .nonterm expr, kind .rParens]⟩,
            ⟨.bypass, .nonterm variableUse⟩ ] },
       { id := variableUse, name := "variable", alternatives := [⟨.term, kind .id⟩] } ]
  faultless := rfl

/-! ## The nodes -/

/-- The operator of a token in front of a factor. -/
def unaryOp? : Kind → Option UnaryOp
  | .plus => some .plus
  | .minus => some .minus
  | _ => none

/-- The operator of a token between the two nonterminals of that rule. -/
def binaryOp? (rule : RuleId) (k : Kind) : Option BinaryOp :=
  if rule = assignmentStatement then
    match k with
    | .assign => some .assign
    | _ => none
  else if rule = expr then
    match k with
    | .plus => some .add
    | .minus => some .sub
    | _ => none
  else if rule = term then
    match k with
    | .multiply => some .mul
    | .integerDiv => some .intDiv
    | .floatDiv => some .floatDiv
    | _ => none
  else none

/-- The node of a rule that consists of one token.  Names are folded to small letters. -/
def ofToken (rule : RuleId) (token : Token Kind) : Node :=
  if rule = typeSpec then .raw token.text
  else if rule = factor then
    match token.kind with
    | .integerConst => .const .integer token.text
    | .realConst => .const .real token.text
    | _ => .null
  else if rule = variableUse then .var token.text.toLower
  else .null

/-- The items of several lists of nodes, one list after the other. -/
def itemsOfAll (arena : Arena) (nodes : List NodeId) : Except TreeFault (List NodeId) :=
  nodes.foldlM (fun items node => (arena.items node).map (items ++ ·)) []

/-- The nodes of a declaration: one for each name, with the type that its first nonterminal spells. -/
def declared? (arena : Arena) (terms : List (Token Kind)) (nodes : List NodeId) :
    Except TreeFault (Option (List Node)) :=
  match nodes with
  | [] => .ok none
  | first :: _ =>
    (arena.get first).map fun
      | .raw type =>
        some ((terms.filter (·.kind == .id)).map fun token => .varDecl token.text type)
      | _ => none

/-- Makes the node of a matched rule.  A stand-in is made where the rules of the grammar never ask
for a node.  Nothing is made if a child that has to be looked at is not in the arena. -/
def build : Reduction (Token Kind) NodeId → Arena → Except TreeFault (NodeId × Arena)
  | .null, arena => .ok (arena.alloc .null)
  | .empty _, arena => .ok (arena.alloc .nop)
  | .term rule token, arena => .ok (arena.alloc (ofToken rule token))
  | .nonterm rule child, arena =>
    (arena.get child).map fun
      | .rawList items => arena.alloc (if rule = compoundStatement then .compound items else .null)
      | _ => arena.alloc .null
  | .termNonterm rule token operand, arena =>
    match unaryOp? token.kind with
    | some op =>
      .ok (arena.alloc (if rule = factor then .unary op token.text operand else .null))
    | none => .ok (arena.alloc .null)
  | .nontermNonterm rule left right, arena =>
    if rule = program then .ok (arena.alloc (.program left right))
    else if rule = block then (arena.items left).map fun items => arena.alloc (.block items right)
    else .ok (arena.alloc .null)
  | .nontermTermNonterm rule left token right, arena =>
    match binaryOp? rule token.kind with
    | some op => .ok (arena.alloc (.binary op token.text left right))
    | none => .ok (arena.alloc .null)
  | .nontermList rule nodes, arena =>
    if rule = declarations then
      (itemsOfAll arena nodes).map fun items => arena.alloc (.rawList items)
    else if rule = statementList then .ok (arena.alloc (.rawList nodes))
    else .ok (arena.alloc .null)
  | .termNontermList rule terms nodes, arena =>
    if rule = variableDeclaration then
      (declared? arena terms nodes).map fun
        | some declarations =>
          let (ids, arena) := arena.allocAll declarations
          arena.alloc (.rawList ids)
        | none => arena.alloc .null
    else .ok (arena.alloc .null)

/-- The builder of the Pascal subset.  After a fault no more nodes are made. -/
def builder : Builder (Token Kind) NodeId (Except TreeFault Arena) := fun reduction world =>
  match world with
  | .error fault => (⟨0⟩, .error fault)
  | .ok arena =>
    match build reduction arena with
    | .ok (id, arena) => (id, .ok arena)
    | .error fault => (⟨0⟩, .error fault)

/-- Why a program has no tree. -/
inductive SyntaxError where
  /-- The text does not match the grammar. -/
  | parse (why : ParseError)
  /-- A node was asked for that is not in the arena. -/
  | tree (fault : TreeFault)
  deriving DecidableEq, Repr

/-- The tree of a program. -/
def parse (source : String) : Except SyntaxError Tree :=
  match grammar.parse builder (.ok .empty) (Cursor.start table source) with
  | (_, .error fault) => .error (.tree fault)
  | (.ok root, .ok arena) => .ok { arena, root }
  | (.error why, .ok _) => .error (.parse why)

end GrammarKit.Pascal
