import GrammarKit.Ast.Arena

/-!
# Drawing a tree

A tree is drawn as a Graphviz document.  The nodes are numbered in pre-order.  Each node has a label,
and a line leads from it to each of its children, written before the child is drawn.

* `Drawing` is the list of statements of the document.
* `Drawing.ofTree` lays a tree out, `Drawing.render` writes the document.
-/

namespace GrammarKit

/-- A statement of a drawing. -/
inductive Stroke where
  /-- A node with its label. -/
  | node (number : Nat) (label : String)
  /-- A line from a node to a child. -/
  | line (parent child : Nat)
  deriving DecidableEq, Repr

/-- The statements of a drawing, in order. -/
abbrev Drawing := Array Stroke

/-- The mark that breaks a line in a label. -/
def labelBreak : String := "\\n"

/-- The children that are drawn below a node. -/
def Node.children : Node → List NodeId
  | .unary _ _ operand => [operand]
  | .binary _ _ left right => [left, right]
  | .compound statements => statements
  | .program _ body => [body]
  | .block declarations body => declarations ++ [body]
  | .rawList items => items
  | _ => []

/-- The label of a node.  A program is labelled with its name, which is another node. -/
def Arena.label (arena : Arena) : Node → Except TreeFault String
  | .null => .ok "Null"
  | .nop => .ok "Nop"
  | .const .integer text => .ok ("(int)" ++ labelBreak ++ text)
  | .const .real text => .ok ("(float)" ++ labelBreak ++ text)
  | .var name => .ok ("Var:" ++ labelBreak ++ name)
  | .unary op _ _ => .ok ("unary " ++ op.symbol)
  | .binary op _ _ _ => .ok op.symbol
  | .compound _ => .ok "CompoundStatement"
  | .program name _ =>
    match arena.get name with
    | .ok (.var title) => .ok ("Program" ++ labelBreak ++ title)
    | .ok _ => .ok ("Program" ++ labelBreak)
    | .error fault => .error fault
  | .block _ _ => .ok "Block"
  | .varDecl _ _ => .ok "VarDecl"
  | .raw text => .ok text
  | .rawList _ => .ok "List"

namespace Drawing

/-- The leaves below a declaration, whose labels are written before the lines that lead to them. -/
def leaves : Node → List String
  | .varDecl name type => [name, type]
  | _ => []

/-- Draws the leaves of the node `parent`, of which `last` is the last number in use. -/
def addLeaves (parent last : Nat) (texts : List String) (drawing : Drawing) : Nat × Drawing :=
  texts.foldl (fun (last, drawing) text =>
    (last + 1, (drawing.push (.node (last + 1) text)).push (.line parent (last + 1))))
    (last, drawing)

/-- Draws a node with the number `me` and all that is below it, and answers the last number in use.
The node is reached by a way of at most `height` nodes. -/
def addNode (arena : Arena) : (height me : Nat) → NodeId → Drawing → Except TreeFault (Nat × Drawing)
  | 0, _, _, _ => .error .cycle
  | height + 1, me, id, drawing =>
    match arena.get id with
    | .error fault => .error fault
    | .ok node =>
      match arena.label node with
      | .error fault => .error fault
      | .ok label =>
        node.children.foldlM (fun (last, drawing) child =>
          addNode arena height (last + 1) child (drawing.push (.line me (last + 1))))
          (addLeaves me me (leaves node) (drawing.push (.node me label)))

/-- The drawing of a tree. -/
def ofTree (tree : Tree) : Except TreeFault Drawing :=
  (addNode tree.arena tree.height 0 tree.root #[]).map (·.2)

end Drawing

/-- A label inside quotes: a quote is written with a backslash before it. -/
def quoteLabel (label : String) : String :=
  String.ofList (label.toList.flatMap fun c => if c = '"' then ['\\', '"'] else [c])

/-- The line of a statement. -/
def Stroke.text : Stroke → String
  | .node number label => "  node" ++ toString number ++ " [label=\"" ++ quoteLabel label ++ "\"]\n"
  | .line parent child => "  node" ++ toString parent ++ " -> node" ++ toString child ++ "\n"

namespace Drawing

/-- What stands before the statements of a document. -/
def header : String :=
  "digraph astgraph \x7b\n" ++
  "node [shape=circle, fontsize=12, fontname=\"Courier\", height=.1];\n" ++
  "ranksep=.3;\n" ++
  "edge [arrowsize=.5]\n\n"

/-- The document of a drawing. -/
def render (drawing : Drawing) : String :=
  drawing.foldl (fun document stroke => document ++ stroke.text) header ++ "\x7d\n"

end Drawing

/-- The document of a tree. -/
def Tree.draw (tree : Tree) : Except TreeFault String := (Drawing.ofTree tree).map Drawing.render

end GrammarKit
