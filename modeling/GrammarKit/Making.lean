import GrammarKit.Calc.Syntax
import GrammarKit.Pascal.Syntax

/-!
# Nodes are made step by step

A builder looks at nodes of the arena and adds nodes to it.  A look may be at a number that leads out of
the arena, and a node may come when all numbers are used up.  Either ends the request there and then, and
what has been added by that time stays.  `Pascal.build` hides the first of the two, for it answers with a
fault and with no arena, and it knows nothing of the second.  So here a request is carried out one look
and one new node at a time, on an arena that is still there when a step is refused.

* `Refusal`: why a step is refused.
* `Making`, `look`, `add`: one step after the other; `Making.carryOut` is what becomes of an arena.
* `Calc.make`, `Pascal.make`: requests in steps.
-/

namespace GrammarKit

/-- Why no node is made. -/
inductive Refusal where
  /-- The tree is broken. -/
  | tree (fault : TreeFault)
  /-- There is no number left for a node. -/
  | exhausted
  deriving DecidableEq, Repr

/-- The wording of a refusal. -/
def Refusal.message : Refusal → String
  | .tree fault => fault.message
  | .exhausted => "AST arena exhausted: more than u32::MAX nodes"

/-- Steps on an arena.  A step that is refused is the last, and does not undo those before. -/
abbrev Making := ExceptT Refusal (StateM Arena)

namespace Making

/-- What the steps yield, and the arena behind the last of them. -/
def carryOut {α : Type} (making : Making α) (arena : Arena) : Except Refusal α × Arena :=
  making.run.run arena

/-- Looks at a node. -/
def look (id : NodeId) : Making Node := do
  match (← get).get id with
  | .ok node => return node
  | .error fault => throw (.tree fault)

/-- Looks at a list of nodes for its items; any other node has none. -/
def lookInto (id : NodeId) : Making (List NodeId) := do
  match ← look id with
  | .rawList items => return items
  | _ => return []

/-- Adds a node, if a number is left for it. -/
def add (node : Node) : Making NodeId := do
  match (← get).alloc? node with
  | some (id, arena) =>
    set arena
    return id
  | none => throw .exhausted

end Making

open Making

/-- Makes the node of a matched rule of the calculator, step by step. -/
def Calc.make : Reduction (Token Calc.Kind) NodeId → Making NodeId
  | .nontermNonterm _ _ right => return right
  | request => add (node request)

namespace Pascal

/-- Makes the node of a matched rule, step by step. -/
def make : Reduction (Token Kind) NodeId → Making NodeId
  | .null => add .null
  | .empty _ => add .nop
  | .term rule token => add (ofToken rule token)
  | .nonterm rule child => do
    match ← look child with
    | .rawList items => add (if rule = compoundStatement then .compound items else .null)
    | _ => add .null
  | .termNonterm rule token operand =>
    match unaryOp? token.kind with
    | some op => add (if rule = factor then .unary op token.text operand else .null)
    | none => add .null
  | .nontermNonterm rule left right =>
    if rule = program then add (.program left right)
    else if rule = block then do
      let items ← lookInto left
      add (.block items right)
    else add .null
  | .nontermTermNonterm rule left token right =>
    match binaryOp? rule token.kind with
    | some op => add (.binary op token.text left right)
    | none => add .null
  | .nontermList rule nodes =>
    if rule = declarations then do
      let lists ← nodes.mapM lookInto
      add (.rawList lists.flatten)
    else if rule = statementList then add (.rawList nodes)
    else add .null
  | .termNontermList rule terms nodes =>
    if rule = variableDeclaration then
      match nodes with
      | [] => add .null
      | first :: _ => do
        match ← look first with
        | .raw type =>
          let ids ← (terms.filter (·.kind == .id)).mapM fun token => add (.varDecl token.text type)
          add (.rawList ids)
        | _ => add .null
    else add .null

end Pascal

end GrammarKit
