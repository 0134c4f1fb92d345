import GrammarKit.Ast.Node

/-!
# Arenas

The nodes of a tree are kept in an arena, in the order in which they were made, and are never
changed or removed.  A tree is an arena together with the number of its root.

Numbers are plain data, so a number may lead out of the arena, and a chain of numbers may close into
a cycle.  `TreeFault` names these two faults.  Whoever walks down a tree counts the nodes on the way
from the root: a way that is longer than the arena has come by one node twice.

* `Arena.alloc` adds a node; `get_alloc_self`, `get_alloc_of_lt` say that it is there and that the
  older nodes are where they were.
* `Arena.alloc?` adds a node if there is a number left for it; there are `Arena.capacity` of them.
* `Arena.get` reads a node, or answers which number led nowhere.
-/

namespace GrammarKit

/-- What can be wrong with a tree. -/
inductive TreeFault where
  /-- There is no node number `index` among the `size` nodes of the arena. -/
  | dangling (size index : Nat)
  /-- A node is reached from itself. -/
  | cycle
  deriving DecidableEq, Repr

/-- The wording of a fault. -/
def TreeFault.message : TreeFault → String
  | .dangling size index =>
    "index out of bounds: the len is " ++ toString size ++ " but the index is " ++ toString index
  | .cycle => "the tree contains itself"

/-- The nodes made so far. -/
structure Arena where
  /-- The nodes, by their numbers. -/
  nodes : Array Node
  deriving DecidableEq, Repr

namespace Arena

/-- The arena without nodes. -/
def empty : Arena := ⟨#[]⟩

/-- The number of nodes. -/
def size (arena : Arena) : Nat := arena.nodes.size

/-- The number of nodes after which a way down must have met its end: one more than there are. -/
def height (arena : Arena) : Nat := arena.size + 1

/-- Adds a node and answers its number. -/
def alloc (node : Node) (arena : Arena) : NodeId × Arena :=
  (⟨arena.nodes.size⟩, ⟨arena.nodes.push node⟩)

/-- The number of nodes that there are numbers for: 2³², for a number has 32 bits. -/
def capacity : Nat := UInt32.size

/-- Adds a node and answers its number, unless all numbers are used up. -/
def alloc? (node : Node) (arena : Arena) : Option (NodeId × Arena) :=
  if arena.size < capacity then some (arena.alloc node) else none

/-- Adds nodes in order and answers their numbers. -/
def allocAll (nodes : List Node) (arena : Arena) : List NodeId × Arena :=
  ((List.range' arena.nodes.size nodes.length).map NodeId.mk, ⟨arena.nodes ++ nodes⟩)

/-- The node of that number. -/
def get (arena : Arena) (id : NodeId) : Except TreeFault Node :=
  match arena.nodes[id.index]? with
  | some node => .ok node
  | none => .error (.dangling arena.nodes.size id.index)

/-- The items of a list of nodes; any other node has none. -/
def items (arena : Arena) (id : NodeId) : Except TreeFault (List NodeId) :=
  (arena.get id).map fun
    | .rawList items => items
    | _ => []

@[simp] theorem get_alloc_self (arena : Arena) (node : Node) :
    (arena.alloc node).2.get (arena.alloc node).1 = .ok node := by
  simp [alloc, get]

theorem get_alloc_of_lt {arena : Arena} {id : NodeId} (h : id.index < arena.size) (node : Node) :
    (arena.alloc node).2.get id = arena.get id := by
  simp only [alloc, get, size] at *
  rw [Array.getElem?_push_lt h, Array.getElem?_eq_getElem h]

theorem get_eq_ok_iff {arena : Arena} {id : NodeId} {node : Node} :
    arena.get id = .ok node ↔ arena.nodes[id.index]? = some node := by
  unfold get
  split <;> simp_all

end Arena

/-- A syntax tree: the nodes and the root. -/
structure Tree where
  /-- The nodes. -/
  arena : Arena
  /-- The node at the top. -/
  root : NodeId
  deriving DecidableEq, Repr

/-- The number of nodes after which a way down the tree must have met its end. -/
def Tree.height (tree : Tree) : Nat := tree.arena.height

end GrammarKit
