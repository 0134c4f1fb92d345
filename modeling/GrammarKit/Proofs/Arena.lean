import GrammarKit.Ast.Arena

/-!
# Arenas grow

An arena is only ever added to.  So a number that leads to a node does so for good, and to the same
node, whatever is made later.

* `Arena.InRange`: the number leads to a node.
* `Arena.Grows`: one arena holds the nodes of another, at the same places.
-/

namespace GrammarKit.Arena

/-- The number leads to a node of the arena. -/
def InRange (arena : Arena) (id : NodeId) : Prop := id.index < arena.size

instance (arena : Arena) : DecidablePred arena.InRange := fun id => Nat.decLt id.index arena.size

/-- `after` is `before` with nodes added at the end. -/
def Grows (before after : Arena) : Prop := before.nodes.toList <+: after.nodes.toList

variable {arena before after later : Arena} {id : NodeId}

theorem exists_get (h : arena.InRange id) : ∃ node, arena.get id = .ok node :=
  ⟨arena.nodes[id.index], get_eq_ok_iff.mpr (Array.getElem?_eq_getElem h)⟩

theorem get_eq_error (h : ¬ arena.InRange id) :
    arena.get id = .error (.dangling arena.size id.index) := by
  unfold get
  rw [Array.getElem?_eq_none (Nat.le_of_not_lt h)]
  rfl

theorem inRange_of_get {node : Node} (h : arena.get id = .ok node) : arena.InRange id :=
  (Array.getElem?_eq_some_iff.mp (get_eq_ok_iff.mp h)).1

theorem Grows.refl (arena : Arena) : arena.Grows arena := List.prefix_refl _

theorem Grows.trans (h : before.Grows after) (h' : after.Grows later) : before.Grows later :=
  List.IsPrefix.trans h h'

theorem Grows.size_le (h : before.Grows after) : before.size ≤ after.size := by
  have hlength := List.IsPrefix.length_le h
  rwa [Array.length_toList, Array.length_toList] at hlength

/-- An arena that grows by nothing is the same. -/
theorem Grows.eq_of_size_eq (h : before.Grows after) (hsize : after.size = before.size) :
    after = before := by
  obtain ⟨nodes⟩ := before
  obtain ⟨nodes'⟩ := after
  have hlength : nodes.toList.length = nodes'.toList.length := by
    rw [Array.length_toList, Array.length_toList]
    exact hsize.symm
  have hlists : nodes.toList = nodes'.toList := List.IsPrefix.eq_of_length h hlength
  rw [Array.toList_inj.mp hlists]

theorem Grows.inRange (h : before.Grows after) (hid : before.InRange id) : after.InRange id :=
  Nat.lt_of_lt_of_le hid h.size_le

/-- A node stays where it is. -/
theorem Grows.get (h : before.Grows after) {node : Node} (hnode : before.get id = .ok node) :
    after.get id = .ok node := by
  rw [get_eq_ok_iff, ← Array.getElem?_toList] at hnode ⊢
  obtain ⟨hlt, hget⟩ := List.getElem?_eq_some_iff.mp hnode
  rw [← hget]
  exact List.prefix_iff_getElem?.mp h _ hlt

theorem size_alloc (arena : Arena) (node : Node) :
    (arena.alloc node).2.size = arena.size + 1 := Array.size_push node

theorem size_allocAll (arena : Arena) (nodes : List Node) :
    (arena.allocAll nodes).2.size = arena.size + nodes.length := by
  show (arena.nodes ++ nodes).size = arena.nodes.size + nodes.length
  rw [← Array.length_toList, Array.toList_appendList, List.length_append, Array.length_toList]

theorem grows_alloc (arena : Arena) (node : Node) : arena.Grows (arena.alloc node).2 := by
  show arena.nodes.toList <+: (arena.nodes.push node).toList
  rw [Array.toList_push]
  exact List.prefix_append _ _

theorem grows_allocAll (arena : Arena) (nodes : List Node) :
    arena.Grows (arena.allocAll nodes).2 := by
  show arena.nodes.toList <+: (arena.nodes ++ nodes).toList
  rw [Array.toList_appendList]
  exact List.prefix_append _ _

theorem allocAll_nil (arena : Arena) : arena.allocAll [] = ([], arena) := by
  simp [allocAll]

theorem allocAll_cons (arena : Arena) (node : Node) (nodes : List Node) :
    arena.allocAll (node :: nodes) =
      ((arena.alloc node).1 :: ((arena.alloc node).2.allocAll nodes).1,
        ((arena.alloc node).2.allocAll nodes).2) := by
  simp [allocAll, alloc, List.range'_succ]

theorem inRange_alloc (arena : Arena) (node : Node) :
    (arena.alloc node).2.InRange (arena.alloc node).1 :=
  inRange_of_get (get_alloc_self arena node)

end GrammarKit.Arena
