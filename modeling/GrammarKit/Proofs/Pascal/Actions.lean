import GrammarKit.Proofs.Grounded
import GrammarKit.Proofs.Visiting
import Mathlib.Data.List.Forall2

/-!
# A run is a list of actions

Statements nest, and a statement deep inside of others may fail.  But the subset has no branches and
no loops: what a tree does is settled before it runs, up to the values.  It is a list of assignments,
with an entry in between for each node that cannot be run, and a run performs the entries in order
until one fails.

An assignment evaluates an expression of the tree.  What it is can be written down without the arena,
as a formula over the variables.

* `Formula`, `Denotes`: the expression below a node, and its value in a store.
* `Action`, `Flattens`: the actions of a statement.
* `performAll`: actions one after the other, up to the first that fails; `exists_performed` says which
  have been performed then.
* `Denotes.evalNode_eq`, `Flattens.runNode_eq`: evaluation and runs do what the lists say.
* `run_performs_actions`: the runs of trees, one after the other in one store.
-/

namespace GrammarKit

/-- Nodes that may have a value. -/
def Node.isExpression : Node → Bool
  | .const .. | .var .. | .unary .. | .binary .. => true
  | _ => false

/-- Nodes that may be run. -/
def Node.isStatement : Node → Bool
  | .program .. | .block .. | .compound .. | .binary .assign .. | .nop | .varDecl .. => true
  | _ => false

namespace Pascal

/-! ## 1.  Expressions -/

/-- An expression without its arena. -/
inductive Formula where
  /-- A number, as it is written. -/
  | literal (text : String)
  /-- A variable. -/
  | var (name : String)
  /-- An operator in front of an operand. -/
  | unary (op : UnaryOp) (operand : Formula)
  /-- An operator between two operands. -/
  | binary (op : BinaryOp) (left right : Formula)
  /-- What has no value, with the words for it. -/
  | other (kind : String)

namespace Formula

/-- The value of a formula.  The operand on the left is evaluated before the one on the right. -/
def value (store : Store) : Formula → Except EvalError Float
  | .literal text => Pascal.literal text
  | .var name => store.value name
  | .unary op operand => (operand.value store).map (applyUnary op)
  | .binary op left right => do
    let a ← left.value store
    let b ← right.value store
    applyBinary op a b
  | .other kind => .error (.unsupported kind)

/-- The names of the variables in a formula. -/
def names : Formula → List String
  | .literal _ => []
  | .var name => [name]
  | .unary _ operand => operand.names
  | .binary _ left right => left.names ++ right.names
  | .other _ => []

/-- **The value depends on the variables of the formula** and on no others. -/
theorem value_congr {store store' : Store} {f : Formula}
    (h : ∀ name ∈ f.names, store.find? name = store'.find? name) :
    f.value store = f.value store' := by
  induction f with
  | literal text => rfl
  | var name =>
    have hname : store.find? name = store'.find? name := h name List.mem_cons_self
    rw [value, value, Store.value, Store.value, hname]
  | unary op operand ih => rw [value, value, ih h]
  | binary op left right ihleft ihright =>
    obtain ⟨hleft, hright⟩ := List.forall_mem_append.mp h
    rw [value, value, ihleft hleft, ihright hright]
  | other kind => rfl

end Formula

variable {arena : Arena} {id : NodeId}

/-- The formula is the expression below this node. -/
inductive Denotes (arena : Arena) : NodeId → Formula → Prop
  | literal {id : NodeId} {kind : NumberKind} {text : String}
    (hget : arena.get id = .ok (.const kind text)) : Denotes arena id (.literal text)
  | var {id : NodeId} {name : String} (hget : arena.get id = .ok (.var name)) :
    Denotes arena id (.var name)
  | unary {id operand : NodeId} {op : UnaryOp} {symbol : String} {f : Formula}
    (hget : arena.get id = .ok (.unary op symbol operand)) (hoperand : Denotes arena operand f) :
    Denotes arena id (.unary op f)
  | binary {id left right : NodeId} {op : BinaryOp} {symbol : String} {f g : Formula}
    (hget : arena.get id = .ok (.binary op symbol left right)) (hleft : Denotes arena left f)
    (hright : Denotes arena right g) : Denotes arena id (.binary op f g)
  | other {id : NodeId} {node : Node} (hget : arena.get id = .ok node)
    (hnode : node.isExpression = false) : Denotes arena id (.other node.kindName)

/-- There is but one formula to a node. -/
theorem Denotes.unique {f g : Formula} (hf : Denotes arena id f) (hg : Denotes arena id g) :
    f = g := by
  induction hf generalizing g <;> cases hg <;> grind [Node.isExpression]

theorem exists_denotes (h : arena.Grounded id) : ∃ f, Denotes arena id f := by
  refine h.induction fun id node _ hget hbelow => ?_
  cases node with
  | const kind text => exact ⟨_, .literal hget⟩
  | var name => exact ⟨_, .var hget⟩
  | unary op symbol operand =>
    obtain ⟨f, hf⟩ := hbelow operand List.mem_cons_self
    exact ⟨_, .unary hget hf⟩
  | binary op symbol left right =>
    obtain ⟨f, hf⟩ := hbelow left List.mem_cons_self
    obtain ⟨g, hg⟩ := hbelow right (List.mem_cons_of_mem _ List.mem_cons_self)
    exact ⟨_, .binary hget hf hg⟩
  | _ => exact ⟨_, .other hget rfl⟩

/-- **An evaluation yields the value of the formula.** -/
theorem Denotes.evalNode_eq {f : Formula} (hf : Denotes arena id f) (h : arena.Grounded id)
    (store : Store) {height : Nat} (hheight : arena.depth id < height) :
    evalNode arena store height id = f.value store := by
  induction hf generalizing height with
  | literal hget =>
    obtain ⟨lower, rfl, -⟩ := h.exists_lower hget hheight
    rw [evalNode, Arena.node, hget]
    rfl
  | var hget =>
    obtain ⟨lower, rfl, -⟩ := h.exists_lower hget hheight
    rw [evalNode, Arena.node, hget]
    rfl
  | @unary id operand op symbol f hget _ ih =>
    obtain ⟨lower, rfl, hlinks⟩ := h.exists_lower hget hheight
    obtain ⟨hoperand, hlower⟩ := hlinks operand List.mem_cons_self
    rw [evalNode, Arena.node, hget]
    simp only [Except.mapError]
    rw [ih hoperand hlower, Formula.value]
    cases f.value store <;> rfl
  | @binary id left right op symbol f g hget _ _ ihleft ihright =>
    obtain ⟨lower, rfl, hlinks⟩ := h.exists_lower hget hheight
    obtain ⟨hleft, hlowerleft⟩ := hlinks left List.mem_cons_self
    obtain ⟨hright, hlowerright⟩ := hlinks right (List.mem_cons_of_mem _ List.mem_cons_self)
    rw [evalNode, Arena.node, hget]
    simp only [Except.mapError]
    rw [ihleft hleft hlowerleft, ihright hright hlowerright, Formula.value]
    cases f.value store with
    | error why => rfl
    | ok a => cases g.value store <;> rfl
  | @other id node hget hnode =>
    obtain ⟨lower, rfl, -⟩ := h.exists_lower hget hheight
    rw [evalNode, Arena.node, hget]
    cases node <;> first | rfl | cases hnode

/-- A variable that occurs in the formula stands below the node. -/
theorem Denotes.exists_of_mem_names {f : Formula} (hf : Denotes arena id f) {name : String}
    (hname : name ∈ f.names) : ∃ x, arena.Reaches id x ∧ arena.get x = .ok (.var name) := by
  have hstep : ∀ {id link : NodeId} {node : Node}, arena.get id = .ok node → link ∈ node.links →
      (∃ x, arena.Reaches link x ∧ arena.get x = .ok (.var name)) →
      ∃ x, arena.Reaches id x ∧ arena.get x = .ok (.var name) := by
    rintro id link node hget hlink ⟨x, hx, hvar⟩
    exact ⟨x, .head (Arena.links_of_get hget ▸ hlink) hx, hvar⟩
  induction hf with
  | literal => exact absurd hname List.not_mem_nil
  | @var id name' hget =>
    obtain rfl := List.mem_singleton.mp hname
    exact ⟨id, .refl, hget⟩
  | unary hget _ ih => exact hstep hget List.mem_cons_self (ih hname)
  | binary hget _ _ ihleft ihright =>
    rcases List.mem_append.mp hname with hname | hname
    · exact hstep hget List.mem_cons_self (ihleft hname)
    · exact hstep hget (List.mem_cons_of_mem _ List.mem_cons_self) (ihright hname)
  | other => exact absurd hname List.not_mem_nil

/-! ## 2.  Statements -/

/-- What a run does at one place. -/
inductive Action where
  /-- The value of the formula becomes that of the variable. -/
  | assign (name : String) (value : Formula)
  /-- The run fails, as a node of this sort cannot be run. -/
  | unsupported (kind : String)

/-- Performs an action.  One that fails leaves the store as it is. -/
def Action.perform : Action → Store → Except EvalError Unit × Store
  | .assign name f, store =>
    match f.value store with
    | .error why => (.error why, store)
    | .ok x => (.ok (), store.insert name x)
  | .unsupported kind, store => (.error (.unsupported kind), store)

/-- Performs actions in order, up to the first that fails. -/
def performAll : List Action → Store → Except EvalError Unit × Store
  | [], store => (.ok (), store)
  | action :: actions, store =>
    match action.perform store with
    | (.ok (), store) => performAll actions store
    | (.error why, store) => (.error why, store)

/-- Going on with other actions. -/
theorem performAll_append (actions more : List Action) (store : Store) :
    performAll (actions ++ more) store =
      match performAll actions store with
      | (.ok (), store) => performAll more store
      | (.error why, store) => (.error why, store) := by
  induction actions generalizing store with
  | nil => rfl
  | cons action actions ih =>
    rw [List.cons_append, performAll, performAll]
    rcases action.perform store with ⟨why | ⟨⟩, after⟩
    · rfl
    · exact ih after

mutual

/-- These are the actions of the statement below this node. -/
inductive Flattens (arena : Arena) : NodeId → List Action → Prop
  | program {id name block : NodeId} {actions : List Action}
    (hget : arena.get id = .ok (.program name block)) (hblock : Flattens arena block actions) :
    Flattens arena id actions
  | block {id body : NodeId} {declarations : List NodeId} {actions : List Action}
    (hget : arena.get id = .ok (.block declarations body)) (hbody : Flattens arena body actions) :
    Flattens arena id actions
  | compound {id : NodeId} {statements : List NodeId} {actions : List Action}
    (hget : arena.get id = .ok (.compound statements))
    (hstatements : FlattensAll arena statements actions) : Flattens arena id actions
  | nop {id : NodeId} (hget : arena.get id = .ok .nop) : Flattens arena id []
  | varDecl {id : NodeId} {name type : String} (hget : arena.get id = .ok (.varDecl name type)) :
    Flattens arena id []
  | assign {id left right : NodeId} {symbol name : String} {value : Formula}
    (hget : arena.get id = .ok (.binary .assign symbol left right))
    (hleft : arena.get left = .ok (.var name)) (hright : Denotes arena right value) :
    Flattens arena id [.assign name value]
  | target {id left right : NodeId} {symbol : String} {node : Node}
    (hget : arena.get id = .ok (.binary .assign symbol left right))
    (hleft : arena.get left = .ok node) (hnode : ∀ name, node ≠ .var name) :
    Flattens arena id [.unsupported node.kindName]
  | other {id : NodeId} {node : Node} (hget : arena.get id = .ok node)
    (hnode : node.isStatement = false) : Flattens arena id [.unsupported node.kindName]

/-- These are the actions of the statements below these nodes, one after the other. -/
inductive FlattensAll (arena : Arena) : List NodeId → List Action → Prop
  | nil : FlattensAll arena [] []
  | cons {id : NodeId} {ids : List NodeId} {actions more : List Action}
    (hid : Flattens arena id actions) (hids : FlattensAll arena ids more) :
    FlattensAll arena (id :: ids) (actions ++ more)

end

mutual

/-- There is but one list of actions to a node. -/
theorem Flattens.unique : ∀ {id : NodeId} {actions other : List Action},
    Flattens arena id actions → Flattens arena id other → actions = other
  | _, _, _, .program hget hblock, h => by
    cases h <;> grind [Flattens.unique hblock, Node.isStatement]
  | _, _, _, .block hget hbody, h => by
    cases h <;> grind [Flattens.unique hbody, Node.isStatement]
  | _, _, _, .compound hget hstatements, h => by
    cases h <;> grind [FlattensAll.unique hstatements, Node.isStatement]
  | _, _, _, .nop hget, h => by cases h <;> grind [Node.isStatement]
  | _, _, _, .varDecl hget, h => by cases h <;> grind [Node.isStatement]
  | _, _, _, .assign hget hleft hright, h => by
    cases h <;> grind [Denotes.unique hright, Node.isStatement]
  | _, _, _, .target hget hleft hnode, h => by cases h <;> grind [Node.isStatement]
  | _, _, _, .other hget hnode, h => by cases h <;> grind [Node.isStatement]

theorem FlattensAll.unique : ∀ {ids : List NodeId} {actions other : List Action},
    FlattensAll arena ids actions → FlattensAll arena ids other → actions = other
  | _, _, _, .nil, .nil => rfl
  | _, _, _, .cons hid hids, .cons hid' hids' => by
    rw [Flattens.unique hid hid', FlattensAll.unique hids hids']

end

theorem exists_flattensAll {ids : List NodeId}
    (h : ∀ id ∈ ids, ∃ actions, Flattens arena id actions) :
    ∃ actions, FlattensAll arena ids actions := by
  induction ids with
  | nil => exact ⟨[], .nil⟩
  | cons id ids ih =>
    obtain ⟨hid, hids⟩ := List.forall_mem_cons.mp h
    obtain ⟨actions, hactions⟩ := hid
    obtain ⟨more, hmore⟩ := ih hids
    exact ⟨actions ++ more, .cons hactions hmore⟩

theorem exists_flattens_assign {left right : NodeId} {symbol : String} (h : arena.Grounded id)
    (hget : arena.get id = .ok (.binary .assign symbol left right)) :
    ∃ actions, Flattens arena id actions := by
  have hlinks : arena.links id = [left, right] := Arena.links_of_get hget
  obtain ⟨node, hleft⟩ := (h.of_mem_links (show left ∈ arena.links id by simp [hlinks])).exists_get
  obtain ⟨f, hf⟩ := exists_denotes (h.of_mem_links (show right ∈ arena.links id by simp [hlinks]))
  by_cases hnode : ∃ name, node = .var name
  · obtain ⟨name, rfl⟩ := hnode
    exact ⟨_, .assign hget hleft hf⟩
  · exact ⟨_, .target hget hleft (not_exists.mp hnode)⟩

/-- **Each statement of a tree that has an end is a list of actions.** -/
theorem exists_flattens (h : arena.Grounded id) : ∃ actions, Flattens arena id actions := by
  refine h.induction fun id node h hget hbelow => ?_
  cases node with
  | program name block =>
    obtain ⟨actions, hactions⟩ := hbelow block (List.mem_cons_of_mem _ List.mem_cons_self)
    exact ⟨actions, .program hget hactions⟩
  | block declarations body =>
    obtain ⟨actions, hactions⟩ := hbelow body (List.mem_append_right _ List.mem_cons_self)
    exact ⟨actions, .block hget hactions⟩
  | compound statements =>
    obtain ⟨actions, hactions⟩ := exists_flattensAll hbelow
    exact ⟨actions, .compound hget hactions⟩
  | nop => exact ⟨[], .nop hget⟩
  | varDecl name type => exact ⟨[], .varDecl hget⟩
  | binary op symbol left right =>
    cases op with
    | assign => exact exists_flattens_assign h hget
    | _ => exact ⟨_, .other hget rfl⟩
  | _ => exact ⟨_, .other hget rfl⟩

/-! ## 3.  Runs -/

/-- An assignment is one action. -/
theorem runAssign_eq {left right : NodeId} {name : String} {value : Formula}
    (hleft : arena.get left = .ok (.var name)) (hright : Denotes arena right value)
    (h : arena.Grounded right) (store : Store) :
    runAssign arena left right store = performAll [.assign name value] store := by
  rw [runAssign, Arena.node, hleft]
  simp only [Except.mapError]
  rw [hright.evalNode_eq h store h.depth_lt_height, performAll, Action.perform]
  cases value.value store <;> rfl

/-- An assignment to something else fails. -/
theorem runAssign_eq_unsupported {left right : NodeId} {node : Node}
    (hleft : arena.get left = .ok node) (hnode : ∀ name, node ≠ .var name) (store : Store) :
    runAssign arena left right store = performAll [.unsupported node.kindName] store := by
  rw [runAssign, Arena.node, hleft]
  cases node with
  | var name => exact absurd rfl (hnode name)
  | _ => rfl

mutual

/-- **A run performs the actions.** -/
theorem Flattens.runNode_eq : ∀ {id : NodeId} {actions : List Action},
    Flattens arena id actions → arena.Grounded id → ∀ (store : Store) {levels : Nat},
      arena.depth id < levels → runNode arena levels id store = performAll actions store
  | _, _, .program hget hblock, h, store, levels, hlevels => by
    obtain ⟨lower, rfl, hlinks⟩ := h.exists_lower hget hlevels
    obtain ⟨hgrounded, hlower⟩ := hlinks _ (List.mem_cons_of_mem _ List.mem_cons_self)
    rw [runNode, Arena.node, hget]
    exact hblock.runNode_eq hgrounded store hlower
  | _, _, .block hget hbody, h, store, levels, hlevels => by
    obtain ⟨lower, rfl, hlinks⟩ := h.exists_lower hget hlevels
    obtain ⟨hgrounded, hlower⟩ := hlinks _ (List.mem_append_right _ List.mem_cons_self)
    rw [runNode, Arena.node, hget]
    exact hbody.runNode_eq hgrounded store hlower
  | _, _, .compound hget hstatements, h, store, levels, hlevels => by
    obtain ⟨lower, rfl, hlinks⟩ := h.exists_lower hget hlevels
    rw [runNode, Arena.node, hget]
    exact hstatements.runAll_eq store hlinks
  | _, _, .nop hget, h, store, levels, hlevels => by
    obtain ⟨lower, rfl, -⟩ := h.exists_lower hget hlevels
    rw [runNode, Arena.node, hget]
    rfl
  | _, _, .varDecl hget, h, store, levels, hlevels => by
    obtain ⟨lower, rfl, -⟩ := h.exists_lower hget hlevels
    rw [runNode, Arena.node, hget]
    rfl
  | _, _, .assign hget hleft hright, h, store, levels, hlevels => by
    obtain ⟨lower, rfl, hlinks⟩ := h.exists_lower hget hlevels
    obtain ⟨hgrounded, -⟩ := hlinks _ (List.mem_cons_of_mem _ List.mem_cons_self)
    rw [runNode, Arena.node, hget]
    exact runAssign_eq hleft hright hgrounded store
  | _, _, .target hget hleft hnode, h, store, levels, hlevels => by
    obtain ⟨lower, rfl, -⟩ := h.exists_lower hget hlevels
    rw [runNode, Arena.node, hget]
    exact runAssign_eq_unsupported hleft hnode store
  | _, _, @Flattens.other _ _ node hget hnode, h, store, levels, hlevels => by
    obtain ⟨lower, rfl, -⟩ := h.exists_lower hget hlevels
    rw [runNode, Arena.node, hget]
    cases node with
    | binary op symbol left right => cases op <;> first | rfl | cases hnode
    | _ => first | rfl | cases hnode

theorem FlattensAll.runAll_eq : ∀ {ids : List NodeId} {actions : List Action},
    FlattensAll arena ids actions → ∀ (store : Store) {levels : Nat},
      (∀ id ∈ ids, arena.Grounded id ∧ arena.depth id < levels) →
      runAll (runNode arena levels) ids store = performAll actions store
  | _, _, .nil, _, _, _ => rfl
  | _, _, .cons hid hids, store, levels, h => by
    obtain ⟨⟨hgrounded, hlevels⟩, h⟩ := List.forall_mem_cons.mp h
    rw [runAll, hid.runNode_eq hgrounded store hlevels, performAll_append]
    rcases performAll _ store with ⟨why | ⟨⟩, after⟩
    · rfl
    · exact hids.runAll_eq after h

end

theorem Flattens.run_eq {tree : Tree} {actions : List Action}
    (hactions : Flattens tree.arena tree.root actions) (h : tree.arena.Grounded tree.root)
    (store : Store) : run tree store = performAll actions store :=
  hactions.runNode_eq h store (Nat.lt_of_lt_of_le h.depth_lt_height (Nat.le_add_right _ _))

/-! ## 4.  What is left in the store -/

/-- The action assigns to this variable. -/
def Action.Assigns (action : Action) (name : String) : Prop := ∃ value, action = .assign name value

/-- The actions can be performed one after the other, and lead from the one store to the other. -/
def Performs : List Action → Store → Store → Prop
  | [], store, after => store = after
  | action :: actions, store, after =>
    ∃ between, action.perform store = (.ok (), between) ∧ Performs actions between after

/-- A variable that no action assigns to keeps its value. -/
theorem Performs.find?_eq {actions : List Action} {store after : Store}
    (h : Performs actions store after) {name : String}
    (hname : ∀ action ∈ actions, ¬ action.Assigns name) : after.find? name = store.find? name := by
  induction actions generalizing store with
  | nil => rw [show store = after from h]
  | cons action actions ih =>
    obtain ⟨between, hperform, hrest⟩ := h
    obtain ⟨hother, hnames⟩ := List.forall_mem_cons.mp hname
    rw [ih hrest hnames]
    cases action with
    | unsupported kind => cases hperform
    | assign other value =>
      rw [Action.perform] at hperform
      split at hperform
      · cases hperform
      · cases hperform
        have hne : name ≠ other := fun heq => hother ⟨value, by rw [heq]⟩
        rw [Store.find?_insert, if_neg hne]

/-- An action that fails leaves the store as it is. -/
theorem Action.eq_of_perform_eq_error {action : Action} {store after : Store} {why : EvalError}
    (h : action.perform store = (.error why, after)) : after = store := by
  cases action with
  | unsupported kind => cases h; rfl
  | assign name value =>
    rw [perform] at h
    split at h <;> cases h
    rfl

/-- **What has been performed** when the list is done: all actions up to the first that fails. -/
theorem exists_performed (actions : List Action) (store : Store) :
    ∃ done rest, actions = done ++ rest ∧ Performs done store (performAll actions store).2 ∧
      (rest = [] ∧ (performAll actions store).1 = .ok () ∨
        ∃ action more why, rest = action :: more ∧ (performAll actions store).1 = .error why ∧
          action.perform (performAll actions store).2 =
            (.error why, (performAll actions store).2)) := by
  induction actions generalizing store with
  | nil => exact ⟨[], [], rfl, rfl, Or.inl ⟨rfl, rfl⟩⟩
  | cons action actions ih =>
    rcases hperform : action.perform store with ⟨why | ⟨⟩, after⟩
    · have hall : performAll (action :: actions) store = (.error why, after) := by
        rw [performAll, hperform]
      obtain rfl := Action.eq_of_perform_eq_error hperform
      rw [hall]
      exact ⟨[], action :: actions, rfl, rfl, Or.inr ⟨action, actions, why, rfl, rfl, hperform⟩⟩
    · have hall : performAll (action :: actions) store = performAll actions after := by
        rw [performAll, hperform]
      obtain ⟨done, rest, rfl, hdone, hrest⟩ := ih after
      rw [hall]
      exact ⟨action :: done, rest, rfl, ⟨after, hperform, hdone⟩, hrest⟩

/-! ## 5.  Runs in turn -/

/-- Runs one after the other, each in the store that the one before left, failed or not. -/
def inTurn {α : Type} (run : α → Store → Except EvalError Unit × Store) :
    List α → Store → List (Except EvalError Unit) × Store
  | [], store => ([], store)
  | a :: as, store =>
    let (result, after) := run a store
    let (results, last) := inTurn run as after
    (result :: results, last)

theorem inTurn_congr {α β : Type} {run : α → Store → Except EvalError Unit × Store}
    {run' : β → Store → Except EvalError Unit × Store} {as : List α} {bs : List β}
    (h : List.Forall₂ (fun a b => ∀ store, run a store = run' b store) as bs) (store : Store) :
    inTurn run as store = inTurn run' bs store := by
  induction h generalizing store with
  | nil => rfl
  | cons hrun _ ih =>
    rw [inTurn, inTurn, hrun]
    simp only [ih]

/-- **Runs perform lists of actions**, in any store, of all trees that stay in their arena and do not
contain themselves.  The list of a tree is what `Flattens` says, and there is no other.  A run performs
its front part and then fails at the next action, or is done with the list.  It leaves the store as it
was before the action that failed, and the variables to which nothing was assigned as they were.  An
expression has the value of its formula, and it does not matter what the store says of variables that
do not occur in it.  Runs of several trees in one store perform the lists in turn. -/
theorem run_performs_actions (trees : List Tree)
    (h : ∀ tree ∈ trees, tree.arena.Grounded tree.root) :
    ∃ lists : List (List Action),
      List.Forall₂ (fun tree actions =>
        (∀ other, Flattens tree.arena tree.root other ↔ other = actions) ∧
        (∀ store, run tree store = performAll actions store) ∧
        (∀ store, ∃ done rest, actions = done ++ rest ∧ Performs done store (run tree store).2 ∧
          (∀ name, (∀ action ∈ done, ¬ action.Assigns name) →
            (run tree store).2.find? name = store.find? name) ∧
          (rest = [] ∧ (run tree store).1 = .ok () ∨
            ∃ action more why, rest = action :: more ∧ (run tree store).1 = .error why ∧
              action.perform (run tree store).2 = (.error why, (run tree store).2)))) trees lists ∧
      (∀ tree ∈ trees, ∀ x, tree.arena.Reaches tree.root x → ∀ store store',
        (∀ f, Denotes tree.arena x f →
          evalNode tree.arena store tree.arena.height x = f.value store) ∧
        ((∀ y name, tree.arena.Reaches x y → tree.arena.get y = .ok (.var name) →
            store.find? name = store'.find? name) →
          evalNode tree.arena store tree.arena.height x =
            evalNode tree.arena store' tree.arena.height x)) ∧
      ∀ store, inTurn run trees store = inTurn performAll lists store := by
  have hlist : ∀ tree ∈ trees, ∃ actions, Flattens tree.arena tree.root actions :=
    fun tree htree => exists_flattens (h tree htree)
  choose! list hlist using hlist
  have hrun : ∀ tree ∈ trees, ∀ store, run tree store = performAll (list tree) store :=
    fun tree htree => (hlist tree htree).run_eq (h tree htree)
  refine ⟨trees.map list, ?_, fun tree htree x hx store store' => ⟨fun f hf => ?_, fun hsame => ?_⟩,
    fun store => ?_⟩
  · rw [List.forall₂_map_right_iff, List.forall₂_same]
    refine fun tree htree => ⟨fun other => ⟨fun hother => ?_, ?_⟩, hrun tree htree, fun store => ?_⟩
    · exact hother.unique (hlist tree htree)
    · rintro rfl
      exact hlist tree htree
    · obtain ⟨done, rest, hsplit, hdone, hrest⟩ := exists_performed (list tree) store
      rw [← hrun tree htree store] at hdone hrest
      exact ⟨done, rest, hsplit, hdone, fun name => hdone.find?_eq, hrest⟩
  · have hgrounded := (h tree htree).of_reaches hx
    exact hf.evalNode_eq hgrounded store hgrounded.depth_lt_height
  · have hgrounded := (h tree htree).of_reaches hx
    obtain ⟨f, hf⟩ := exists_denotes hgrounded
    rw [hf.evalNode_eq hgrounded store hgrounded.depth_lt_height,
      hf.evalNode_eq hgrounded store' hgrounded.depth_lt_height]
    refine Formula.value_congr fun name hname => ?_
    obtain ⟨y, hy, hvar⟩ := hf.exists_of_mem_names hname
    exact hsame y name hy hvar
  · refine inTurn_congr ?_ store
    rw [List.forall₂_map_right_iff, List.forall₂_same]
    exact hrun

/-- A statement that stands in two places of a list, and younger nodes below it, come to no harm. -/
theorem run_performs_actions_shared :
    let arena : Arena := ⟨#[.compound [⟨1⟩, ⟨2⟩, ⟨1⟩], .binary .assign ":=" ⟨3⟩ ⟨4⟩, .nop, .var "x",
      .var "y"]⟩
    ∀ store, run ⟨arena, ⟨0⟩⟩ store =
      performAll [.assign "x" (.var "y"), .assign "x" (.var "y")] store := by
  intro arena
  have hrank : ∀ x, arena.InRange x → ∀ link ∈ arena.links x,
      arena.InRange link ∧ 5 - link.index < 5 - x.index := by
    rintro ⟨index⟩ hindex
    have hall : ∀ index < 5, ∀ link ∈ arena.links ⟨index⟩,
        link.index < 5 ∧ 5 - link.index < 5 - index := by decide
    exact hall index hindex
  have hassign : Flattens arena ⟨1⟩ [.assign "x" (.var "y")] := .assign rfl rfl (.var rfl)
  have hroot : Flattens arena ⟨0⟩ [.assign "x" (.var "y"), .assign "x" (.var "y")] :=
    .compound rfl (.cons hassign (.cons (.nop rfl) (.cons hassign .nil)))
  have hgrounded : ∀ tree ∈ [Tree.mk arena ⟨0⟩], tree.arena.Grounded tree.root := by
    rw [List.forall_mem_singleton]
    exact Arena.grounded_of_rank hrank (show 0 < 5 by decide)
  obtain ⟨lists, hlists, -⟩ := run_performs_actions [⟨arena, ⟨0⟩⟩] hgrounded
  obtain ⟨actions, -, hactions, -⟩ := List.forall₂_cons_left_iff.mp hlists
  obtain ⟨hunique, hrun, -⟩ := hactions
  rw [(hunique _).mp hroot]
  exact hrun

end Pascal

end GrammarKit
