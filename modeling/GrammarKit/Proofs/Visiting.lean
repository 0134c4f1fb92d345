import GrammarKit.Ast.Drawing
import GrammarKit.Calc.Eval
import GrammarKit.Pascal.Run
import GrammarKit.Proofs.Ownership

/-!
# Walks over a tree

The calculator, the runs of Pascal and the drawings all walk down a tree from its root.  Where nodes
are made of older nodes only, a walk never comes by a node twice on one way down, so it ends before it
is cut short, and the numbers that it follows always lead to a node.  Where nodes share nothing, it
does not come by a node twice at all.

## Telling which nodes are looked up

A result does not say which nodes it was made from.  So each of the three walks is written once more,
in any monad and with any way to look up a node.  With `Arena.look`, which writes down the number that
it is asked for, the walk comes to the same result as before and leaves the list of the numbers.  The
walk itself cannot tell whether they are written down.

* `Traced`: a result, and the numbers that were looked up for it.
* `Arithmetic.evalWith`, `Pascal.runWith`, `Drawing.addWith`: the walks.
* `value_evalWith`, `value_runWith`, `value_addWith`: they come to the same results.
* `visited_evalWith`, `visited_runWith`, `visited_addWith`: they look up nodes below, in order.
* `Arithmetic.exists_failsAt`: what goes wrong in an evaluation goes wrong at a node.
* `evalNode_ne_tree`, `runNode_ne_tree`, `exists_addNode`: no walk comes to a fault of the tree.
-/

namespace GrammarKit

/-! ## What is looked up -/

/-- Goes on with the value of a step, if it has one. -/
def onOk {m : Type → Type} [Monad m] {E A B : Type} (x : m (Except E A))
    (f : A → m (Except E B)) : m (Except E B) := do
  match ← x with
  | .error why => pure (.error why)
  | .ok a => f a

/-- A result, and the numbers of the nodes that were looked up for it, in order. -/
structure Traced (A : Type) where
  /-- The result. -/
  value : A
  /-- The numbers that were looked up. -/
  visited : List NodeId

namespace Traced

instance : Monad Traced where
  pure a := ⟨a, []⟩
  bind x f := ⟨(f x.value).value, x.visited ++ (f x.value).visited⟩

variable {E A B : Type}

@[simp] theorem value_bind (x : Traced A) (f : A → Traced B) :
    (x >>= f).value = (f x.value).value := rfl

@[simp] theorem visited_bind (x : Traced A) (f : A → Traced B) :
    (x >>= f).visited = x.visited ++ (f x.value).visited := rfl

/-- What is looked up first stands in front. -/
theorem sublist_bind {x : Traced A} {f : A → Traced B} {front back : List NodeId}
    (hfront : x.visited.Sublist front) (hback : ∀ a, (f a).visited.Sublist back) :
    (x >>= f).visited.Sublist (front ++ back) := hfront.append (hback x.value)

/-- Nothing more is looked up. -/
theorem sublist_bind_of_nil {x : Traced A} {f : A → Traced B} {front : List NodeId}
    (hfront : x.visited.Sublist front) (hback : ∀ a, (f a).visited = []) :
    (x >>= f).visited.Sublist front := by
  rw [visited_bind, hback, List.append_nil]
  exact hfront

variable {x : Traced (Except E A)} {f : A → Traced (Except E B)} {front back : List NodeId}

theorem value_onOk (x : Traced (Except E A)) (f : A → Traced (Except E B)) :
    (onOk x f).value = x.value.bind fun a => (f a).value := by
  rw [onOk, value_bind]
  cases x.value <;> rfl

theorem sublist_onOk (hfront : x.visited.Sublist front) (hback : ∀ a, (f a).visited.Sublist back) :
    (onOk x f).visited.Sublist (front ++ back) := by
  refine sublist_bind hfront fun result => ?_
  cases result with
  | error why => exact List.nil_sublist _
  | ok a => exact hback a

theorem sublist_onOk_pure {g : A → Except E B} (hfront : x.visited.Sublist front) :
    (onOk x fun a => pure (g a)).visited.Sublist front :=
  sublist_bind_of_nil hfront fun result => by cases result <;> rfl

/-- Either the first step goes wrong or the second one. -/
theorem error_of_onOk {why : E} (h : (onOk x f).value = .error why) :
    x.value = .error why ∨ ∃ a, (f a).value = .error why := by
  rw [value_onOk] at h
  cases hvalue : x.value with
  | error why' =>
    rw [hvalue] at h
    cases h
    exact Or.inl rfl
  | ok a =>
    rw [hvalue] at h
    exact Or.inr ⟨a, h⟩

end Traced

namespace Arena

/-- Looks up a node and writes down its number. -/
def look (arena : Arena) (id : NodeId) : Traced (Except TreeFault Node) := ⟨arena.get id, [id]⟩

@[simp] theorem value_look (arena : Arena) (id : NodeId) : (arena.look id).value = arena.get id := rfl

@[simp] theorem visited_look (arena : Arena) (id : NodeId) : (arena.look id).visited = [id] := rfl

end Arena

variable {m : Type → Type} [Monad m] {arena : Arena} {id : NodeId} {node : Node}

/-- The nodes below a node are it and those below its links. -/
theorem Arena.Tidy.below_of_get (h : arena.Tidy) (hget : arena.get id = .ok node) :
    arena.below id = id :: node.links.flatMap arena.below := by
  rw [h.below_eq, links_of_get hget]

theorem Arena.Tidy.inRange_link (h : arena.Tidy) (hget : arena.get id = .ok node) {link : NodeId}
    (hlink : link ∈ node.links) : arena.InRange link :=
  Nat.lt_trans (h.link_lt id node hget link hlink) (inRange_of_get hget)

theorem Arena.Tidy.self_sublist (h : arena.Tidy) (id : NodeId) : [id].Sublist (arena.below id) := by
  rw [h.below_eq]
  exact (List.nil_sublist _).cons_cons id

/-! ## Expressions -/

/-- A way to evaluate expressions: nodes without operands, signs, and operators between values. -/
structure Arithmetic (V : Type) where
  /-- The value of a node without operands. -/
  leaf : Node → Except EvalError V
  /-- A sign in front of a value. -/
  unary : UnaryOp → V → Except EvalError V
  /-- An operator between two values. -/
  binary : BinaryOp → V → V → Except EvalError V

namespace Arithmetic

variable {V : Type} {arithmetic : Arithmetic V}

/-- The evaluation of a node, with any way to look up nodes. -/
def evalWith (arithmetic : Arithmetic V) (look : NodeId → m (Except TreeFault Node)) :
    (height : Nat) → NodeId → m (Except EvalError V)
  | 0, _ => pure (.error (.tree .cycle))
  | height + 1, id => do
    match ← look id with
    | .error fault => pure (.error (.tree fault))
    | .ok (.unary op _ operand) =>
      onOk (evalWith arithmetic look height operand) fun v => pure (arithmetic.unary op v)
    | .ok (.binary op _ left right) =>
      onOk (evalWith arithmetic look height left) fun a =>
        onOk (evalWith arithmetic look height right) fun b => pure (arithmetic.binary op a b)
    | .ok other => pure (arithmetic.leaf other)

/-- **An evaluation looks up nodes below**, from left to right. -/
theorem visited_evalWith (h : arena.Tidy) (height : Nat) (id : NodeId) :
    (arithmetic.evalWith arena.look height id).visited.Sublist (arena.below id) := by
  induction height generalizing id with
  | zero => exact List.nil_sublist _
  | succ height ih =>
    rw [evalWith, Traced.visited_bind, Arena.value_look, Arena.visited_look]
    cases hget : arena.get id with
    | error fault => exact h.self_sublist id
    | ok node =>
      cases node with
      | unary op symbol operand =>
        rw [h.below_of_get hget, Node.links, List.flatMap_singleton]
        refine (List.Sublist.refl [id]).append ?_
        exact Traced.sublist_onOk_pure (ih operand)
      | binary op symbol left right =>
        rw [h.below_of_get hget, Node.links, List.flatMap_cons, List.flatMap_singleton]
        refine (List.Sublist.refl [id]).append ?_
        exact Traced.sublist_onOk (ih left) fun a => Traced.sublist_onOk_pure (ih right)
      | _ => exact h.self_sublist id

/-- The node goes wrong itself, whatever its operands come to. -/
def FailsAt (arithmetic : Arithmetic V) (why : EvalError) : Node → Prop
  | .unary op _ _ => ∃ v, arithmetic.unary op v = .error why
  | .binary op _ _ _ => ∃ a b, arithmetic.binary op a b = .error why
  | other => arithmetic.leaf other = .error why

/-- **What goes wrong in an evaluation goes wrong at a node that is reached**, if all links lead to
older nodes. -/
theorem exists_failsAt (h : arena.Tidy) {height : Nat} (hid : arena.InRange id)
    (hheight : id.index < height) {why : EvalError}
    (herror : (arithmetic.evalWith arena.look height id).value = .error why) :
    ∃ x node, arena.Reaches id x ∧ arena.get x = .ok node ∧ arithmetic.FailsAt why node := by
  induction height generalizing id with
  | zero => exact absurd hheight (Nat.not_lt_zero _)
  | succ height ih =>
    obtain ⟨node, hget⟩ := Arena.exists_get hid
    have hbelow : ∀ link ∈ node.links,
        (arithmetic.evalWith arena.look height link).value = .error why →
        ∃ x node, arena.Reaches id x ∧ arena.get x = .ok node ∧ arithmetic.FailsAt why node := by
      intro link hlink herror
      have hlt := h.link_lt id node hget link hlink
      obtain ⟨x, node', hx, hnode'⟩ := ih (h.inRange_link hget hlink)
        (Nat.lt_of_lt_of_le hlt (Nat.le_of_lt_succ hheight)) herror
      exact ⟨x, node', .head (Arena.links_of_get hget ▸ hlink) hx, hnode'⟩
    have hself : arithmetic.FailsAt why node →
        ∃ x node, arena.Reaches id x ∧ arena.get x = .ok node ∧ arithmetic.FailsAt why node :=
      fun hfails => ⟨id, node, .refl, hget, hfails⟩
    rw [evalWith, Traced.value_bind, Arena.value_look, hget] at herror
    cases node with
    | unary op symbol operand =>
      rcases Traced.error_of_onOk herror with hoperand | ⟨v, hown⟩
      · exact hbelow operand List.mem_cons_self hoperand
      · exact hself ⟨v, hown⟩
    | binary op symbol left right =>
      rcases Traced.error_of_onOk herror with hleft | ⟨a, herror⟩
      · exact hbelow left List.mem_cons_self hleft
      rcases Traced.error_of_onOk herror with hright | ⟨b, hown⟩
      · exact hbelow right (List.mem_cons_of_mem left List.mem_cons_self) hright
      · exact hself ⟨a, b, hown⟩
    | _ => exact hself herror

end Arithmetic

/-! ### The calculator -/

namespace Calc

/-- The integers of 32 bits. -/
def arithmetic : Arithmetic Int where
  leaf
    | .const _ text => literal text
    | other => .error (.unsupported other.kindName)
  unary := applyUnary
  binary := applyBinary

/-- The evaluation is that of the calculator. -/
theorem value_evalWith (arena : Arena) (height : Nat) (id : NodeId) :
    (arithmetic.evalWith arena.look height id).value = evalNode arena height id := by
  induction height generalizing id with
  | zero => rfl
  | succ height ih =>
    rw [Arithmetic.evalWith, evalNode, Traced.value_bind, Arena.value_look, Arena.node]
    cases arena.get id with
    | error fault => rfl
    | ok node =>
      cases node with
      | unary op symbol operand =>
        simp only [Traced.value_onOk, ih, Except.mapError]
        cases evalNode arena height operand <;> rfl
      | binary op symbol left right =>
        simp only [Traced.value_onOk, ih, Except.mapError]
        cases evalNode arena height left with
        | error why => rfl
        | ok a => cases evalNode arena height right <;> rfl
      | _ => rfl

theorem checked_ne_tree (symbol : String) (v : Int) (fault : TreeFault) :
    checked symbol v ≠ .error (.tree fault) := by
  rw [checked]
  split <;> exact nofun

/-- No value of a node has to do with the shape of the tree. -/
theorem not_failsAt_tree (fault : TreeFault) (node : Node) :
    ¬ arithmetic.FailsAt (.tree fault) node := by
  cases node with
  | const kind text =>
    show literal text ≠ _
    rw [literal]
    split
    · split <;> exact nofun
    · exact nofun
  | unary op symbol operand =>
    rintro ⟨v, herror⟩
    cases op with
    | plus => cases herror
    | minus => exact checked_ne_tree _ _ fault herror
  | binary op symbol left right =>
    rintro ⟨a, b, herror⟩
    cases op with
    | add | sub | mul => exact checked_ne_tree _ _ fault herror
    | intDiv =>
      change applyBinary .intDiv a b = _ at herror
      rw [applyBinary] at herror
      split at herror
      · cases herror
      · exact checked_ne_tree _ _ fault herror
    | floatDiv | assign => cases herror
  | _ => exact nofun

/-- **An evaluation comes to no fault of the tree**, if all links lead to older nodes. -/
theorem evalNode_ne_tree (h : arena.Tidy) {height : Nat} (hid : arena.InRange id)
    (hheight : id.index < height) (fault : TreeFault) :
    evalNode arena height id ≠ .error (.tree fault) := by
  intro herror
  rw [← value_evalWith] at herror
  obtain ⟨x, node, -, -, hfails⟩ := Arithmetic.exists_failsAt h hid hheight herror
  exact not_failsAt_tree fault node hfails

end Calc

/-! ## Runs of Pascal -/

namespace Pascal

/-- The floats of 64 bits, with the variables of a store. -/
def arithmetic (store : Store) : Arithmetic Float where
  leaf
    | .const _ text => literal text
    | .var name => store.value name
    | other => .error (.unsupported other.kindName)
  unary op x := .ok (applyUnary op x)
  binary := applyBinary

/-- The run of several statements, with any way to run one. -/
def runAllWith (run : NodeId → Store → m (Except EvalError Unit × Store)) :
    List NodeId → Store → m (Except EvalError Unit × Store)
  | [], store => pure (.ok (), store)
  | id :: ids, store => do
    match ← run id store with
    | (.ok (), store) => runAllWith run ids store
    | (.error why, store) => pure (.error why, store)

/-- An assignment, with any way to look up nodes. -/
def runAssignWith (look : NodeId → m (Except TreeFault Node)) (height : Nat) (left right : NodeId)
    (store : Store) : m (Except EvalError Unit × Store) := do
  match ← look left with
  | .error fault => pure (.error (.tree fault), store)
  | .ok (.var name) =>
    match ← (arithmetic store).evalWith look height right with
    | .error why => pure (.error why, store)
    | .ok x => pure (.ok (), store.insert name x)
  | .ok other => pure (.error (.unsupported other.kindName), store)

/-- The run of a statement, with any way to look up nodes. -/
def runWith (look : NodeId → m (Except TreeFault Node)) (height : Nat) :
    (levels : Nat) → NodeId → Store → m (Except EvalError Unit × Store)
  | 0, _, store => pure (.error (.tree .cycle), store)
  | levels + 1, id, store => do
    match ← look id with
    | .error fault => pure (.error (.tree fault), store)
    | .ok (.program _ block) => runWith look height levels block store
    | .ok (.block _ body) => runWith look height levels body store
    | .ok (.compound statements) => runAllWith (runWith look height levels) statements store
    | .ok (.binary .assign _ left right) => runAssignWith look height left right store
    | .ok .nop => pure (.ok (), store)
    | .ok (.varDecl _ _) => pure (.ok (), store)
    | .ok other => pure (.error (.unsupported other.kindName), store)

/-- The evaluation is that of Pascal. -/
theorem value_evalWith (arena : Arena) (store : Store) (height : Nat) (id : NodeId) :
    ((arithmetic store).evalWith arena.look height id).value = evalNode arena store height id := by
  induction height generalizing id with
  | zero => rfl
  | succ height ih =>
    rw [Arithmetic.evalWith, evalNode, Traced.value_bind, Arena.value_look, Arena.node]
    cases arena.get id with
    | error fault => rfl
    | ok node =>
      cases node with
      | unary op symbol operand =>
        simp only [Traced.value_onOk, ih, Except.mapError]
        cases evalNode arena store height operand <;> rfl
      | binary op symbol left right =>
        simp only [Traced.value_onOk, ih, Except.mapError]
        cases evalNode arena store height left with
        | error why => rfl
        | ok a => cases evalNode arena store height right <;> rfl
      | _ => rfl

theorem value_runAllWith {run : NodeId → Store → Traced (Except EvalError Unit × Store)}
    {run' : NodeId → Store → Except EvalError Unit × Store}
    (h : ∀ id store, (run id store).value = run' id store) (ids : List NodeId) (store : Store) :
    (runAllWith run ids store).value = runAll run' ids store := by
  induction ids generalizing store with
  | nil => rfl
  | cons id ids ih =>
    rw [runAllWith, runAll, Traced.value_bind, h]
    rcases run' id store with ⟨_ | ⟨⟩, store'⟩
    · rfl
    · exact ih store'

theorem value_runAssignWith (arena : Arena) (left right : NodeId) (store : Store) :
    (runAssignWith arena.look arena.height left right store).value =
      runAssign arena left right store := by
  rw [runAssignWith, runAssign, Traced.value_bind, Arena.value_look, Arena.node]
  cases arena.get left with
  | error fault => rfl
  | ok node =>
    cases node with
    | var name =>
      simp only [Traced.value_bind, value_evalWith, Except.mapError]
      cases evalNode arena store arena.height right <;> rfl
    | _ => rfl

theorem value_runWith (arena : Arena) (levels : Nat) (id : NodeId) (store : Store) :
    (runWith arena.look arena.height levels id store).value = runNode arena levels id store := by
  induction levels generalizing id store with
  | zero => rfl
  | succ levels ih =>
    rw [runWith, runNode, Traced.value_bind, Arena.value_look, Arena.node]
    cases arena.get id with
    | error fault => rfl
    | ok node =>
      cases node with
      | program name block => exact ih block store
      | block ids body => exact ih body store
      | compound ids => exact value_runAllWith ih ids store
      | binary op symbol left right =>
        cases op with
        | assign => exact value_runAssignWith arena left right store
        | _ => rfl
      | _ => rfl

theorem visited_runAllWith {run : NodeId → Store → Traced (Except EvalError Unit × Store)}
    (h : ∀ id store, (run id store).visited.Sublist (arena.below id)) (ids : List NodeId)
    (store : Store) : (runAllWith run ids store).visited.Sublist (ids.flatMap arena.below) := by
  induction ids generalizing store with
  | nil => exact List.Sublist.refl _
  | cons id ids ih =>
    rw [runAllWith, List.flatMap_cons]
    refine Traced.sublist_bind (h id store) fun result => ?_
    rcases result with ⟨_ | ⟨⟩, store'⟩
    · exact List.nil_sublist _
    · exact ih store'

theorem visited_runAssignWith (h : arena.Tidy) (height : Nat) (left right : NodeId)
    (store : Store) : (runAssignWith arena.look height left right store).visited.Sublist
      (arena.below left ++ arena.below right) := by
  rw [runAssignWith]
  refine Traced.sublist_bind (h.self_sublist left) fun result => ?_
  cases result with
  | error fault => exact List.nil_sublist _
  | ok node =>
    cases node with
    | var name =>
      exact Traced.sublist_bind_of_nil (Arithmetic.visited_evalWith h height right) fun value => by
        cases value <;> rfl
    | _ => exact List.nil_sublist _

/-- **A run looks up nodes below**, from left to right. -/
theorem visited_runWith (h : arena.Tidy) (height levels : Nat) (id : NodeId) (store : Store) :
    (runWith arena.look height levels id store).visited.Sublist (arena.below id) := by
  induction levels generalizing id store with
  | zero => exact List.nil_sublist _
  | succ levels ih =>
    rw [runWith, Traced.visited_bind, Arena.value_look, Arena.visited_look]
    cases hget : arena.get id with
    | error fault => exact h.self_sublist id
    | ok node =>
      cases node with
      | program name block =>
        rw [h.below_of_get hget, Node.links, List.flatMap_cons, List.flatMap_singleton]
        refine (List.Sublist.refl [id]).append ((ih block store).trans ?_)
        exact List.sublist_append_right (arena.below name) (arena.below block)
      | block ids body =>
        rw [h.below_of_get hget, Node.links, List.flatMap_append, List.flatMap_singleton]
        refine (List.Sublist.refl [id]).append ((ih body store).trans ?_)
        exact List.sublist_append_right (ids.flatMap arena.below) (arena.below body)
      | compound ids =>
        rw [h.below_of_get hget]
        exact (List.Sublist.refl [id]).append (visited_runAllWith ih ids store)
      | binary op symbol left right =>
        cases op with
        | assign =>
          rw [h.below_of_get hget, Node.links, List.flatMap_cons, List.flatMap_singleton]
          exact (List.Sublist.refl [id]).append (visited_runAssignWith h height left right store)
        | _ => exact h.self_sublist id
      | _ => exact h.self_sublist id

theorem not_failsAt_tree (store : Store) (fault : TreeFault) (node : Node) :
    ¬ (arithmetic store).FailsAt (.tree fault) node := by
  cases node with
  | const kind text =>
    show literal text ≠ _
    rw [literal]
    split <;> exact nofun
  | var name =>
    show store.value name ≠ _
    rw [Store.value]
    split <;> exact nofun
  | unary op symbol operand =>
    rintro ⟨x, herror⟩
    cases herror
  | binary op symbol left right =>
    rintro ⟨a, b, herror⟩
    cases op with
    | intDiv =>
      change applyBinary .intDiv a b = _ at herror
      rw [applyBinary] at herror
      split at herror <;> cases herror
    | floatDiv =>
      change applyBinary .floatDiv a b = _ at herror
      rw [applyBinary] at herror
      split at herror <;> cases herror
    | _ => cases herror
  | _ => exact nofun

theorem evalNode_ne_tree (h : arena.Tidy) {store : Store} {height : Nat} (hid : arena.InRange id)
    (hheight : id.index < height) (fault : TreeFault) :
    evalNode arena store height id ≠ .error (.tree fault) := by
  intro herror
  rw [← value_evalWith] at herror
  obtain ⟨x, node, -, -, hfails⟩ := Arithmetic.exists_failsAt h hid hheight herror
  exact not_failsAt_tree store fault node hfails

/-- What goes wrong in the run of several statements goes wrong in one of them. -/
theorem exists_mem_of_runAll {run : NodeId → Store → Except EvalError Unit × Store}
    {ids : List NodeId} {store : Store} {why : EvalError}
    (herror : (runAll run ids store).1 = .error why) :
    ∃ id ∈ ids, ∃ store, (run id store).1 = .error why := by
  induction ids generalizing store with
  | nil => cases herror
  | cons id ids ih =>
    rw [runAll] at herror
    rcases hrun : run id store with ⟨why' | ⟨⟩, store'⟩
    · rw [hrun] at herror
      exact ⟨id, List.mem_cons_self, store, (congrArg Prod.fst hrun).trans herror⟩
    · rw [hrun] at herror
      obtain ⟨id', hid', hfails⟩ := ih herror
      exact ⟨id', List.mem_cons_of_mem id hid', hfails⟩

/-- **A run comes to no fault of the tree**, if all links lead to older nodes. -/
theorem runNode_ne_tree (h : arena.Tidy) {levels : Nat} (hid : arena.InRange id)
    (hlevels : id.index < levels) (store : Store) (fault : TreeFault) :
    (runNode arena levels id store).1 ≠ .error (.tree fault) := by
  induction levels generalizing id store with
  | zero => exact absurd hlevels (Nat.not_lt_zero _)
  | succ levels ih =>
    obtain ⟨node, hget⟩ := Arena.exists_get hid
    have hlink : ∀ link ∈ node.links, ∀ store,
        (runNode arena levels link store).1 ≠ .error (.tree fault) :=
      fun link hlink store => ih (h.inRange_link hget hlink)
        (Nat.lt_of_lt_of_le (h.link_lt id node hget link hlink) (Nat.le_of_lt_succ hlevels)) store
    rw [runNode, Arena.node, hget]
    cases node with
    | program name block => exact hlink block (List.mem_cons_of_mem _ List.mem_cons_self) store
    | block ids body => exact hlink body (List.mem_append_right _ List.mem_cons_self) store
    | compound ids =>
      intro herror
      obtain ⟨link, hmem, store', herror'⟩ := exists_mem_of_runAll herror
      exact hlink link hmem store' herror'
    | binary op symbol left right =>
      cases op with
      | assign =>
        have hleft := h.inRange_link hget List.mem_cons_self
        have hright := h.inRange_link hget (List.mem_cons_of_mem left List.mem_cons_self)
        obtain ⟨target, htarget⟩ := Arena.exists_get hleft
        have hvalue : evalNode arena store arena.height right ≠ .error (.tree fault) :=
          evalNode_ne_tree h hright (Nat.lt_succ_of_lt hright) fault
        show (runAssign arena left right store).1 ≠ _
        rw [runAssign, Arena.node, htarget]
        cases target with
        | var name =>
          simp only [Except.mapError]
          cases heval : evalNode arena store arena.height right with
          | error why => exact fun heq => hvalue (heval.trans (by cases heq; rfl))
          | ok x => exact nofun
        | _ => exact nofun
      | _ => exact nofun
    | _ => exact nofun

end Pascal

/-! ## Drawings -/

namespace Drawing

/-- The label of a node, with any way to look up the name of a program.  No other label depends on
the arena. -/
def labelWith (look : NodeId → m (Except TreeFault Node)) : Node → m (Except TreeFault String)
  | .program name _ => do
    match ← look name with
    | .ok (.var title) => pure (.ok ("Program" ++ labelBreak ++ title))
    | .ok _ => pure (.ok ("Program" ++ labelBreak))
    | .error fault => pure (.error fault)
  | other => pure (Arena.empty.label other)

/-- The drawing of the children of the node `me`, with any way to draw one. -/
def addAllWith (add : Nat → NodeId → Drawing → m (Except TreeFault (Nat × Drawing))) (me : Nat) :
    List NodeId → Nat × Drawing → m (Except TreeFault (Nat × Drawing))
  | [], state => pure (.ok state)
  | child :: children, (last, drawing) =>
    onOk (add (last + 1) child (drawing.push (.line me (last + 1)))) (addAllWith add me children)

/-- The drawing of a node, with any way to look up nodes. -/
def addWith (look : NodeId → m (Except TreeFault Node)) :
    (height me : Nat) → NodeId → Drawing → m (Except TreeFault (Nat × Drawing))
  | 0, _, _, _ => pure (.error .cycle)
  | height + 1, me, id, drawing =>
    onOk (look id) fun node =>
      onOk (labelWith look node) fun label =>
        addAllWith (addWith look height) me node.children
          (addLeaves me me (leaves node) (drawing.push (.node me label)))

theorem value_labelWith (arena : Arena) (node : Node) :
    (labelWith arena.look node).value = arena.label node := by
  cases node with
  | program name body =>
    rw [labelWith, Arena.label, Traced.value_bind, Arena.value_look]
    cases arena.get name with
    | error fault => rfl
    | ok node => cases node <;> rfl
  | const kind text => cases kind <;> rfl
  | _ => rfl

theorem value_addAllWith {add : Nat → NodeId → Drawing → Traced (Except TreeFault (Nat × Drawing))}
    {add' : Nat → NodeId → Drawing → Except TreeFault (Nat × Drawing)}
    (h : ∀ me id drawing, (add me id drawing).value = add' me id drawing) (me : Nat)
    (children : List NodeId) (state : Nat × Drawing) :
    (addAllWith add me children state).value =
      children.foldlM (fun (last, drawing) child =>
        add' (last + 1) child (drawing.push (.line me (last + 1)))) state := by
  induction children generalizing state with
  | nil => rfl
  | cons child children ih =>
    obtain ⟨last, drawing⟩ := state
    rw [addAllWith, List.foldlM_cons, Traced.value_onOk, h]
    exact congrArg _ (funext ih)

/-- The drawing is that of the tree. -/
theorem value_addWith (arena : Arena) (height me : Nat) (id : NodeId) (drawing : Drawing) :
    (addWith arena.look height me id drawing).value = addNode arena height me id drawing := by
  induction height generalizing me id drawing with
  | zero => rfl
  | succ height ih =>
    rw [addWith, addNode, Traced.value_onOk, Arena.value_look]
    cases arena.get id with
    | error fault => rfl
    | ok node =>
      simp only [Except.bind, Traced.value_onOk, value_labelWith]
      cases arena.label node with
      | error fault => rfl
      | ok label => exact value_addAllWith ih me node.children _

theorem visited_addAllWith
    {add : Nat → NodeId → Drawing → Traced (Except TreeFault (Nat × Drawing))}
    (h : ∀ me id drawing, (add me id drawing).visited.Sublist (arena.below id)) (me : Nat)
    (children : List NodeId) (state : Nat × Drawing) :
    (addAllWith add me children state).visited.Sublist (children.flatMap arena.below) := by
  induction children generalizing state with
  | nil => exact List.Sublist.refl _
  | cons child children ih =>
    obtain ⟨last, drawing⟩ := state
    rw [addAllWith, List.flatMap_cons]
    exact Traced.sublist_onOk (h _ child _) ih

/-- What is looked up for a label does not stand below a child. -/
theorem visited_labelWith (h : arena.Tidy) (node : Node) :
    ((labelWith arena.look node).visited ++ node.children.flatMap arena.below).Sublist
      (node.links.flatMap arena.below) := by
  cases node with
  | program name body =>
    rw [Node.links, List.flatMap_cons]
    refine List.Sublist.append ?_ (List.Sublist.refl _)
    rw [labelWith]
    refine Traced.sublist_bind_of_nil (h.self_sublist name) fun result => ?_
    cases result with
    | error fault => rfl
    | ok node => cases node <;> rfl
  | _ => exact List.Sublist.refl _

/-- **A drawing looks up nodes below**, from left to right. -/
theorem visited_addWith (h : arena.Tidy) (height me : Nat) (id : NodeId) (drawing : Drawing) :
    (addWith arena.look height me id drawing).visited.Sublist (arena.below id) := by
  induction height generalizing me id drawing with
  | zero => exact List.nil_sublist _
  | succ height ih =>
    rw [addWith, onOk, Traced.visited_bind, Arena.value_look, Arena.visited_look]
    cases hget : arena.get id with
    | error fault => exact h.self_sublist id
    | ok node =>
      rw [h.below_of_get hget]
      refine (List.Sublist.refl [id]).append (List.Sublist.trans ?_ (visited_labelWith h node))
      exact Traced.sublist_onOk (List.Sublist.refl _) fun label =>
        visited_addAllWith ih me node.children _

theorem children_subset_links (node : Node) : node.children ⊆ node.links := by
  cases node with
  | program name body => exact List.subset_cons_self name [body]
  | _ => exact List.Subset.refl _

theorem exists_label (hlinks : ∀ link ∈ node.links, arena.InRange link) :
    ∃ label, arena.label node = .ok label := by
  cases node with
  | program name body =>
    obtain ⟨title, htitle⟩ := Arena.exists_get (hlinks name List.mem_cons_self)
    rw [Arena.label, htitle]
    cases title <;> exact ⟨_, rfl⟩
  | const kind text => cases kind <;> exact ⟨_, rfl⟩
  | _ => exact ⟨_, rfl⟩

theorem exists_foldlM {S : Type} {step : S → NodeId → Except TreeFault S} {ids : List NodeId}
    (h : ∀ id ∈ ids, ∀ state, ∃ after, step state id = .ok after) (state : S) :
    ∃ after, ids.foldlM step state = .ok after := by
  induction ids generalizing state with
  | nil => exact ⟨state, rfl⟩
  | cons id ids ih =>
    obtain ⟨hid, hids⟩ := List.forall_mem_cons.mp h
    obtain ⟨after, hafter⟩ := hid state
    rw [List.foldlM_cons, hafter]
    exact ih hids after

/-- **A drawing comes to no fault of the tree**, if all links lead to older nodes. -/
theorem exists_addNode (h : arena.Tidy) {height : Nat} (hid : arena.InRange id)
    (hheight : id.index < height) (me : Nat) (drawing : Drawing) :
    ∃ result, addNode arena height me id drawing = .ok result := by
  induction height generalizing id me drawing with
  | zero => exact absurd hheight (Nat.not_lt_zero _)
  | succ height ih =>
    obtain ⟨node, hget⟩ := Arena.exists_get hid
    obtain ⟨label, hlabel⟩ := exists_label fun link hlink => h.inRange_link hget hlink
    rw [addNode, hget]
    simp only [hlabel]
    refine exists_foldlM (fun child hchild state => ?_) _
    have hlink := children_subset_links node hchild
    have hlt := h.link_lt id node hget child hlink
    exact ih (h.inRange_link hget hlink) (Nat.lt_of_lt_of_le hlt (Nat.le_of_lt_succ hheight)) _ _

end Drawing

end GrammarKit
