import GrammarKit.Proofs.Calc.Evaluation
import GrammarKit.Proofs.Grounded

/-!
# Exact or refused

The calculator computes with 32 bits.  What it computes is seldom more than a step away from what the
integers would give: a sum may be too large, the negation of the least number is, and so is its
quotient by minus one.  All these are refused.  So a number that comes out of the calculator was exact
all the way.

Which of several things that are wrong is reported is settled by the order of the evaluation: the left
operand, the right operand, the node itself.  A node after the first that is wrong is not looked at,
though it may be wrong as well, or have no value at all.

Nothing is asked of how a tree was made.  Nodes may be shared, literals may have signs, and operators
may be written as anything.

* `Amounts`: the value of a node among all integers, where a quotient by zero has none.
* `Offends`: what is wrong at a node, if its operands have values.
* `Arena.postorder`: the nodes in the order of the evaluation.
* `Verdict`, `evalNode_verdict`: the two ways in which an evaluation ends.
* `eval_exact_or_refused`: when a tree has a value, and which one, and else the error.
-/

namespace GrammarKit

/-! ## 1.  The order of an evaluation -/

/-- The node and all below it, each behind the nodes that it is made of, along ways of at most
`height` nodes.  A node that is shared is met more than once. -/
def Arena.postorder (arena : Arena) : (height : Nat) → NodeId → List NodeId
  | 0, _ => []
  | height + 1, id => (arena.links id).flatMap (arena.postorder height) ++ [id]

/-- The nodes of a tree, each behind the nodes that it is made of. -/
def Tree.postorder (tree : Tree) : List NodeId := tree.arena.postorder tree.height tree.root

/-- **All that is reached is met**, where no way is cut short. -/
theorem Arena.Grounded.mem_postorder_iff {arena : Arena} {id x : NodeId} (h : arena.Grounded id)
    {height : Nat} (hheight : arena.depth id < height) :
    x ∈ arena.postorder height id ↔ arena.Reaches id x := by
  induction height generalizing id with
  | zero => exact absurd hheight (Nat.not_lt_zero _)
  | succ height ih =>
    have hbelow : ∀ link ∈ arena.links id,
        (x ∈ arena.postorder height link ↔ arena.Reaches link x) := fun link hlink =>
      ih (h.of_mem_links hlink)
        (Nat.lt_of_lt_of_le (h.depth_lt_of_mem_links hlink) (Nat.le_of_lt_succ hheight))
    rw [postorder, List.mem_append, List.mem_flatMap, List.mem_singleton]
    constructor
    · rintro (⟨link, hlink, hx⟩ | rfl)
      · exact .head hlink ((hbelow link hlink).mp hx)
      · exact .refl
    · intro hx
      rcases Relation.ReflTransGen.cases_head hx with rfl | ⟨link, hlink, hx⟩
      · exact Or.inr rfl
      · exact Or.inl ⟨link, hlink, (hbelow link hlink).mpr hx⟩

/-! ## 2.  Values among all integers -/

/-- What a unary operator means among all integers. -/
def UnaryOp.exact : UnaryOp → Int → Int
  | .plus, a => a
  | .minus, a => -a

/-- What a binary operator means among all integers.  Division drops the fraction, and there is none
by zero. -/
def BinaryOp.exact : BinaryOp → Int → Int → Option Int
  | .add, a, b => some (a + b)
  | .sub, a, b => some (a - b)
  | .mul, a, b => some (a * b)
  | .intDiv, a, b => if b = 0 then none else some (a.tdiv b)
  | .floatDiv, _, _ | .assign, _, _ => none

namespace Calc

/-- **The text writes this number**: digits, with a sign in front of them or none. -/
inductive Writes : String → Int → Prop where
  | unsigned (n : Numeral) :
      Writes (String.ofList n.digits) (Nat.ofDigitChars 10 n.digits 0 : Nat)
  | plus (n : Numeral) :
      Writes (String.ofList ('+' :: n.digits)) (Nat.ofDigitChars 10 n.digits 0 : Nat)
  | minus (n : Numeral) :
      Writes (String.ofList ('-' :: n.digits)) (-(Nat.ofDigitChars 10 n.digits 0 : Nat))

/-- What is written is read. -/
theorem Writes.integer?_eq {text : String} {v : Int} (h : Writes text v) :
    Decimal.integer? text = some v := by
  cases h with
  | unsigned n =>
    rw [Decimal.integer?, String.toList_ofList, Arith.splitSign_digits]
    simp [n.isNumeral, Decimal.value_eq_ofDigitChars]
  | plus n =>
    rw [Decimal.integer?, String.toList_ofList, Decimal.splitSign]
    simp [n.isNumeral, Decimal.value_eq_ofDigitChars]
  | minus n =>
    rw [Decimal.integer?, String.toList_ofList, Decimal.splitSign]
    simp [n.isNumeral, Decimal.value_eq_ofDigitChars]

/-- **A node of the calculator**: a number, an operator in front of an operand, or one of the four
operators on integers. -/
inductive Arithmetic : Node → Prop where
  | const (kind : NumberKind) {text : String} {v : Int} (h : Writes text v) :
      Arithmetic (.const kind text)
  | unary (op : UnaryOp) (symbol : String) (operand : NodeId) :
      Arithmetic (.unary op symbol operand)
  | binary {op : BinaryOp} (h : op ∈ [.add, .sub, .mul, .intDiv]) (symbol : String)
      (left right : NodeId) : Arithmetic (.binary op symbol left right)

/-- **The node has this value among all integers.**  A quotient by zero has none, and neither has what
is made of it. -/
inductive Amounts (arena : Arena) : NodeId → Int → Prop where
  | const {id : NodeId} {kind : NumberKind} {text : String} {v : Int}
      (hget : arena.get id = .ok (.const kind text)) (htext : Writes text v) : Amounts arena id v
  | unary {id operand : NodeId} {op : UnaryOp} {symbol : String} {a : Int}
      (hget : arena.get id = .ok (.unary op symbol operand)) (h : Amounts arena operand a) :
      Amounts arena id (op.exact a)
  | binary {id left right : NodeId} {op : BinaryOp} {symbol : String} {a b v : Int}
      (hget : arena.get id = .ok (.binary op symbol left right)) (hleft : Amounts arena left a)
      (hright : Amounts arena right b) (hv : op.exact a b = some v) : Amounts arena id v

/-- There is but one value to a node. -/
theorem Amounts.unique {arena : Arena} {id : NodeId} {u v : Int} (hu : Amounts arena id u)
    (hv : Amounts arena id v) : u = v := by
  induction hu generalizing v with
  | const hget htext =>
    cases hv with
    | const hget' htext' =>
      cases hget.symm.trans hget'
      exact Option.some_inj.mp (htext.integer?_eq.symm.trans htext'.integer?_eq)
    | unary hget' => cases hget.symm.trans hget'
    | binary hget' => cases hget.symm.trans hget'
  | unary hget _ ih =>
    cases hv with
    | const hget' => cases hget.symm.trans hget'
    | unary hget' hoperand =>
      cases hget.symm.trans hget'
      rw [ih hoperand]
    | binary hget' => cases hget.symm.trans hget'
  | binary hget _ _ hexact ihleft ihright =>
    cases hv with
    | const hget' => cases hget.symm.trans hget'
    | unary hget' => cases hget.symm.trans hget'
    | binary hget' hleft hright hexact' =>
      cases hget.symm.trans hget'
      rw [ihleft hleft, ihright hright] at hexact
      exact Option.some_inj.mp (hexact.symm.trans hexact')

/-! ## 3.  What is wrong at a node -/

/-- The integers of 32 bits. -/
def Fits (v : Int) : Prop := -2 ^ 31 ≤ v ∧ v < 2 ^ 31

instance (v : Int) : Decidable (Fits v) := inferInstanceAs (Decidable (_ ∧ _))

/-- What a node is blamed for when its value is out of range: a literal is not a number, and an
operator overflows. -/
def blame : Node → EvalError
  | .const _ text => .invalidNumber text
  | .unary op _ _ => .overflow op.symbol
  | .binary op _ _ _ => .overflow op.symbol
  | other => .unsupported other.kindName

/-- **What is wrong at a node**: the divisor is zero, or the value is out of range. -/
inductive Offends (arena : Arena) (id : NodeId) : EvalError → Prop where
  | divisor {symbol : String} {left right : NodeId}
      (hget : arena.get id = .ok (.binary .intDiv symbol left right))
      (hzero : Amounts arena right 0) : Offends arena id .divisionByZero
  | outOfRange {node : Node} {v : Int} (hget : arena.get id = .ok node) (hv : Amounts arena id v)
      (hfits : ¬ Fits v) : Offends arena id (blame node)

/-- The node has a value, and it is in range. -/
def Sound (arena : Arena) (id : NodeId) : Prop := ∃ v, Amounts arena id v ∧ Fits v

variable {arena : Arena} {id : NodeId}

/-- A quotient that has a value is not by zero. -/
theorem Amounts.not_divisor {symbol : String} {left right : NodeId} {v : Int}
    (h : Amounts arena id v) (hget : arena.get id = .ok (.binary .intDiv symbol left right)) :
    ¬ Amounts arena right 0 := by
  intro hzero
  cases h with
  | const hget' => cases hget.symm.trans hget'
  | unary hget' => cases hget.symm.trans hget'
  | binary hget' _ hright hexact =>
    cases hget.symm.trans hget'
    rw [hright.unique hzero, BinaryOp.exact, if_pos rfl] at hexact
    cases hexact

theorem Sound.not_offends (h : Sound arena id) (why : EvalError) : ¬ Offends arena id why := by
  obtain ⟨v, hv, hfits⟩ := h
  intro hoffends
  cases hoffends with
  | divisor hget hzero => exact hv.not_divisor hget hzero
  | outOfRange _ hv' hfits' => exact hfits' (hv'.unique hv ▸ hfits)

/-- There is but one thing wrong at a node. -/
theorem Offends.unique {why why' : EvalError} (h : Offends arena id why)
    (h' : Offends arena id why') : why = why' := by
  cases h with
  | divisor hget hzero =>
    cases h' with
    | divisor => rfl
    | outOfRange _ hv => exact absurd hzero (hv.not_divisor hget)
  | outOfRange hget hv =>
    cases h' with
    | divisor hget' hzero => exact absurd hzero (hv.not_divisor hget')
    | outOfRange hget' =>
      cases hget.symm.trans hget'
      rfl

/-! ## 4.  Evaluation -/

theorem literal_of_writes {text : String} {v : Int} (h : Writes text v) :
    literal text = if Fits v then .ok v else .error (.invalidNumber text) := by
  rw [literal, h.integer?_eq]
  by_cases hfits : Fits v
  · simp only [if_pos hfits, if_pos (Arith.inRange_iff.mpr hfits)]
  · simp only [if_neg hfits, if_neg fun h => hfits (Arith.inRange_iff.mp h)]

/-- The sign that changes nothing checks nothing either. -/
theorem applyUnary_of_fits (op : UnaryOp) {a : Int} (h : Fits a) :
    applyUnary op a =
      if Fits (op.exact a) then .ok (op.exact a) else .error (.overflow op.symbol) := by
  cases op with
  | plus => exact (if_pos h).symm
  | minus => exact Arith.checked_eq _ _

theorem applyBinary_of_exact {op : BinaryOp} {a b v : Int} (h : op.exact a b = some v) :
    applyBinary op a b = if Fits v then .ok v else .error (.overflow op.symbol) := by
  cases op with
  | add | sub | mul =>
    cases h
    exact Arith.checked_eq _ _
  | intDiv =>
    by_cases hzero : b = 0
    · simp [BinaryOp.exact, hzero] at h
    · rw [BinaryOp.exact, if_neg hzero] at h
      cases h
      rw [applyBinary, if_neg hzero]
      exact Arith.checked_eq _ _
  | floatDiv | assign => cases h

/-- Of the four operators only division may have no value. -/
theorem eq_zero_of_exact_eq_none {op : BinaryOp} (hop : op ∈ [.add, .sub, .mul, .intDiv])
    {a b : Int} (h : op.exact a b = none) : op = .intDiv ∧ b = 0 := by
  cases op with
  | add | sub | mul => cases h
  | intDiv =>
    by_cases hzero : b = 0
    · exact ⟨rfl, hzero⟩
    · rw [BinaryOp.exact, if_neg hzero] at h
      cases h
  | floatDiv | assign => simp at hop

/-- **The two ways in which an evaluation ends**: with the value, and then all is sound, or with what is
wrong at the first node that is not. -/
inductive Verdict (arena : Arena) (id : NodeId) (order : List NodeId) :
    Except EvalError Int → Prop where
  | value {v : Int} (hv : Amounts arena id v) (hsound : ∀ x ∈ order, Sound arena x) :
      Verdict arena id order (.ok v)
  | refused {why : EvalError} (before : List NodeId) (x : NodeId) (after : List NodeId)
      (horder : order = before ++ x :: after) (hbefore : ∀ y ∈ before, Sound arena y)
      (hx : Offends arena x why) : Verdict arena id order (.error why)

namespace Verdict

variable {order front : List NodeId} {why : EvalError}

/-- What is refused stays so, whatever comes before it that is sound and whatever behind it. -/
theorem within (h : Verdict arena id order (.error why)) (hfront : ∀ x ∈ front, Sound arena x)
    (id' : NodeId) (back : List NodeId) : Verdict arena id' (front ++ order ++ back) (.error why) := by
  cases h with
  | refused before x after horder hbefore hx =>
    refine .refused (front ++ before) x (after ++ back) ?_
      (List.forall_mem_append.mpr ⟨hfront, hbefore⟩) hx
    rw [horder]
    simp only [List.append_assoc, List.cons_append]

/-- A node whose operands are sound is settled by its own value. -/
theorem own {node : Node} {v : Int} (hget : arena.get id = .ok node) (hv : Amounts arena id v)
    (hfront : ∀ x ∈ front, Sound arena x) :
    Verdict arena id (front ++ [id]) (if Fits v then .ok v else .error (blame node)) := by
  by_cases hfits : Fits v
  · rw [if_pos hfits]
    exact .value hv (List.forall_mem_append.mpr ⟨hfront, List.forall_mem_singleton.mpr
      ⟨v, hv, hfits⟩⟩)
  · rw [if_neg hfits]
    exact .refused front id [] rfl hfront (.outOfRange hget hv hfits)

end Verdict

/-- **An evaluation ends in one of the two ways.** -/
theorem evalNode_verdict (h : arena.Grounded id)
    (hnodes : ∀ x node, arena.Reaches id x → arena.get x = .ok node → Arithmetic node)
    {height : Nat} (hheight : arena.depth id < height) :
    Verdict arena id (arena.postorder height id) (evalNode arena height id) := by
  induction height generalizing id with
  | zero => exact absurd hheight (Nat.not_lt_zero _)
  | succ height ih =>
    obtain ⟨node, hget⟩ := h.exists_get
    have hlinks := Arena.links_of_get hget
    have hbelow : ∀ link ∈ node.links,
        Verdict arena link (arena.postorder height link) (evalNode arena height link) ∧
          link ∈ arena.postorder height link := by
      intro link hlink
      rw [← hlinks] at hlink
      have hgrounded := h.of_mem_links hlink
      have hlower := Nat.lt_of_lt_of_le (h.depth_lt_of_mem_links hlink) (Nat.le_of_lt_succ hheight)
      exact ⟨ih hgrounded (fun x node hx => hnodes x node (.head hlink hx)) hlower,
        (hgrounded.mem_postorder_iff hlower).mpr .refl⟩
    have hnone : ∀ x ∈ ([] : List NodeId), Sound arena x := fun x hx => absurd hx List.not_mem_nil
    rw [Arena.postorder, hlinks, evalNode, Arena.node, hget]
    cases hnodes id node .refl hget with
    | const kind htext =>
      dsimp only [Except.mapError]
      rw [literal_of_writes htext]
      exact .own hget (.const hget htext) hnone
    | unary op symbol operand =>
      obtain ⟨hoperand, hself⟩ := hbelow operand List.mem_cons_self
      dsimp only [Except.mapError, Node.links]
      rw [List.flatMap_singleton]
      cases hresult : evalNode arena height operand with
      | error why =>
        rw [hresult] at hoperand
        exact hoperand.within hnone id [id]
      | ok a =>
        rw [hresult] at hoperand
        cases hoperand with
        | value ha hsound =>
          obtain ⟨a', ha', hfits⟩ := hsound operand hself
          dsimp only
          rw [applyUnary_of_fits op (ha'.unique ha ▸ hfits)]
          exact .own hget (.unary hget ha) hsound
    | @binary op hop symbol left right =>
      obtain ⟨hleft, -⟩ := hbelow left List.mem_cons_self
      obtain ⟨hright, -⟩ := hbelow right (List.mem_cons_of_mem _ List.mem_cons_self)
      dsimp only [Except.mapError, Node.links]
      rw [List.flatMap_cons, List.flatMap_singleton]
      cases hfirst : evalNode arena height left with
      | error why =>
        rw [hfirst] at hleft
        rw [List.append_assoc]
        exact hleft.within hnone id _
      | ok a =>
        rw [hfirst] at hleft
        cases hleft with
        | value ha hsoundleft =>
          dsimp only
          cases hsecond : evalNode arena height right with
          | error why =>
            rw [hsecond] at hright
            exact hright.within hsoundleft id [id]
          | ok b =>
            rw [hsecond] at hright
            cases hright with
            | value hb hsoundright =>
              have hsound := List.forall_mem_append.mpr ⟨hsoundleft, hsoundright⟩
              dsimp only
              cases hexact : op.exact a b with
              | some v =>
                rw [applyBinary_of_exact hexact]
                exact .own hget (.binary hget ha hb hexact) hsound
              | none =>
                obtain ⟨rfl, rfl⟩ := eq_zero_of_exact_eq_none hop hexact
                exact .refused _ id [] rfl hsound (.divisor hget hb)

/-- What stands first of its kind in a list is one thing, however the list is taken apart there. -/
theorem eq_of_first {p : NodeId → Prop} {before before' after after' : List NodeId} {x x' : NodeId}
    (h : before ++ x :: after = before' ++ x' :: after') (hbefore : ∀ y ∈ before, ¬ p y) (hx : p x)
    (hbefore' : ∀ y ∈ before', ¬ p y) (hx' : p x') : x = x' := by
  rcases List.append_eq_append_iff.mp h with ⟨between, rfl, hbetween⟩ | ⟨between, rfl, hbetween⟩
  · cases between with
    | nil => exact (List.cons.inj hbetween).1
    | cons y between =>
      obtain ⟨rfl, -⟩ := List.cons.inj hbetween
      exact absurd hx (hbefore' x (List.mem_append_right _ List.mem_cons_self))
  · cases between with
    | nil => exact (List.cons.inj hbetween).1.symm
    | cons y between =>
      obtain ⟨rfl, -⟩ := List.cons.inj hbetween
      exact absurd hx' (hbefore x' (List.mem_append_right _ List.mem_cons_self))

/-- **The calculator is exact, or it refuses.**  A tree has a value just when every node of it has one
among all integers and all these are in range, and then the value is that of the root.  Otherwise
something is wrong somewhere, and of the nodes where something is, the first in the order of the
evaluation is the one that is reported. -/
theorem eval_exact_or_refused {tree : Tree} (hgrounded : tree.arena.Grounded tree.root)
    (hnodes : ∀ x node, tree.arena.Reaches tree.root x → tree.arena.get x = .ok node →
      Arithmetic node) :
    (∀ v, eval tree = .ok v ↔
      Amounts tree.arena tree.root v ∧
        ∀ x, tree.arena.Reaches tree.root x →
          ∃ u, Amounts tree.arena x u ∧ -2 ^ 31 ≤ u ∧ u < 2 ^ 31) ∧
      ∀ why, eval tree = .error why ↔
        ∃ before x after, tree.postorder = before ++ x :: after ∧
          (∀ y ∈ before, ∀ why', ¬ Offends tree.arena y why') ∧ Offends tree.arena x why := by
  have hmet : ∀ x, x ∈ tree.postorder ↔ tree.arena.Reaches tree.root x := fun x =>
    hgrounded.mem_postorder_iff hgrounded.depth_lt_height
  have hverdict : Verdict tree.arena tree.root tree.postorder (eval tree) :=
    evalNode_verdict hgrounded hnodes hgrounded.depth_lt_height
  cases hresult : eval tree with
  | ok v =>
    rw [hresult] at hverdict
    cases hverdict with
    | value hv hsound =>
      refine ⟨fun v' => ⟨?_, ?_⟩, fun why => ⟨fun h => (nomatch h), ?_⟩⟩
      · rintro ⟨⟩
        exact ⟨hv, fun x hx => hsound x ((hmet x).mpr hx)⟩
      · rintro ⟨hv', -⟩
        rw [hv.unique hv']
      · rintro ⟨before, x, after, horder, -, hx⟩
        have hmem : x ∈ tree.postorder := horder ▸ List.mem_append_right _ List.mem_cons_self
        exact absurd hx ((hsound x hmem).not_offends why)
  | error why =>
    rw [hresult] at hverdict
    cases hverdict with
    | refused before x after horder hbefore hx =>
      have hmem : x ∈ tree.postorder := horder ▸ List.mem_append_right _ List.mem_cons_self
      have hclean : ∀ y ∈ before, ¬ ∃ why', Offends tree.arena y why' := fun y hy ⟨why', h⟩ =>
        (hbefore y hy).not_offends why' h
      refine ⟨fun v => ⟨fun h => (nomatch h), ?_⟩, fun why' => ⟨?_, ?_⟩⟩
      · rintro ⟨-, hsound⟩
        have hxsound : Sound tree.arena x := hsound x ((hmet x).mp hmem)
        exact absurd hx (hxsound.not_offends why)
      · rintro ⟨⟩
        exact ⟨before, x, after, horder, fun y hy why' h => hclean y hy ⟨why', h⟩, hx⟩
      · rintro ⟨before', x', after', horder', hbefore', hx'⟩
        have hsame : x = x' := eq_of_first (horder.symm.trans horder') hclean ⟨why, hx⟩
          (fun y hy ⟨why'', h⟩ => hbefore' y hy why'' h) ⟨why', hx'⟩
        subst hsame
        rw [hx.unique hx']

/-- The least number by minus one, plus a number by zero: the first goes wrong and hides the second.
The divisor of the first is the dividend of the second. -/
theorem eval_exact_or_refused_hidden :
    let arena : Arena := ⟨#[.const .integer "2147483647", .unary .minus "-" ⟨0⟩,
      .const .integer "+1", .binary .sub "-" ⟨1⟩ ⟨2⟩, .const .integer "-1",
      .binary .intDiv "/" ⟨3⟩ ⟨4⟩, .const .integer "0", .binary .intDiv "/" ⟨4⟩ ⟨6⟩,
      .binary .add "+" ⟨5⟩ ⟨7⟩]⟩
    Offends arena ⟨7⟩ .divisionByZero ∧ eval ⟨arena, ⟨8⟩⟩ = .error (.overflow "div") := by
  intro arena
  have hgreatest : Writes "2147483647" 2147483647 :=
    .unsigned ⟨['2', '1', '4', '7', '4', '8', '3', '6', '4', '7'], by decide⟩
  have hone : Writes "+1" 1 := .plus ⟨['1'], by decide⟩
  have hminus : Writes "-1" (-1) := .minus ⟨['1'], by decide⟩
  have hzero : Writes "0" 0 := .unsigned ⟨['0'], by decide⟩
  have hrank : ∀ x, arena.InRange x → ∀ link ∈ arena.links x,
      arena.InRange link ∧ link.index < x.index := by
    rintro ⟨index⟩ hindex
    have hall : ∀ index < 9, ∀ link ∈ arena.links ⟨index⟩,
        link.index < 9 ∧ link.index < index := by decide
    exact hall index hindex
  have hgrounded : arena.Grounded ⟨8⟩ := Arena.grounded_of_rank hrank (show 8 < 9 by decide)
  have hnodes : ∀ x node, arena.Reaches ⟨8⟩ x → arena.get x = .ok node → Arithmetic node := by
    intro x node hx hget
    rw [Arena.get_eq_ok_iff] at hget
    have hmem : node ∈ arena.nodes.toList := by
      rw [Array.mem_toList_iff]
      exact Array.mem_of_getElem? hget
    simp only [arena, List.mem_cons, List.not_mem_nil, or_false] at hmem
    rcases hmem with rfl | rfl | rfl | rfl | rfl | rfl | rfl | rfl | rfl
    exacts [.const _ hgreatest, .unary .., .const _ hone, .binary (by decide) .., .const _ hminus,
      .binary (by decide) .., .const _ hzero, .binary (by decide) .., .binary (by decide) ..]
  have h0 : Amounts arena ⟨0⟩ 2147483647 := .const rfl hgreatest
  have h1 : Amounts arena ⟨1⟩ (UnaryOp.minus.exact 2147483647) := .unary rfl h0
  have h2 : Amounts arena ⟨2⟩ 1 := .const rfl hone
  have h3 : Amounts arena ⟨3⟩ (-2147483648) := .binary rfl h1 h2 rfl
  have h4 : Amounts arena ⟨4⟩ (-1) := .const rfl hminus
  have h5 : Amounts arena ⟨5⟩ 2147483648 := .binary rfl h3 h4 rfl
  have hsound : ∀ y ∈ [⟨0⟩, ⟨1⟩, ⟨2⟩, ⟨3⟩, ⟨4⟩], Sound arena y := by
    simp only [List.forall_mem_cons]
    exact ⟨⟨_, h0, by decide⟩, ⟨_, h1, by decide⟩, ⟨_, h2, by decide⟩, ⟨_, h3, by decide⟩,
      ⟨_, h4, by decide⟩, fun y hy => absurd hy List.not_mem_nil⟩
  refine ⟨.divisor rfl (.const rfl hzero),
    ((eval_exact_or_refused hgrounded hnodes).2 (.overflow "div")).mpr
      ⟨[⟨0⟩, ⟨1⟩, ⟨2⟩, ⟨3⟩, ⟨4⟩], ⟨5⟩, [⟨4⟩, ⟨6⟩, ⟨7⟩, ⟨8⟩], by decide,
        fun y hy why => (hsound y hy).not_offends why, ?_⟩⟩
  exact .outOfRange rfl h5 (by decide)

end Calc

end GrammarKit
