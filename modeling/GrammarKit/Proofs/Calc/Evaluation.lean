import GrammarKit.Calc.Eval
import GrammarKit.Proofs.Arena
import GrammarKit.Proofs.Calc.Lexing

/-!
# Arithmetic expressions and their values

Expressions as trees of their own, with a value among all integers.  The calculator computes with 32
bits and stops at the first node whose result it cannot hold; below that node all results are right,
so it is enough to know the faults of the nodes, each told from the values among all integers.

* `Arith.value`, `Arith.faults`: the value, and what goes wrong at the nodes from left to right, each
  node behind its operands.
* `Arith.Stored`: an expression is stored in an arena.
* `Arith.Stored.evalNode_eq`: evaluating it gives the value, or the first fault.
-/

namespace GrammarKit.Calc

/-! ## Expressions -/

/-- The operators between two operands. -/
inductive Operator where
  /-- Addition. -/
  | add
  /-- Subtraction. -/
  | sub
  /-- Multiplication. -/
  | mul
  /-- Division that drops the fraction. -/
  | div
  deriving DecidableEq

namespace Operator

/-- The operator in a syntax tree. -/
def op : Operator → BinaryOp
  | .add => .add
  | .sub => .sub
  | .mul => .mul
  | .div => .intDiv

/-- The sign that is written for it. -/
def sign : Operator → Sign
  | .add => .plus
  | .sub => .minus
  | .mul => .times
  | .div => .slash

/-- How tightly it binds; a sign in front of an operand binds with `3`. -/
def precedence : Operator → Nat
  | .add | .sub => 1
  | .mul | .div => 2

end Operator

/-- The sign that is written in front of an operand. -/
def signOf : UnaryOp → Sign
  | .plus => .plus
  | .minus => .minus

/-- An arithmetic expression. -/
inductive Arith where
  /-- A number. -/
  | literal (n : Numeral)
  /-- A sign in front of an operand. -/
  | unary (op : UnaryOp) (operand : Arith)
  /-- An operator between two operands. -/
  | binary (op : Operator) (left right : Arith)

namespace Arith

/-- The number of nodes on the longest way down. -/
def depth : Arith → Nat
  | .literal _ => 1
  | .unary _ operand => operand.depth + 1
  | .binary _ left right => max left.depth right.depth + 1

/-- The value among all integers.  Division drops the fraction, and division by zero gives zero. -/
def value : Arith → Int
  | .literal n => Nat.ofDigitChars 10 n.digits 0
  | .unary .plus operand => operand.value
  | .unary .minus operand => -operand.value
  | .binary .add left right => left.value + right.value
  | .binary .sub left right => left.value - right.value
  | .binary .mul left right => left.value * right.value
  | .binary .div left right => left.value.tdiv right.value

/-- What goes wrong at the top node, if its operands have their values. -/
def ownFaults : Arith → List EvalError
  | .literal n =>
    if (Arith.literal n).value ≤ 2147483647 then [] else [.invalidNumber (String.ofList n.digits)]
  | .unary .plus _ => []
  | .unary .minus operand =>
    if -2 ^ 31 ≤ -operand.value ∧ -operand.value < 2 ^ 31 then [] else [.overflow "-"]
  | .binary op left right =>
    let result := (Arith.binary op left right).value
    if op = .div ∧ right.value = 0 then [.divisionByZero]
    else if -2 ^ 31 ≤ result ∧ result < 2 ^ 31 then []
    else [.overflow op.op.symbol]

/-- What goes wrong at all nodes, from left to right and each node behind its operands. -/
def faults : Arith → List EvalError
  | .literal n => (Arith.literal n).ownFaults
  | .unary op operand => operand.faults ++ (Arith.unary op operand).ownFaults
  | .binary op left right =>
    left.faults ++ right.faults ++ (Arith.binary op left right).ownFaults

/-- The value if nothing goes wrong, else what goes wrong first. -/
def outcome (t : Arith) : Except EvalError Int :=
  match t.faults with
  | [] => .ok t.value
  | fault :: _ => .error fault

/-- The expression is stored in an arena, with this node at the top. -/
def Stored (arena : Arena) : Arith → NodeId → Prop
  | .literal n, id => arena.get id = .ok (.const .integer (String.ofList n.digits))
  | .unary op operand, id =>
    ∃ child, arena.get id = .ok (.unary op op.symbol child) ∧ operand.Stored arena child
  | .binary op left right, id =>
    ∃ i j, arena.get id = .ok (.binary op.op (String.ofList [op.sign.char]) i j) ∧
      left.Stored arena i ∧ right.Stored arena j

/-! ## Growing arenas -/

variable {arena before after : Arena} {t : Arith} {id : NodeId}

theorem Stored.inRange (h : t.Stored arena id) : arena.InRange id := by
  cases t with
  | literal n => exact Arena.inRange_of_get h
  | unary op operand =>
    obtain ⟨child, hget, -⟩ := h
    exact Arena.inRange_of_get hget
  | binary op left right =>
    obtain ⟨i, j, hget, -⟩ := h
    exact Arena.inRange_of_get hget

/-- An expression stays stored. -/
theorem Stored.grows (h : t.Stored before id) (hgrows : before.Grows after) :
    t.Stored after id := by
  induction t generalizing id with
  | literal n => exact hgrows.get h
  | unary op operand ih =>
    obtain ⟨child, hget, hchild⟩ := h
    exact ⟨child, hgrows.get hget, ih hchild⟩
  | binary op left right ihleft ihright =>
    obtain ⟨i, j, hget, hleft, hright⟩ := h
    exact ⟨i, j, hgrows.get hget, ihleft hleft, ihright hright⟩

/-! ## The first fault -/

theorem inRange_iff {v : Int} : inRange v = true ↔ -2 ^ 31 ≤ v ∧ v < 2 ^ 31 := by
  rw [inRange, Bool.and_eq_true, decide_eq_true_eq, decide_eq_true_eq]
  omega

theorem checked_eq (op : String) (v : Int) :
    checked op v = if -2 ^ 31 ≤ v ∧ v < 2 ^ 31 then .ok v else .error (.overflow op) := by
  rw [checked]
  by_cases hfits : inRange v = true
  · rw [if_pos hfits, if_pos (inRange_iff.mp hfits)]
  · rw [if_neg hfits, if_neg fun h => hfits (inRange_iff.mpr h)]

/-- A numeral has no sign to take off. -/
theorem splitSign_digits (n : Numeral) : Decimal.splitSign n.digits = (false, n.digits) := by
  obtain ⟨c, digits, hdigits, hc, -⟩ := n.exists_cons
  have hmem := mem_digits_of_isDigit hc
  rw [hdigits]
  fin_cases hmem <;> rfl

/-- The value of a literal. -/
theorem outcome_literal (n : Numeral) :
    (Arith.literal n).outcome = Calc.literal (String.ofList n.digits) := by
  have hinteger : Decimal.integer? (String.ofList n.digits) = some (Arith.literal n).value := by
    rw [Decimal.integer?, String.toList_ofList, splitSign_digits]
    simp only [n.isNumeral, if_true, Bool.false_eq_true, if_false]
    rw [Decimal.value_eq_ofDigitChars]
    rfl
  have hnonneg : 0 ≤ (Arith.literal n).value := Int.natCast_nonneg _
  rw [Calc.literal, hinteger]
  simp only [outcome, faults, ownFaults]
  by_cases hfits : (Arith.literal n).value ≤ 2147483647
  · rw [if_pos hfits, if_pos (inRange_iff.mpr (by omega))]
  · rw [if_neg hfits, if_neg fun h => hfits (by have := inRange_iff.mp h; omega)]

/-- The operand comes before the sign. -/
theorem outcome_unary (op : UnaryOp) (operand : Arith) :
    (Arith.unary op operand).outcome =
      match operand.outcome with
      | .error why => .error why
      | .ok v => applyUnary op v := by
  simp only [outcome, faults]
  cases operand.faults with
  | cons fault more => rfl
  | nil =>
    cases op with
    | plus => rfl
    | minus =>
      simp only [ownFaults, List.nil_append, applyUnary, checked_eq]
      by_cases hfits : -2 ^ 31 ≤ -operand.value ∧ -operand.value < 2 ^ 31
      · rw [if_pos hfits, if_pos hfits]
        rfl
      · rw [if_neg hfits, if_neg hfits]

/-- An operator on two values. -/
theorem applyBinary_eq (op : Operator) (left right : Arith) :
    applyBinary op.op left.value right.value =
      match (Arith.binary op left right).ownFaults with
      | [] => .ok (Arith.binary op left right).value
      | fault :: _ => .error fault := by
  have hchecked : ∀ v : Int,
      checked op.op.symbol v =
        match (if -2 ^ 31 ≤ v ∧ v < 2 ^ 31 then [] else [EvalError.overflow op.op.symbol]) with
        | [] => .ok v
        | fault :: _ => .error fault := by
    intro v
    rw [checked_eq]
    by_cases hfits : -2 ^ 31 ≤ v ∧ v < 2 ^ 31
    · rw [if_pos hfits, if_pos hfits]
    · rw [if_neg hfits, if_neg hfits]
  cases op with
  | add => exact hchecked _
  | sub => exact hchecked _
  | mul => exact hchecked _
  | div =>
    by_cases hzero : right.value = 0
    · simp [applyBinary, Operator.op, ownFaults, hzero]
    · simp only [applyBinary, Operator.op, ownFaults, hzero, and_false, if_false]
      exact hchecked _

/-- The left operand comes first, then the right one, then the operator. -/
theorem outcome_binary (op : Operator) (left right : Arith) :
    (Arith.binary op left right).outcome =
      match left.outcome with
      | .error why => .error why
      | .ok a =>
        match right.outcome with
        | .error why => .error why
        | .ok b => applyBinary op.op a b := by
  simp only [outcome, faults]
  cases left.faults with
  | cons fault more => rfl
  | nil =>
    cases right.faults with
    | cons fault more => rfl
    | nil => exact (applyBinary_eq op left right).symm

-- The literal is out of range whatever the sign in front of it, and before the division is tried.
example :
    let least : Arith := .unary .minus (.literal ⟨"2147483648".toList, rfl⟩)
    (Arith.binary .div least (.literal ⟨['0'], rfl⟩)).outcome =
      .error (.invalidNumber "2147483648") := by
  decide

/-! ## Evaluation -/

/-- **A node has the outcome of the expression that it stands for**, if the way down is not cut
short. -/
theorem Stored.evalNode_eq (h : t.Stored arena id) {height : Nat} (hdepth : t.depth ≤ height) :
    evalNode arena height id = t.outcome := by
  induction t generalizing id height with
  | literal n =>
    obtain ⟨height, rfl⟩ := Nat.exists_eq_add_of_le' hdepth
    rw [depth, evalNode, Arena.node, h, outcome_literal]
    rfl
  | unary op operand ih =>
    obtain ⟨child, hget, hchild⟩ := h
    rw [depth] at hdepth
    obtain ⟨height, rfl⟩ := Nat.exists_eq_add_of_le' (Nat.one_le_of_lt hdepth)
    have hoperand : evalNode arena height child = operand.outcome := ih hchild (by omega)
    rw [evalNode, Arena.node, hget, outcome_unary, ← hoperand]
    rfl
  | binary op left right ihleft ihright =>
    obtain ⟨i, j, hget, hleft, hright⟩ := h
    rw [depth] at hdepth
    obtain ⟨height, rfl⟩ := Nat.exists_eq_add_of_le' (Nat.one_le_of_lt hdepth)
    have hfirst : evalNode arena height i = left.outcome := ihleft hleft (by omega)
    have hsecond : evalNode arena height j = right.outcome := ihright hright (by omega)
    rw [evalNode, Arena.node, hget, outcome_binary, ← hfirst, ← hsecond]
    rfl

end Arith

end GrammarKit.Calc
