import GrammarKit.Proofs.Schema
import GrammarKit.Proofs.Visiting

/-!
# What may stop a run

Evaluation has many ways to fail, because it takes any arena: nodes that have no value, literals that
are no numbers, trees that are broken.  Of a tree that obeys the schema of its language few of them
are left.  The calculator may come to a number that it cannot hold or to a division by zero; Pascal
may come to a division by zero or to a variable without a value.

What goes wrong in an evaluation goes wrong at one of the nodes (`Arithmetic.exists_failsAt`), so it
is enough to look at the nodes that the schema allows.

* `Calc.MayStop`, `Pascal.MayStop`: what is left.
* `Calc.mayStop_of_evalNode`: the evaluation of a tree of the calculator.
* `Decimal.exists_float`: all numbers of Pascal are read.
* `Pascal.mayStop_of_evalNode`, `Pascal.mayStop_of_runNode`: the runs of a program.
-/

namespace GrammarKit

variable {arena : Arena} {id : NodeId} {why : EvalError}

theorem Arena.Obeys.inRange {R : Type} {schema : Schema R} {role : R}
    (h : arena.Obeys schema role id) : arena.InRange id := by
  obtain ⟨hget, -, -⟩ := h
  exact Arena.inRange_of_get hget

/-! ## The calculator -/

namespace Calc

/-- What may stop the evaluation of the tree below a node.  A literal stops it only if it is too large
for 32 bits. -/
inductive MayStop (arena : Arena) (id : NodeId) : EvalError → Prop
  | divisionByZero : MayStop arena id .divisionByZero
  | overflow (op : String) : MayStop arena id (.overflow op)
  | invalidNumber {x : NodeId} {text : String} : arena.Reaches id x →
    arena.get x = .ok (.const .integer text) → 2147483647 < Nat.ofDigitChars 10 text.toList 0 →
    MayStop arena id (.invalidNumber text)

theorem of_checked_eq_error {op : String} {v : Int} (h : checked op v = .error why) :
    why = .overflow op := by
  rw [checked] at h
  split at h
  · cases h
  · exact (Except.error.inj h).symm

/-- A numeral is refused only if it is too large. -/
theorem of_literal_eq_error {text : String} (hnumeral : Decimal.isNumeral text.toList = true)
    (h : literal text = .error why) :
    why = .invalidNumber text ∧ 2147483647 < Nat.ofDigitChars 10 text.toList 0 := by
  have houtcome := Arith.outcome_literal ⟨text.toList, hnumeral⟩
  rw [String.ofList_toList, h] at houtcome
  simp only [Arith.outcome, Arith.faults, Arith.ownFaults, String.ofList_toList] at houtcome
  by_cases hfits : (Arith.literal ⟨text.toList, hnumeral⟩).value ≤ 2147483647
  · rw [if_pos hfits] at houtcome
    cases houtcome
  · rw [if_neg hfits] at houtcome
    exact ⟨(Except.error.inj houtcome).symm, Nat.not_le.mp fun hle => hfits (Int.ofNat_le.mpr hle)⟩

/-- A node that is allowed goes wrong in few ways. -/
theorem Allows.mayStop {x : NodeId} {node : Node} {roles : List Unit} (h : Allows () node roles)
    (hx : arena.Reaches id x) (hget : arena.get x = .ok node)
    (hfails : arithmetic.FailsAt why node) : MayStop arena id why := by
  cases h with
  | integer hnumeral =>
    obtain ⟨rfl, hlarge⟩ := of_literal_eq_error hnumeral hfails
    exact .invalidNumber hx hget hlarge
  | unary op symbol operand =>
    obtain ⟨v, herror⟩ := hfails
    cases op with
    | plus => cases herror
    | minus => exact of_checked_eq_error herror ▸ .overflow _
  | @binary op symbol left right hop =>
    obtain ⟨a, b, herror⟩ := hfails
    cases op with
    | add | sub | mul => exact of_checked_eq_error herror ▸ .overflow _
    | intDiv =>
      change applyBinary .intDiv a b = _ at herror
      rw [applyBinary] at herror
      split at herror
      · cases herror
        exact .divisionByZero
      · exact of_checked_eq_error herror ▸ .overflow _
    | floatDiv | assign => exact absurd hop (by decide)

/-- **Little may stop the evaluation of a tree that obeys.** -/
theorem mayStop_of_evalNode (h : arena.Tidy) (hobeys : arena.Obeys Allows () id) {height : Nat}
    (hheight : id.index < height) (herror : evalNode arena height id = .error why) :
    MayStop arena id why := by
  rw [← value_evalWith] at herror
  obtain ⟨x, node, hx, hget, hfails⟩ :=
    Arithmetic.exists_failsAt h hobeys.inRange hheight herror
  obtain ⟨⟨⟩, hget', hallows, -⟩ := hobeys.of_reaches hx
  cases hget.symm.trans hget'
  exact hallows.mayStop hx hget hfails

end Calc

/-! ## Numbers of Pascal -/

namespace Decimal

theorem splitSign_of_isDigit {c : Char} {chars : List Char} (hc : isDigit c = true) :
    splitSign (c :: chars) = (false, c :: chars) := by
  have hmem := Calc.mem_digits_of_isDigit hc
  fin_cases hmem <;> rfl

/-- What begins with a digit has no sign and is no word. -/
theorem ofString?_of_isDigit {text : String} {c : Char} {chars : List Char}
    (htext : text.toList = c :: chars) (hc : isDigit c = true) :
    Literal.ofString? text = Literal.unsigned? false (c :: chars) := by
  have hne : ∀ (first : Char) (word : List Char), isDigit first = false →
      String.ofList ((c :: chars).map Char.toLower) ≠ String.ofList (first :: word) := by
    intro first word hfirst heq
    rw [String.ofList_inj, List.map_cons, List.cons.injEq] at heq
    have hmem := Calc.mem_digits_of_isDigit hc
    rw [← heq.1] at hfirst
    fin_cases hmem <;> cases hfirst
  rw [Literal.ofString?, htext, splitSign_of_isDigit hc]
  dsimp only
  split
  · next heq => exact absurd heq (hne 'i' "nf".toList rfl)
  · next heq => exact absurd heq (hne 'i' "nfinity".toList rfl)
  · next heq => exact absurd heq (hne 'n' "an".toList rfl)
  · rfl

theorem takeWhile_numeral {digits : List Char} (h : isNumeral digits = true) (rest : List Char) :
    (digits ++ rest).takeWhile isDigit = digits ++ rest.takeWhile isDigit :=
  List.takeWhile_append_of_pos (List.all_eq_true.mp (Bool.and_eq_true_iff.mp h).2)

theorem dropWhile_numeral {digits : List Char} (h : isNumeral digits = true) (rest : List Char) :
    (digits ++ rest).dropWhile isDigit = rest.dropWhile isDigit :=
  List.dropWhile_append_of_pos (List.all_eq_true.mp (Bool.and_eq_true_iff.mp h).2)

/-- Digits, with or without a point and more digits, are a number. -/
theorem exists_unsigned {whole : List Char} (hwhole : isNumeral whole = true) {rest : List Char}
    (hrest : rest = [] ∨ ∃ fraction, isNumeral fraction = true ∧ rest = '.' :: fraction) :
    ∃ number, Literal.unsigned? false (whole ++ rest) = some number := by
  have hnonempty : whole.isEmpty = false := by
    rw [isNumeral, Bool.and_eq_true, Bool.not_eq_true'] at hwhole
    exact hwhole.1
  rcases hrest with rfl | ⟨fraction, hfraction, rfl⟩
  · rw [Literal.unsigned?, takeWhile_numeral hwhole, dropWhile_numeral hwhole]
    simp [hnonempty, Literal.exponent?]
  · have htake := takeWhile_numeral hfraction []
    have hdrop := dropWhile_numeral hfraction []
    rw [List.append_nil] at htake hdrop
    rw [Literal.unsigned?, takeWhile_numeral hwhole, dropWhile_numeral hwhole]
    simp [hnonempty, isDigit, htake, hdrop, Literal.exponent?]

/-- **A number of Pascal is read**: digits, with or without a point and more digits. -/
theorem exists_float {text : String} {whole rest : List Char} (hwhole : isNumeral whole = true)
    (hrest : rest = [] ∨ ∃ fraction, isNumeral fraction = true ∧ rest = '.' :: fraction)
    (htext : text.toList = whole ++ rest) : ∃ x, float? text = some x := by
  obtain ⟨number, hnumber⟩ := exists_unsigned hwhole hrest
  obtain ⟨c, digits, hdigits, hc, -⟩ := Calc.Numeral.exists_cons ⟨whole, hwhole⟩
  have hwhole' : whole = c :: digits := hdigits
  rw [hwhole', List.cons_append] at htext hnumber
  rw [float?, ofString?_of_isDigit htext hc, hnumber]
  exact ⟨_, rfl⟩

end Decimal

/-! ## Runs of Pascal -/

namespace Pascal

/-- What may stop the run of a program. -/
inductive MayStop : EvalError → Prop
  | divisionByZero : MayStop .divisionByZero
  | undefinedVariable (name : String) : MayStop (.undefinedVariable name)

theorem literal_ne_error {text : String} (h : ∃ x, Decimal.float? text = some x) :
    literal text ≠ .error why := by
  obtain ⟨x, hx⟩ := h
  intro herror
  rw [literal, hx] at herror
  cases herror

/-- A node that is allowed in an expression goes wrong in few ways. -/
theorem Allows.mayStop {node : Node} {roles : List Role} (h : Allows .expression node roles)
    {store : Store} (hfails : (arithmetic store).FailsAt why node) : MayStop why := by
  cases h with
  | integer hnumeral =>
    have hfloat := Decimal.exists_float hnumeral (Or.inl rfl) (List.append_nil _).symm
    exact absurd hfails (literal_ne_error hfloat)
  | real hwhole hfraction htext =>
    have hfloat := Decimal.exists_float hwhole (Or.inr ⟨_, hfraction, rfl⟩) htext
    exact absurd hfails (literal_ne_error hfloat)
  | var name =>
    change store.value name = _ at hfails
    rw [Store.value] at hfails
    split at hfails
    · cases hfails
    · cases hfails
      exact .undefinedVariable name
  | unary op symbol operand =>
    obtain ⟨x, herror⟩ := hfails
    cases herror
  | @binary op symbol left right hop =>
    obtain ⟨a, b, herror⟩ := hfails
    cases op with
    | add | sub | mul => cases herror
    | intDiv =>
      change applyBinary .intDiv a b = _ at herror
      rw [applyBinary] at herror
      split at herror <;> cases herror
      exact .divisionByZero
    | floatDiv =>
      change applyBinary .floatDiv a b = _ at herror
      rw [applyBinary] at herror
      split at herror <;> cases herror
      exact .divisionByZero
    | assign => exact absurd rfl hop

/-- An expression is made of expressions. -/
theorem Allows.expression_closed (role : Role) (node : Node) (roles : List Role)
    (hrole : role = .expression) (h : Allows role node roles) :
    ∀ role' ∈ roles, role' = .expression := by
  subst hrole
  cases h <;> simp

/-- **Little may stop the evaluation of an expression that obeys.** -/
theorem mayStop_of_evalNode (h : arena.Tidy) (hobeys : arena.Obeys Allows .expression id)
    {store : Store} {height : Nat} (hheight : id.index < height)
    (herror : evalNode arena store height id = .error why) : MayStop why := by
  rw [← value_evalWith] at herror
  obtain ⟨x, node, hx, hget, hfails⟩ :=
    Arithmetic.exists_failsAt h hobeys.inRange hheight herror
  obtain ⟨-, rfl, hget', hallows, -⟩ :=
    hobeys.of_reaches_within Allows.expression_closed rfl hx
  cases hget.symm.trans hget'
  exact hallows.mayStop hfails

/-- The node plays a role in which it is run. -/
def Role.runs : Role → Bool
  | .program | .block | .compound | .statement => true
  | .name | .declaration | .expression => false

/-- **Little may stop the run of a program that obeys.** -/
theorem mayStop_of_runNode (h : arena.Tidy) {role : Role} (hrole : role.runs = true)
    (hobeys : arena.Obeys Allows role id) {store : Store} {levels : Nat}
    (hlevels : id.index < levels) (herror : (runNode arena levels id store).1 = .error why) :
    MayStop why := by
  induction levels generalizing id role store with
  | zero => exact absurd hlevels (Nat.not_lt_zero _)
  | succ levels ih =>
    obtain ⟨hget, hallows, hlinks⟩ := hobeys
    have hbelow : ∀ {link role' store'}, link ∈ Node.links _ → role'.runs = true →
        arena.Obeys Allows role' link → (runNode arena levels link store').1 = .error why →
        MayStop why := fun hlink hrole' hobeys' =>
      ih hrole' hobeys'
        (Nat.lt_of_lt_of_le (h.link_lt id _ hget _ hlink) (Nat.le_of_lt_succ hlevels))
    rw [runNode, Arena.node, hget] at herror
    cases hallows with
    | program name block =>
      rw [Node.links, List.forall₂_cons, List.forall₂_cons] at hlinks
      obtain ⟨-, hblock, -⟩ := hlinks
      exact hbelow (List.mem_cons_of_mem name List.mem_cons_self) rfl hblock herror
    | block declarations body =>
      -- The body comes last.
      have hreversed := List.forall₂_reverse_iff.mpr hlinks
      rw [Node.links, List.reverse_concat, List.reverse_concat, List.forall₂_cons] at hreversed
      exact hbelow (List.mem_append_right declarations List.mem_cons_self) rfl hreversed.1 herror
    | body statements | compound statements =>
      obtain ⟨link, hmem, store', herror'⟩ := exists_mem_of_runAll herror
      exact hbelow hmem rfl (Arena.forall₂_obeys_iff.mp hlinks link hmem) herror'
    | nop => cases herror
    | assign symbol left right =>
      rw [Node.links, List.forall₂_cons, List.forall₂_cons] at hlinks
      obtain ⟨hleft, hright, -⟩ := hlinks
      obtain ⟨htarget, hname, -⟩ := hleft
      cases hname with
      | name text =>
        change (runAssign arena left right store).1 = _ at herror
        rw [runAssign, Arena.node, htarget] at herror
        cases heval : evalNode arena store arena.height right with
        | error why' =>
          simp only [Except.mapError, heval] at herror
          cases herror
          exact mayStop_of_evalNode h hright (Nat.lt_succ_of_lt hright.inRange) heval
        | ok x =>
          simp only [Except.mapError, heval] at herror
          cases herror
    | _ => cases hrole

end Pascal

end GrammarKit
