/-!
# Decimal digits

The value of a run of ASCII digits, and integers written with digits and an optional sign.

A number of many digits is not put together digit by digit, which would take a product of the whole
number with ten for each of them.  Neighbours are joined to digits of the squared base, then these to
digits of the base after that, and so on, until there is one digit.

* `value` is the number a run of digits stands for; `value_eq_ofDigitChars` is its usual definition.
* `integer?` reads an integer; blanks, other signs and other digits are refused.
-/

namespace GrammarKit.Decimal

/-- The character is one of `0` to `9`. -/
def isDigit (c : Char) : Bool := '0' ≤ c && c ≤ '9'

/-- The number a digit stands for. -/
def digitValue (c : Char) : Nat := c.toNat - '0'.toNat

/-- Joins digits, the lowest first, in pairs to digits of the squared base. -/
def joinPairs (base : Nat) : List Nat → List Nat
  | low :: high :: digits => (low + base * high) :: joinPairs base digits
  | digits => digits

theorem length_joinPairs_le (base : Nat) (digits : List Nat) :
    2 * (joinPairs base digits).length ≤ digits.length + 1 := by
  fun_induction joinPairs base digits with
  | case1 low high digits ih =>
    simp only [List.length_cons]
    omega
  | case2 digits h =>
    match digits, h with
    | [], _ => exact Nat.zero_le _
    | [digit], _ => exact Nat.le_refl _
    | low :: high :: rest, h => exact absurd rfl (h low high rest)

theorem foldr_joinPairs (base : Nat) (digits : List Nat) :
    (joinPairs base digits).foldr (fun digit acc => digit + base * base * acc) 0 =
      digits.foldr (fun digit acc => digit + base * acc) 0 := by
  fun_induction joinPairs base digits with
  | case1 low high digits ih =>
    rw [List.foldr_cons, ih, List.foldr_cons, List.foldr_cons, Nat.mul_add, Nat.mul_assoc,
      Nat.add_assoc]
  | case2 digits h =>
    match digits, h with
    | [], _ => rfl
    | [digit], _ => rfl
    | low :: high :: rest, h => exact absurd rfl (h low high rest)

/-- The number with these digits, the lowest first. -/
def ofDigits (base : Nat) : List Nat → Nat
  | [] => 0
  | [digit] => digit
  | low :: high :: digits => ofDigits (base * base) (joinPairs base (low :: high :: digits))
termination_by digits => digits.length
decreasing_by
  have := length_joinPairs_le base (low :: high :: digits)
  simp only [List.length_cons] at *
  omega

theorem ofDigits_eq_foldr (base : Nat) (digits : List Nat) :
    ofDigits base digits = digits.foldr (fun digit acc => digit + base * acc) 0 := by
  fun_induction ofDigits base digits with
  | case1 => rfl
  | case2 => rfl
  | case3 base low high digits ih => rw [ih, foldr_joinPairs]

/-- The number a run of digits stands for. -/
def value (digits : List Char) : Nat := ofDigits 10 (digits.reverse.map digitValue)

theorem value_eq_ofDigitChars (digits : List Char) : value digits = Nat.ofDigitChars 10 digits 0 := by
  rw [value, ofDigits_eq_foldr, List.foldr_map, List.foldr_reverse, Nat.ofDigitChars_eq_foldl]
  congr 1
  funext acc c
  exact Nat.add_comm _ _

/-- At least one digit and nothing else. -/
def isNumeral (chars : List Char) : Bool := !chars.isEmpty && chars.all isDigit

/-- Takes off a sign: whether it is a minus, and what stands behind it. -/
def splitSign : List Char → Bool × List Char
  | '-' :: chars => (true, chars)
  | '+' :: chars => (false, chars)
  | chars => (false, chars)

/-- The integer that is written, with an optional sign. -/
def integer? (text : String) : Option Int :=
  let (negative, digits) := splitSign text.toList
  if isNumeral digits then
    some (if negative then -(value digits : Int) else value digits)
  else none

end GrammarKit.Decimal
