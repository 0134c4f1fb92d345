import GrammarKit.Decimal.Binary64
import GrammarKit.Decimal.Digits

/-!
# Reading decimal fractions

```text
number   := sign? (digits "."? digits? | "." digits) exponent? | sign? word
exponent := ("e" | "E") sign? digits
word     := "inf" | "infinity" | "nan", in capital or small letters
```

The number that is read is the float nearest to what is written, with one exception: of an exponent
the digits are read until it has reached 65536, and the digits after that do not count.  This shows
only where hundreds of thousands of zeros make up for the exponent.

* `Literal.ofString?` takes the text apart and accepts exactly this grammar.
* `Literal.toFloat` rounds.
-/

namespace GrammarKit.Decimal

/-- What a number literal says. -/
inductive Literal where
  /-- The number `± digits · 10^exponent`. -/
  | finite (negative : Bool) (digits : Nat) (exponent : Int)
  /-- Infinity with a sign. -/
  | infinite (negative : Bool)
  /-- The word for what is not a number. -/
  | notANumber
  deriving DecidableEq, Repr

namespace Literal

/-- An exponent that is at least this is read no further. -/
def exponentLimit : Nat := 65536

/-- The size of an exponent, read digit by digit up to the limit. -/
def exponentSize (digits : List Char) : Nat :=
  digits.foldl (fun size c => if size < exponentLimit then 10 * size + digitValue c else size) 0

/-- The power of ten behind the digits, which may be left out. -/
def exponent? : List Char → Option Int
  | [] => some 0
  | c :: chars =>
    if c = 'e' ∨ c = 'E' then
      let (negative, digits) := splitSign chars
      if isNumeral digits then
        some (if negative then -(exponentSize digits : Int) else exponentSize digits)
      else none
    else none

/-- A number without its sign: digits, a point between, before or behind them, and an exponent. -/
def unsigned? (negative : Bool) (chars : List Char) : Option Literal :=
  let whole := chars.takeWhile isDigit
  let (fraction, rest) :=
    match chars.dropWhile isDigit with
    | '.' :: chars => (chars.takeWhile isDigit, chars.dropWhile isDigit)
    | chars => ([], chars)
  if whole.isEmpty && fraction.isEmpty then none
  else (exponent? rest).map fun e => .finite negative (value (whole ++ fraction)) (e - fraction.length)

/-- The literal that a text spells. -/
def ofString? (text : String) : Option Literal :=
  let (negative, chars) := splitSign text.toList
  match String.ofList (chars.map Char.toLower) with
  | "inf" | "infinity" => some (.infinite negative)
  | "nan" => some .notANumber
  | _ => unsigned? negative chars

/-- The float nearest to the number.  With `2^bits ≤ digits < 2^(bits + 1)` and `2^3 < 10 < 2^4`, a
number below `10^-330` is known to be zero and one above `10^330` to be infinite without its power of
ten. -/
def toFloat : Literal → Float
  | .infinite negative => Binary64.infinity negative
  | .notANumber => Binary64.notANumber
  | .finite negative digits exponent =>
    let bits : Int := digits.log2
    if digits = 0 ∨ bits + 1 + 3 * (exponent + 330) ≤ 0 then Binary64.nearest negative 0 1
    else if 0 ≤ exponent ∧ 4 * 330 ≤ bits + 3 * exponent then Binary64.infinity negative
    else
      Binary64.nearest negative (digits * Nat.pow 10 exponent.toNat) (Nat.pow 10 (-exponent).toNat)

end Literal

/-- The float nearest to the number that a text spells. -/
def float? (text : String) : Option Float := (Literal.ofString? text).map Literal.toFloat

end GrammarKit.Decimal
