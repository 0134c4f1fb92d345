import GrammarKit.Decimal.Binary64

/-!
# The shortest decimal text of a float

The reals that round to a float form an interval around it, whose ends belong to it iff the
significand is even.  The text of a float is a point of that interval with as few digits as
possible, and of several such points the nearest one to the float; of two that are equally near the
larger.  On the grid of decimals with a given number of digits only the two neighbours of the float
can be that point, so these two are tested, grid after grid.

The text is positional whatever the exponent: zeros are written out, and a whole number has no point.

* `Interval` is the float with the ends of its interval, over a common denominator.
* `Interval.neighbour?` tests one grid, `Interval.shortest` all of them.
* `positional` writes a decimal, `ofFloat` a float.
-/

namespace GrammarKit.Decimal

/-- The number of decimal digits of `n`; zero has none. -/
def digitCount (n : Nat) : Nat := if n = 0 then 0 else (Nat.toDigits 10 n).length

/-- A decimal `digits · 10^exponent`. -/
structure Scaled where
  /-- The digits, as a number. -/
  digits : Nat
  /-- The power of ten. -/
  exponent : Int
  deriving DecidableEq, Repr

/-- A positive float `mid / den` and the ends of the interval of reals that round to it. -/
structure Interval where
  /-- The lower end, times `den`. -/
  low : Nat
  /-- The float, times `den`. -/
  mid : Nat
  /-- The upper end, times `den`. -/
  high : Nat
  /-- The common denominator. -/
  den : Nat
  /-- Whether the ends belong to the interval. -/
  closed : Bool
  deriving DecidableEq, Repr

namespace Interval

/-- The interval of the float `m · 2^q`.  Below a power of two the floats are twice as dense. -/
def ofParts (p : Binary64.Parts) : Interval :=
  let unit := Nat.pow 2 (p.q - 2).toNat
  let gap := if p.m = Binary64.hiddenBit ∧ p.q ≠ -1074 then 1 else 2
  { low := (4 * p.m - gap) * unit
    mid := 4 * p.m * unit
    high := (4 * p.m + 2) * unit
    den := Nat.pow 2 (2 - p.q).toNat
    closed := p.m % 2 == 0 }

/-- Whether the point `n / d` belongs to the interval. -/
def contains (i : Interval) (n d : Nat) : Bool :=
  if i.closed then i.low * d ≤ n * i.den && n * i.den ≤ i.high * d
  else i.low * d < n * i.den && n * i.den < i.high * d

/-- The power of ten of the leading digit of the float. -/
def leading (i : Interval) : Int :=
  if i.den ≤ i.mid then (digitCount (i.mid / i.den) : Int) - 1
  else -(digitCount ((i.den + i.mid - 1) / i.mid - 1) : Int)

/-- The point of the grid of multiples of `10^exponent` that belongs to the interval and is nearest
to the float, the larger one of two. -/
def neighbour? (i : Interval) (exponent : Int) : Option Scaled :=
  let up := Nat.pow 10 exponent.toNat
  let down := Nat.pow 10 (-exponent).toNat
  let n := i.mid * down
  let d := i.den * up
  let below := n / d
  let inside (c : Nat) : Bool := i.contains (c * up) down
  match inside below, inside (below + 1) with
  | false, false => none
  | true, false => some ⟨below, exponent⟩
  | false, true => some ⟨below + 1, exponent⟩
  | true, true => some ⟨if d ≤ 2 * (n % d) then below + 1 else below, exponent⟩

/-- The shortest decimal of the interval, of at most 17 digits; these always suffice. -/
def shortest (i : Interval) : Scaled :=
  let grid (count : Nat) : Int := i.leading - count
  ((List.range 17).findSome? fun count => i.neighbour? (grid count)).getD
    ⟨i.mid / i.den, 0⟩

end Interval

/-- A decimal in positional notation, with neither a point nor zeros behind the last digit of a
fraction. -/
def positional (s : Scaled) : String :=
  let digits := Nat.toDigits 10 s.digits
  if 0 ≤ s.exponent then String.ofList (digits ++ List.replicate s.exponent.toNat '0')
  else
    let places := (-s.exponent).toNat
    let padded := List.replicate (places + 1 - digits.length) '0' ++ digits
    let whole := padded.take (padded.length - places)
    let fraction := (padded.drop (padded.length - places)).reverse.dropWhile (· == '0')
    String.ofList (if fraction.isEmpty then whole else whole ++ '.' :: fraction.reverse)

/-- The text of the float with these bits. -/
def ofBits (bits : Nat) : String :=
  let sign := if Binary64.isNegative bits then "-" else ""
  if bits % Binary64.signBit = Binary64.infinityBits then sign ++ "inf"
  else if Binary64.infinityBits < bits % Binary64.signBit then "NaN"
  else if bits % Binary64.signBit = 0 then sign ++ "0"
  else sign ++ positional (Interval.ofParts (Binary64.parts bits)).shortest

/-- The shortest text that reads back as the float. -/
def ofFloat (x : Float) : String := ofBits x.toBits.toNat

end GrammarKit.Decimal
