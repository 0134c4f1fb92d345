/-!
# Floating-point numbers of 64 bits

A finite number of this format is `m · 2^q` with `m < 2^53` and `-1074 ≤ q`.  With `m < 2^52` only
for the least `q`, the bits that encode it are the number `(q + 1074) · 2^52 + m`, and the same sum
is right when rounding has carried `m` up to `2^53`.

* `Binary64.nearest` is the float nearest to a quotient of two naturals; a tie goes to the even `m`.
* `Binary64.parts` takes a finite float apart.
-/

namespace GrammarKit.Binary64

/-- The bits of positive infinity, which are one more than those of the largest finite number. -/
def infinityBits : Nat := 0x7FF0000000000000

/-- The bit that marks a negative number. -/
def signBit : Nat := 0x8000000000000000

/-- The bit above the fraction of a significand, which is not stored. -/
def hiddenBit : Nat := 0x10000000000000

/-- The integer nearest to `n / d`, the even one of two that are equally near. -/
def roundHalfEven (n d : Nat) : Nat :=
  let quotient := n / d
  let rest := n % d
  if d < 2 * rest ∨ (d = 2 * rest ∧ quotient % 2 = 1) then quotient + 1 else quotient

/-- The largest `k` with `2^k ≤ n / d`, for positive `n` and `d`. -/
def floorLog2 (n d : Nat) : Int :=
  let k : Int := (n.log2 : Int) - (d.log2 : Int)
  if n * Nat.pow 2 (-k).toNat < d * Nat.pow 2 k.toNat then k - 1 else k

/-- The bits of the float nearest to `n / d`, for a positive `d`. -/
def nearestBits (n d : Nat) : Nat :=
  if n = 0 then 0
  else
    let q : Int := max (floorLog2 n d - 52) (-1074)
    let m := roundHalfEven (n * Nat.pow 2 (-q).toNat) (d * Nat.pow 2 q.toNat)
    min infinityBits ((q + 1074).toNat * hiddenBit + m)

/-- The float nearest to `n / d`, or its negation. -/
def nearest (negative : Bool) (n d : Nat) : Float :=
  .ofBits (.ofNat (nearestBits n d + if negative then signBit else 0))

/-- Infinity with a sign. -/
def infinity (negative : Bool) : Float :=
  .ofBits (.ofNat (infinityBits + if negative then signBit else 0))

/-- The float that is not a number. -/
def notANumber : Float := .ofBits (.ofNat (infinityBits + hiddenBit / 2))

/-- A finite number as `m · 2^q`. -/
structure Parts where
  /-- The significand. -/
  m : Nat
  /-- The power of two. -/
  q : Int
  deriving DecidableEq, Repr

/-- The size of the finite float with these bits; the sign plays no part. -/
def parts (bits : Nat) : Parts :=
  let fraction := bits % hiddenBit
  match bits / hiddenBit % 0x800 with
  | 0 => ⟨fraction, -1074⟩
  | e + 1 => ⟨hiddenBit + fraction, (e : Int) - 1074⟩

/-- Whether the bits mark a negative number. -/
def isNegative (bits : Nat) : Bool := bits / signBit % 2 == 1

end GrammarKit.Binary64
