/-!
Doubles as numbers `significand · 2 ^ exponent`, and the double nearest to a ratio.

All arithmetic here is on natural numbers, so that the only rounding is the one written down.
-/

namespace LazyLisp.Decimal

/-- A finite double without its sign: the number `significand · 2 ^ exponent`. -/
structure Magnitude where
  significand : Nat
  exponent : Int
  deriving Repr, DecidableEq

def twoTo (n : Nat) : Nat := Nat.pow 2 n

def tenTo (n : Nat) : Nat := Nat.pow 10 n

/-- The least exponent of a double; numbers of this exponent may have few significant bits. -/
def leastExponent : Int := -1074

/-- The exponent from which on a significand of 53 bits no longer fits a double. -/
def tooLargeExponent : Int := 972

/-- The sign bit, which also tells the two zeros apart. -/
def isNegative (x : Float) : Bool := x.toBits >>> 63 == 1

def magnitude (x : Float) : Magnitude :=
  let word := x.toBits.toNat
  let field : Nat := word / twoTo 52 % twoTo 11
  let fraction : Nat := word % twoTo 52
  if field = 0 then ⟨fraction, leastExponent⟩
  else ⟨fraction + twoTo 52, field + leastExponent - 1⟩

/-- The double with a given sign and magnitude, where a significand of 53 bits stands over the
least exponent; infinite if the magnitude is too large. -/
def ofMagnitude (negative : Bool) (m : Magnitude) : Float :=
  let word :=
    if tooLargeExponent ≤ m.exponent then 2047 * twoTo 52
    else if m.significand < twoTo 52 then m.significand
    else (m.exponent - leastExponent + 1).toNat * twoTo 52 + (m.significand - twoTo 52)
  Float.ofBits (UInt64.ofNat (word + if negative then twoTo 63 else 0))

/-- The quotient rounded to the nearest integer, a half to the even neighbour. -/
def roundDiv (num den : Nat) : Nat :=
  let q := num / den
  let twice := 2 * (num % den)
  if den < twice || (twice == den && q % 2 == 1) then q + 1 else q

/-- `num · 2 ^ (-shift) / den` as a ratio of natural numbers. -/
def scaled (num den : Nat) (shift : Int) : Nat × Nat :=
  (num * twoTo (-shift).toNat, den * twoTo shift.toNat)

/-- The exponent at which the quotient of two positive numbers has 53 bits before the point. -/
def ratioExponent (num den : Nat) : Int :=
  let guess := (num.log2 : Int) - den.log2 - 52
  let (n, d) := scaled num den guess
  if n < twoTo 52 * d then guess - 1 else guess

/-- The magnitude nearest to a quotient, a half to the even neighbour. -/
def nearestMagnitude (num den : Nat) : Magnitude :=
  if num = 0 then ⟨0, leastExponent⟩
  else
    let e := max (ratioExponent num den) leastExponent
    let (n, d) := scaled num den e
    let m := roundDiv n d
    if m = twoTo 53 then ⟨twoTo 52, e + 1⟩ else ⟨m, e⟩

/-- The double nearest to `num / den`; infinite if the quotient is too large. -/
def nearest (negative : Bool) (num den : Nat) : Float :=
  ofMagnitude negative (nearestMagnitude num den)

/-- The double nearest to an integer, if the integer is in the range of the doubles. -/
def ofInt? (n : Int) : Option Float :=
  let x := nearest (n < 0) n.natAbs 1
  if x.isInf then none else some x

end LazyLisp.Decimal
