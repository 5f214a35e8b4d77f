import LazyLisp.Decimal.Rounding

/-!
The shortest decimal of a double: of the decimals with the fewest digits that read back as the
double, the one nearest to it, and of two equally near ones the even one.

A decimal reads back as a double exactly when it lies in the interval of the reals that round to
that double. The interval's ends belong to it when the significand is even.
-/

namespace LazyLisp.Decimal

/-- A positive decimal `0.d₁d₂… · 10 ^ point`, its digits being those of `digits`, of which the
last is not zero. -/
structure Shortest where
  digits : List Char
  point : Int
  deriving Repr, DecidableEq

def tenPower (exponent : Int) : Nat × Nat := (tenTo exponent.toNat, tenTo (-exponent).toNat)

/-- The reals that round to a magnitude, in quarters of its last place: from `low` to `high`. -/
def roundingRange (m : Magnitude) : Nat × Nat :=
  let high := 4 * m.significand + 2
  if m.significand = twoTo 52 ∧ leastExponent < m.exponent then (4 * m.significand - 1, high)
  else (4 * m.significand - 2, high)

/-- Whether `count · 10 ^ place` reads back as the magnitude. -/
def readsBack (m : Magnitude) (count : Nat) (place : Int) : Bool :=
  let (low, high) := roundingRange m
  let (tenUp, tenDown) := tenPower place
  let (num, den) := scaled (4 * count * tenUp) tenDown m.exponent
  if m.significand % 2 = 0 then low * den ≤ num && num ≤ high * den
  else low * den < num && num < high * den

/-- The number of digits before the point of a positive magnitude, negative for zeros behind it:
the `p` with `10 ^ (p - 1) ≤ m < 10 ^ p`. -/
def decimalPoint (m : Magnitude) : Int :=
  let guess := Int.fdiv (((m.significand.log2 : Int) + m.exponent) * 30103) 100000
  let below (p : Int) : Bool :=
    let (tenUp, tenDown) := tenPower p
    let (num, den) := scaled (m.significand * tenDown) tenUp (-m.exponent)
    num < den
  if below guess then guess else if below (guess + 1) then guess + 1 else guess + 2

/-- The multiples of `10 ^ place` next to a magnitude, the nearer one first and of two equally near
the even one. -/
def neighbours (m : Magnitude) (place : Int) : List Nat :=
  let (tenUp, tenDown) := tenPower place
  let (num, den) := scaled (m.significand * tenDown) tenUp (-m.exponent)
  let q := num / den
  if roundDiv num den = q then [q, q + 1] else [q + 1, q]

def dropTrailingZeros (digits : List Char) : List Char :=
  (digits.reverse.dropWhile (· == '0')).reverse

/-- Search for a decimal that reads back among those with `width` digits, then with one more, as
often as `more` allows. -/
def searchShortest (m : Magnitude) (point : Int) (width more : Nat) : Shortest :=
  let place := point - width
  let found := (neighbours m place).find? fun count => 0 < count && readsBack m count place
  match found, more with
  | some count, _ =>
    let digits := Nat.toDigits 10 count
    ⟨dropTrailingZeros digits, place + digits.length⟩
  | none, more + 1 => searchShortest m point (width + 1) more
  | none, 0 => ⟨Nat.toDigits 10 m.significand, point⟩

/-- The shortest decimal of a positive magnitude. Seventeen digits are always enough. -/
def shortest (m : Magnitude) : Shortest := searchShortest m (decimalPoint m) 1 16

end LazyLisp.Decimal
