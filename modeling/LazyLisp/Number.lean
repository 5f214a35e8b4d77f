import LazyLisp.Decimal.Notation

/-!
Numbers: integers without bound and doubles.

An operation on two integers stays exact, one with a double among its operands works on doubles,
and comparison is exact in every case. What has no result is an `ArithmeticError`.
-/

namespace LazyLisp

inductive Number where
  | int (n : Int)
  | float (x : Float)

/-- Why an operation on numbers has no result. -/
inductive ArithmeticError where
  | intDivisionByZero
  | floatDivisionByZero
  | intModuloByZero
  | floatModuloByZero
  | intTooLarge
  | quotientTooLarge
  deriving Repr, DecidableEq

namespace ArithmeticError

def message : ArithmeticError → String
  | intDivisionByZero => "division by zero"
  | floatDivisionByZero => "float division by zero"
  | intModuloByZero => "integer modulo by zero"
  | floatModuloByZero => "float modulo"
  | intTooLarge => "int too large to convert to float"
  | quotientTooLarge => "integer division result too large for a float"

/-- A zero divisor, as opposed to a result out of range. -/
def isZeroDivision : ArithmeticError → Bool
  | intDivisionByZero | floatDivisionByZero | intModuloByZero | floatModuloByZero => true
  | intTooLarge | quotientTooLarge => false

end ArithmeticError

/-- The most digits that an integer may have in text. -/
def maxDigits : Nat := 4300

/-- Whether an integer has a text: it must not have more than `maxDigits` digits. -/
def hasText (n : Int) : Bool := n.natAbs < Decimal.tenTo maxDigits

namespace Number

abbrev Result := Except ArithmeticError

def toFloat : Number → Result Float
  | int n => match Decimal.ofInt? n with
    | some x => .ok x
    | none => .error .intTooLarge
  | float x => .ok x

/-- Apply an operation exactly to two integers and otherwise to doubles. -/
def lift (onInts : Int → Int → Int) (onFloats : Float → Float → Float) :
    Number → Number → Result Number
  | int a, int b => .ok (int (onInts a b))
  | a, b => return float (onFloats (← a.toFloat) (← b.toFloat))

def add : Number → Number → Result Number := lift (· + ·) (· + ·)
def sub : Number → Number → Result Number := lift (· - ·) (· - ·)
def mul : Number → Number → Result Number := lift (· * ·) (· * ·)

def neg : Number → Number
  | int n => int (-n)
  | float x => float (-x)

/-- The double nearest to the quotient of two integers. -/
def intQuotient (a b : Int) : Result Float :=
  let x := Decimal.nearest ((a < 0) != (b < 0)) a.natAbs b.natAbs
  if x.isInf then .error .quotientTooLarge else .ok x

/-- Division. The quotient of two integers is an integer when it is exact. -/
def div : Number → Number → Result Number
  | int a, int b =>
    if b = 0 then .error .intDivisionByZero
    else if a.fmod b = 0 then .ok (int (a.fdiv b))
    else float <$> intQuotient a b
  | a, b => do
    let x ← a.toFloat
    let y ← b.toFloat
    if y == 0 then .error .floatDivisionByZero else return float (x / y)

def zeroLike (y : Float) : Float := if Decimal.isNegative y then -0.0 else 0.0

/-- The remainder of two finite doubles that has the sign of the first, exactly. -/
def truncatedMod (x y : Float) : Float :=
  let a := Decimal.magnitude x
  let b := Decimal.magnitude y
  let e := min a.exponent b.exponent
  let r := a.significand * Decimal.twoTo (a.exponent - e).toNat %
    (b.significand * Decimal.twoTo (b.exponent - e).toNat)
  let (num, den) := Decimal.scaled r 1 (-e)
  Decimal.nearest (Decimal.isNegative x) num den

/-- The remainder of two doubles that has the sign of the second, which is not zero. -/
def floatMod (x y : Float) : Float :=
  if x.isNaN || y.isNaN || x.isInf then 0.0 / 0.0
  else
    let r := if y.isInf then x else truncatedMod x y
    if r == 0 then zeroLike y
    else if (y < 0) != (r < 0) then r + y else r

def mod : Number → Number → Result Number
  | int a, int b => if b = 0 then .error .intModuloByZero else .ok (int (a.fmod b))
  | a, b => do
    let x ← a.toFloat
    let y ← b.toFloat
    if y == 0 then .error .floatModuloByZero else return float (floatMod x y)

/-- The order of an integer and a double, exactly; none if the double is no number. -/
def compareIntFloat (n : Int) (x : Float) : Option Ordering :=
  if x.isNaN then none
  else if x.isInf then some (if x < 0 then .gt else .lt)
  else
    let m := Decimal.magnitude x
    let (num, den) := Decimal.scaled m.significand 1 (-m.exponent)
    let signed : Int := if Decimal.isNegative x then -(num : Int) else num
    some (compare (n * den) signed)

/-- The order of two numbers; none if one of them is no number. -/
def compare? : Number → Number → Option Ordering
  | int a, int b => some (compare a b)
  | int a, float y => compareIntFloat a y
  | float x, int b => (compareIntFloat b x).map Ordering.swap
  | float x, float y =>
    if x < y then some .lt else if x == y then some .eq else if y < x then some .gt else none

def sameAs (a b : Number) : Bool := compare? a b == some .eq

/-- The text of a number. Integers without text are written in full all the same; `hasText` tells
them apart. -/
def render : Number → String
  | int n => toString n
  | float x => Decimal.render x

end Number

end LazyLisp
