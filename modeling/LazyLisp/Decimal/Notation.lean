import LazyLisp.Decimal.Shortest
import LazyLisp.Text.Blank
import LazyLisp.Text.Digit

/-!
Doubles as text. `render` writes the shortest decimal that reads back; `read?` accepts a sign,
digits of any script with single underscores between them, a point and an exponent, and gives the
double nearest to the number written.
-/

namespace LazyLisp.Decimal

/-- Where positional notation ends: a number is written with an exponent when its decimal point
stands outside these bounds. -/
structure Layout where
  leastPoint : Int
  greatestPoint : Int

/-- Numbers from a ten-thousandth up to sixteen digits before the point are positional. -/
def layout : Layout := ⟨-3, 16⟩

def zeros (n : Int) : List Char := List.replicate n.toNat '0'

/-- Digits with a point: at least one digit stands on either side of it. -/
def positional (s : Shortest) : List Char :=
  let width : Int := s.digits.length
  if s.point ≤ 0 then '0' :: '.' :: zeros (-s.point) ++ s.digits
  else if width ≤ s.point then s.digits ++ zeros (s.point - width) ++ ['.', '0']
  else s.digits.take s.point.toNat ++ '.' :: s.digits.drop s.point.toNat

/-- One digit before the point and an exponent with a sign and two digits or more. -/
def exponential (s : Shortest) : List Char :=
  let e := s.point - 1
  let digits := Nat.toDigits 10 e.natAbs
  let padded := if digits.length < 2 then '0' :: digits else digits
  let fraction := if s.digits.length ≤ 1 then [] else '.' :: s.digits.drop 1
  s.digits.take 1 ++ fraction ++ 'e' :: (if e < 0 then '-' else '+') :: padded

def render (x : Float) : String :=
  if x.isNaN then "nan"
  else
    let sign := if isNegative x then ['-'] else []
    if x.isInf then String.ofList (sign ++ ['i', 'n', 'f'])
    else
      let m := magnitude x
      if m.significand = 0 then String.ofList (sign ++ ['0', '.', '0'])
      else
        let s := shortest m
        let body :=
          if layout.leastPoint ≤ s.point && s.point ≤ layout.greatestPoint then positional s
          else exponential s
        String.ofList (sign ++ body)

/-- Drop the underscores of a numeral. Each must stand between two digits. -/
def dropUnderscores : (previous : Char) → List Char → Option (List Char)
  | previous, [] => if previous == '_' then none else some []
  | previous, c :: rest =>
    if c == '_' then
      if previous.isDigit then dropUnderscores '_' rest else none
    else if previous == '_' && !c.isDigit then none
    else (dropUnderscores c rest).map (c :: ·)

/-- A leading sign: whether it is a minus, and the text behind it. -/
def splitSign : List Char → Bool × List Char
  | '-' :: rest => (true, rest)
  | '+' :: rest => (false, rest)
  | text => (false, text)

/-- The exponent part of a numeral, if it is well formed: nothing, or `e`, a sign and digits. -/
def exponent? : List Char → Option Int
  | [] => some 0
  | c :: rest =>
    if c == 'e' || c == 'E' then
      let (negative, digits) := splitSign rest
      if digits.isEmpty || !digits.all Char.isDigit then none
      else
        let e : Int := Text.digitsValue digits
        some (if negative then -e else e)
    else none

/-- The double nearest to `count · 10 ^ place`. Far beyond the range of the doubles the answer is
known without computing the power. -/
def ofDecimal (negative : Bool) (count : Nat) (place : Int) : Float :=
  let width : Int := (count.log2 : Int) + 1
  if count = 0 || place * 3 + width < -1100 && place < 0 then nearest negative 0 1
  else if 400 < place then ofMagnitude negative ⟨twoTo 52, tooLargeExponent⟩
  else
    let (tenUp, tenDown) := tenPower place
    nearest negative (count * tenUp) tenDown

/-- A numeral in plain digits: a sign, digits with an optional point, an optional exponent. -/
def readPlain? (text : List Char) : Option Float := do
  let (negative, body) := splitSign text
  let whole := body.takeWhile Char.isDigit
  let afterWhole := body.dropWhile Char.isDigit
  let (fraction, afterFraction) := match afterWhole with
    | '.' :: rest => (rest.takeWhile Char.isDigit, rest.dropWhile Char.isDigit)
    | rest => ([], rest)
  if whole.isEmpty && fraction.isEmpty then none
  let e ← exponent? afterFraction
  return ofDecimal negative (Text.digitsValue (whole ++ fraction)) (e - fraction.length)

/-- Digits of other scripts become plain digits and their blanks plain spaces. -/
def plainChar (c : Char) : Char :=
  if c.toNat < 0x80 then c
  else if Text.isBlank c then ' '
  else match Text.digitValue? c with
    | some n => Char.ofNat (0x30 + n)
    | none => c

def isPlainBlank (c : Char) : Bool := c == ' ' || (0x09 ≤ c.toNat && c.toNat ≤ 0x0D)

/-- The double that a text denotes, if it denotes one. -/
def read? (text : List Char) : Option Float := do
  let plain := (text.map plainChar).dropWhile isPlainBlank
  let core := (plain.reverse.dropWhile isPlainBlank).reverse
  let digits ← dropUnderscores ' ' core
  readPlain? digits

end LazyLisp.Decimal
