import LazyLisp.Text.Half
import LazyLisp.Text.Printable

/-!
Quoted texts inside messages: single quotes unless the text has those and no double quote, and an
escape for every character that cannot be shown.
-/

namespace LazyLisp.Text

def hexDigit (n : Nat) : Char :=
  if n < 10 then Char.ofNat (0x30 + n) else Char.ofNat (0x57 + n)

/-- The last `width` digits of a number in base sixteen. -/
def hex (width n : Nat) : List Char :=
  match width with
  | 0 => []
  | width + 1 => hexDigit (n / Nat.pow 16 width % 16) :: hex width n

def unitEscape (n : Nat) : List Char := '\\' :: 'u' :: hex 4 n

/-- One character of a text that stands between `mark`s. -/
def quotedChar (mark c : Char) : List Char :=
  if c == mark || c == '\\' then ['\\', c]
  else if c == '\t' then ['\\', 't']
  else if c == '\n' then ['\\', 'n']
  else if c == '\r' then ['\\', 'r']
  else if isPrintable c then [c]
  else if c.toNat < 0x100 then '\\' :: 'x' :: hex 2 c.toNat
  else if c.toNat < 0x10000 then unitEscape c.toNat
  else '\\' :: 'U' :: hex 8 c.toNat

def quotationMark (text : List Char) : Char :=
  if text.contains '\'' && !text.contains '"' then '"' else '\''

/-- A text as a message quotes it. What stands for half a pair is shown as that half. -/
def quoted (halves : Halves) (text : String) : String :=
  let mark := quotationMark text.toList
  let shown (c : Char) := match halves.half? c with
    | some n => unitEscape n
    | none => quotedChar mark c
  String.ofList (mark :: text.toList.flatMap shown ++ [mark])

def quotedSingle (c : Char) : String :=
  let mark := quotationMark [c]
  String.ofList (mark :: quotedChar mark c ++ [mark])

end LazyLisp.Text
