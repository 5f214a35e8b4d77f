import LazyLisp.Json
import LazyLisp.Number

/-!
Reading JSON.

The parser keeps the containers that are open on a stack, so that deep nesting costs no depth of its
own; `limit` says how deep a text may nest. Besides the standard the numbers `NaN`, `Infinity` and
`-Infinity` are accepted.
-/

namespace LazyLisp.Json

/-- What can be wrong with a text. -/
inductive Issue where
  | byteOrderMark
  | noValue
  | extraData
  | noPropertyName
  | noColon
  | noComma
  | openString
  | controlChar
  | unknownEscape
  | badUnit
  deriving Repr, DecidableEq

namespace Issue

def text : Issue → String
  | byteOrderMark => "Unexpected UTF-8 BOM (decode using utf-8-sig)"
  | noValue => "Expecting value"
  | extraData => "Extra data"
  | noPropertyName => "Expecting property name enclosed in double quotes"
  | noColon => "Expecting ':' delimiter"
  | noComma => "Expecting ',' delimiter"
  | openString => "Unterminated string starting at"
  | controlChar => "Invalid control character at"
  | unknownEscape => "Invalid \\escape"
  | badUnit => "Invalid \\uXXXX escape"

/-- An issue at a place of a text: lines and columns count from one. -/
def message (issue : Issue) (source : List Char) (pos : Nat) : String :=
  let before := source.take pos
  let line := before.count '\n' + 1
  let column := (before.reverse.takeWhile (· != '\n')).length + 1
  issue.text ++ ": line " ++ toString line ++ " column " ++ toString column ++ " (char " ++
    toString pos ++ ")"

end Issue

inductive Failure where
  | issue (issue : Issue) (pos : Nat)
  | tooManyDigits
  | nestedTooDeep
  deriving Repr, DecidableEq

abbrev Reading := Except Failure

/-- A place in a text: how much lies in front of it, and what follows. -/
structure Cursor where
  pos : Nat
  rest : List Char

namespace Cursor

def fail {α : Type} (c : Cursor) (issue : Issue) : Reading α := .error (.issue issue c.pos)

def advance (c : Cursor) (count : Nat) : Cursor := ⟨c.pos + count, c.rest.drop count⟩

def isBlank (c : Char) : Bool := c == ' ' || c == '\t' || c == '\n' || c == '\r'

def skipBlanks (c : Cursor) : Cursor := c.advance (c.rest.takeWhile isBlank).length

end Cursor

def hexValue? (c : Char) : Option Nat :=
  if c.isDigit then some (c.toNat - 0x30)
  else if 'a' ≤ c && c ≤ 'f' then some (c.toNat - 0x57)
  else if 'A' ≤ c && c ≤ 'F' then some (c.toNat - 0x37)
  else none

def unit? (a b c d : Char) : Option Nat := do
  return (((← hexValue? a) * 16 + (← hexValue? b)) * 16 + (← hexValue? c)) * 16 + (← hexValue? d)

/-- The character of a unit, or the one that stands for it if it is half a pair. -/
def unitChar (halves : Text.Halves) (n : Nat) : Char :=
  if Text.isHalf n then halves.char n else Char.ofNat n

def pairChar (high low : Nat) : Char :=
  Char.ofNat (0x10000 + (high - 0xD800) * 0x400 + (low - 0xDC00))

def escapes : List (Char × Char) :=
  [('"', '"'), ('\\', '\\'), ('/', '/'), ('b', Char.ofNat 0x08), ('f', Char.ofNat 0x0C),
    ('n', '\n'), ('r', '\r'), ('t', '\t')]

/-- Read a string up to its closing quote. It was opened at `start`, the rest stands at `pos`, and
`soFar` holds what was read, in reverse. An escape by a unit needs a character behind it. -/
def stringFrom (halves : Text.Halves) (start : Nat) (soFar : List Char) (pos : Nat) :
    List Char → Reading (String × Cursor)
  | [] => .error (.issue .openString start)
  | '"' :: rest => .ok (String.ofList soFar.reverse, ⟨pos + 1, rest⟩)
  | ['\\'] => .error (.issue .openString start)
  | '\\' :: 'u' :: a :: b :: c :: d :: next :: rest =>
    match unit? a b c d with
    | none => .error (.issue .badUnit (pos + 1))
    | some high =>
      match next, rest with
      | '\\', 'u' :: e :: f :: g :: h :: after :: rest =>
        if Text.isHighUnit high then
          match unit? e f g h with
          | none => .error (.issue .badUnit (pos + 7))
          | some low =>
            if Text.isLowUnit low then
              stringFrom halves start (pairChar high low :: soFar) (pos + 12) (after :: rest)
            else
              stringFrom halves start (unitChar halves high :: soFar) (pos + 6)
                ('\\' :: 'u' :: e :: f :: g :: h :: after :: rest)
        else
          stringFrom halves start (unitChar halves high :: soFar) (pos + 6)
            ('\\' :: 'u' :: e :: f :: g :: h :: after :: rest)
      | next, rest =>
        stringFrom halves start (unitChar halves high :: soFar) (pos + 6) (next :: rest)
  | '\\' :: 'u' :: _ => .error (.issue .badUnit (pos + 1))
  | '\\' :: c :: rest =>
    match escapes.lookup c with
    | some d => stringFrom halves start (d :: soFar) (pos + 2) rest
    | none => .error (.issue .unknownEscape pos)
  | c :: rest =>
    if c.toNat < 0x20 then .error (.issue .controlChar pos)
    else stringFrom halves start (c :: soFar) (pos + 1) rest
termination_by cs => cs.length

/-- The parts of the number at the start of a text: a sign and whole digits, a fraction with its
point, and an exponent with its mark. -/
def numberParts? (text : List Char) : Option (List Char × List Char × List Char) :=
  let (sign, body) := match text with
    | '-' :: rest => (['-'], rest)
    | rest => ([], rest)
  let whole := match body with
    | '0' :: _ => ['0']
    | rest => rest.takeWhile Char.isDigit
  if whole.isEmpty then none
  else
    let afterWhole := body.drop whole.length
    let fraction := match afterWhole with
      | '.' :: rest => '.' :: rest.takeWhile Char.isDigit
      | _ => []
    let fraction := if fraction.length ≤ 1 then [] else fraction
    let exponent := match afterWhole.drop fraction.length with
      | e :: rest =>
        if e == 'e' || e == 'E' then
          let mark := if rest.head?.any fun c => c == '+' || c == '-' then rest.take 1 else []
          let digits := (rest.drop mark.length).takeWhile Char.isDigit
          if digits.isEmpty then [] else e :: mark ++ digits
        else []
      | [] => []
    some (sign ++ whole, fraction, exponent)

def number (c : Cursor) : Reading (Json × Cursor) :=
  match numberParts? c.rest with
  | none => c.fail .noValue
  | some (whole, fraction, exponent) =>
    let text := whole ++ fraction ++ exponent
    let (negative, digits) := Decimal.splitSign whole
    if fraction.isEmpty && exponent.isEmpty then
      if maxDigits < digits.length then .error .tooManyDigits
      else
        let n : Int := Text.digitsValue digits
        .ok (.int (if negative then -n else n), c.advance text.length)
    else .ok (.float ((Decimal.read? text).getD 0), c.advance text.length)

def words : List (String × Json) :=
  [("null", .null), ("true", .bool true), ("false", .bool false), ("NaN", .float (0.0 / 0.0)),
    ("Infinity", .float (1.0 / 0.0)), ("-Infinity", .float (-1.0 / 0.0))]

/-- The value at a place where no container opens. -/
def scalar (halves : Text.Halves) (c : Cursor) : Reading (Json × Cursor) :=
  match c.rest with
  | '"' :: rest => do
    let (s, c) ← stringFrom halves c.pos [] (c.pos + 1) rest
    return (.string s, c)
  | _ =>
    match words.find? (·.1.toList.isPrefixOf c.rest) with
    | some (word, v) => .ok (v, c.advance word.length)
    | none => number c

/-- A container whose end has not been read. Items are in reverse. -/
inductive OpenValue where
  | array (items : List Json)
  /-- An object that waits for the value of a field. -/
  | object (fields : List (String × Json)) (name : String)

/-- Where the parser stands: in front of a value, or behind one that it has to put away. -/
inductive Stage where
  | value (c : Cursor)
  | filled (v : Json) (c : Cursor)

def fieldName (halves : Text.Halves) (c : Cursor) : Reading (String × Cursor) := do
  match c.rest with
  | '"' :: rest =>
    let (name, c) ← stringFrom halves c.pos [] (c.pos + 1) rest
    let c := c.skipBlanks
    if c.rest.head? == some ':' then return (name, (c.advance 1).skipBlanks)
    else c.fail .noColon
  | _ => c.fail .noPropertyName

def begin (halves : Text.Halves) (c : Cursor) (stack : List OpenValue) :
    Reading (Stage × List OpenValue) := do
  match c.rest with
  | '[' :: _ =>
    let c := (c.advance 1).skipBlanks
    if c.rest.head? == some ']' then return (.filled (.array []) (c.advance 1), stack)
    else return (.value c, .array [] :: stack)
  | '\x7b' :: _ =>
    let c := (c.advance 1).skipBlanks
    if c.rest.head? == some '\x7d' then return (.filled (.object []) (c.advance 1), stack)
    else
      let (name, c) ← fieldName halves c
      return (.value c, .object [] name :: stack)
  | _ =>
    let (v, c) ← scalar halves c
    return (.filled v c, stack)

/-- Put a finished value into the innermost container, which goes on or ends. -/
def fill (halves : Text.Halves) (v : Json) (c : Cursor) (top : OpenValue)
    (stack : List OpenValue) : Reading (Stage × List OpenValue) := do
  let c := c.skipBlanks
  let next := c.rest.head?
  match top with
  | .array items =>
    if next == some ']' then return (.filled (.array (v :: items).reverse) (c.advance 1), stack)
    else if next == some ',' then
      return (.value (c.advance 1).skipBlanks, .array (v :: items) :: stack)
    else c.fail .noComma
  | .object fields name =>
    let fields := setField name v fields
    if next == some '\x7d' then return (.filled (.object fields) (c.advance 1), stack)
    else if next == some ',' then
      let (name, c) ← fieldName halves (c.advance 1).skipBlanks
      return (.value c, .object fields name :: stack)
    else c.fail .noComma

/-- Run the parser. Every stage takes a character, so that the length of the text is fuel enough. -/
def run (halves : Text.Halves) (limit : Option Nat) :
    (fuel : Nat) → Stage → List OpenValue → Reading (Json × Cursor)
  | 0, .value c, _ => c.fail .noValue
  | 0, .filled _ c, _ => c.fail .noComma
  | fuel + 1, .value c, stack => do
    let (stage, stack) ← begin halves c stack
    if limit.any (· < stack.length) then .error .nestedTooDeep
    else run halves limit fuel stage stack
  | _ + 1, .filled v c, [] => .ok (v, c)
  | fuel + 1, .filled v c, top :: stack => do
    let (stage, stack) ← fill halves v c top stack
    run halves limit fuel stage stack

def parse (halves : Text.Halves) (limit : Option Nat) (text : List Char) : Reading Json := do
  let start : Cursor := ⟨0, text⟩
  if text.head? == some (Char.ofNat 0xFEFF) then start.fail .byteOrderMark
  let (v, c) ← run halves limit (text.length + 2) (.value start.skipBlanks) []
  let c := c.skipBlanks
  if c.rest.isEmpty then return v else c.fail .extraData

end LazyLisp.Json
