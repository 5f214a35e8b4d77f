import LazyLisp.Text.Quoted

/-!
Text from bytes. Decoding stops at the first sequence of bytes that is no character and says which
bytes are at fault and why.
-/

namespace LazyLisp.Text

inductive Utf8Issue where
  | invalidStart
  | invalidContinuation
  | unexpectedEnd
  deriving Repr, DecidableEq

/-- The bytes from `start` on, `length` of them, that are no character; `first` is the first. -/
structure Utf8Error where
  issue : Utf8Issue
  start : Nat
  length : Nat
  first : UInt8
  deriving Repr, DecidableEq

namespace Utf8Error

def reason : Utf8Issue → String
  | .invalidStart => "invalid start byte"
  | .invalidContinuation => "invalid continuation byte"
  | .unexpectedEnd => "unexpected end of data"

def message (e : Utf8Error) : String :=
  let place :=
    if e.length = 1 then
      "byte 0x" ++ String.ofList (hex 2 e.first.toNat) ++ " in position " ++ toString e.start
    else "bytes in position " ++ toString e.start ++ "-" ++ toString (e.start + e.length - 1)
  "'utf-8' codec can't decode " ++ place ++ ": " ++ reason e.issue

end Utf8Error

def isContinuation (b : UInt8) : Bool := 0x80 ≤ b && b < 0xC0

/-- The number of continuation bytes that a first byte asks for. -/
def continuations? (b : UInt8) : Option Nat :=
  if b < 0x80 then some 0
  else if b < 0xC2 then none
  else if b < 0xE0 then some 1
  else if b < 0xF0 then some 2
  else if b < 0xF5 then some 3
  else none

/-- Whether the second byte fits the first: the shortest form only, no surrogates, and nothing
beyond the last code point. -/
def fitsSecond (first second : UInt8) : Bool :=
  isContinuation second &&
    (first != 0xE0 || 0xA0 ≤ second) && (first != 0xED || second < 0xA0) &&
    (first != 0xF0 || 0x90 ≤ second) && (first != 0xF4 || second < 0x90)

/-- How many of the bytes behind `first` continue it, at most `count`. -/
def fitting (first : UInt8) (count : Nat) (rest : List UInt8) : Nat :=
  match count, rest with
  | 0, _ | _, [] => 0
  | count + 1, second :: rest =>
    if fitsSecond first second then 1 + ((rest.take count).takeWhile isContinuation).length else 0

/-- The code point that a first byte with `count` bytes behind it spells. -/
def codePoint (first : UInt8) (count : Nat) (rest : List UInt8) : Nat :=
  let lead := if count = 0 then first.toNat else first.toNat % Nat.pow 2 (6 - count)
  (rest.take count).foldl (fun n b => n * 64 + b.toNat % 64) lead

/-- Decode bytes of which the first has number `pos`; `soFar` holds the text in front, reversed. -/
def decodeFrom (soFar : List Char) (pos : Nat) (bytes : List UInt8) :
    Except Utf8Error (List Char) :=
  match bytes with
  | [] => .ok soFar.reverse
  | first :: rest =>
    match continuations? first with
    | none => .error ⟨.invalidStart, pos, 1, first⟩
    | some count =>
      let good := fitting first count rest
      if good = count then
        decodeFrom (Char.ofNat (codePoint first count rest) :: soFar) (pos + 1 + count)
          (rest.drop count)
      else if good = rest.length then .error ⟨.unexpectedEnd, pos, 1 + good, first⟩
      else .error ⟨.invalidContinuation, pos, 1 + good, first⟩
termination_by bytes.length
decreasing_by simp only [List.length_cons, List.length_drop]; omega

def decode (bytes : List UInt8) : Except Utf8Error (List Char) := decodeFrom [] 0 bytes

/-- Carriage returns, alone or in front of a newline, become newlines; `soFar` holds the text in
front, reversed. -/
def unifyNewlinesFrom (soFar : List Char) : List Char → List Char
  | '\r' :: '\n' :: rest => unifyNewlinesFrom ('\n' :: soFar) rest
  | '\r' :: rest => unifyNewlinesFrom ('\n' :: soFar) rest
  | c :: rest => unifyNewlinesFrom (c :: soFar) rest
  | [] => soFar.reverse

/-- A text with newlines as its only line ends of that kind. -/
def unifyNewlines (text : List Char) : List Char := unifyNewlinesFrom [] text

end LazyLisp.Text
