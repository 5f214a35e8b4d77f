import LazyLisp.Datum
import LazyLisp.ReadError

/-!
What single tokens denote: words are numbers or symbols, string literals have escapes, and
character literals spell a character or its name.
-/

namespace LazyLisp

namespace Atom

/-- Whether a word that is no integer may still be a number: it starts with a digit, or with a
sign or point in front of a digit or point. -/
def startsNumeral : List Char → Bool
  | c :: rest =>
    Text.isDigit c || ((c == '+' || c == '-' || c == '.') &&
      rest.head?.any fun d => Text.isDigit d || d == '.')
  | [] => false

/-- The integer that a word denotes: an optional sign and digits. -/
def integer? (word : List Char) : Option (Bool × List Char) :=
  let (negative, digits) := Decimal.splitSign word
  if !digits.isEmpty && digits.all Text.isDigit then some (negative, digits) else none

/-- What a word denotes: an integer, another number, or the symbol of that name. -/
def ofWord (word : List Char) : Except Breakdown Atom :=
  match integer? word with
  | some (negative, digits) =>
    if maxDigits < digits.length then .error .tooManyDigits
    else
      let n : Int := Text.digitsValue digits
      .ok (int (if negative then -n else n))
  | none =>
    if word.isEmpty then .error .emptyWord
    else match if startsNumeral word then Decimal.read? word else none with
      | some x => .ok (float x)
      | none => .ok (symbol (String.ofList word))

def stringEscapes : List (Char × Char) :=
  [('n', '\n'), ('t', '\t'), ('r', '\r'), ('0', '\x00'), ('\\', '\\'), ('"', '"')]

/-- Decode the body of a string literal. The body stands at `pos`, and `soFar` holds the decoded
characters in reverse. -/
def unescapeFrom (soFar : List Char) (pos : Nat) : List Char → Except ReadFailure (List Char)
  | [] => .ok soFar.reverse
  | ['\\'] => .error (.breakdown .danglingEscape)
  | '\\' :: c :: rest =>
    match stringEscapes.lookup c with
    | some d => unescapeFrom (d :: soFar) (pos + 2) rest
    | none => .error (.error ⟨.unknownEscape c, pos + 1⟩)
  | c :: rest => unescapeFrom (c :: soFar) (pos + 1) rest

/-- The text of a string literal that stands at `offset`, quotes included. -/
def unescape (literal : List Char) (offset : Nat) : Except ReadFailure String :=
  String.ofList <$> unescapeFrom [] offset (literal.drop 1).dropLast

/-- The character of a literal: what follows its two-character mark is the character itself or a
name. -/
def ofCharLiteral (literal : List Char) : Except Breakdown Atom :=
  match literal.drop 2 with
  | [c] => .ok (char c)
  | name => match charNames.find? (·.2 == String.ofList name) with
    | some (c, _) => .ok (char c)
    | none => .error .unknownCharName

end Atom

end LazyLisp
