import LazyLisp.Number
import LazyLisp.Text.Quoted

/-!
Atoms: the values without parts that program text can spell. The empty list is one of them.

An atom is written in three ways: readable, so that the reader gives it back; plain, as `print`
shows it; and in a message, where texts are quoted and symbols and characters are named.
-/

namespace LazyLisp

inductive Atom where
  | nil
  | int (n : Int)
  | float (x : Float)
  | string (text : String)
  | symbol (name : String)
  | char (c : Char)
  deriving Inhabited

namespace Atom

def ofBool (b : Bool) : Atom := symbol (if b then "true" else "false")

def number? : Atom → Option Number
  | int n => some (.int n)
  | float x => some (.float x)
  | _ => none

/-- The false atoms are the empty list, the symbol `false`, the integer zero and the empty text. -/
def isTruthy : Atom → Bool
  | nil => false
  | int n => n != 0
  | string text => text != ""
  | symbol name => name != "false"
  | float _ | char _ => true

/-- Equality of atoms: numbers are compared as numbers, all else within its kind. -/
def sameAs : Atom → Atom → Bool
  | nil, nil => true
  | string a, string b => a == b
  | symbol a, symbol b => a == b
  | char a, char b => a == b
  | a, b => match a.number?, b.number? with
    | some m, some n => m.sameAs n
    | _, _ => false

/-- The names of the characters that cannot be written by themselves. -/
def charNames : List (Char × String) :=
  [(' ', "space"), ('\n', "newline"), ('\t', "tab"), ('\r', "return")]

def charName (c : Char) : String := (charNames.lookup c).getD (String.singleton c)

def escapeChar (c : Char) : List Char :=
  if c == '\\' then ['\\', '\\']
  else if c == '"' then ['\\', '"']
  else if c == '\n' then ['\\', 'n']
  else if c == '\t' then ['\\', 't']
  else if c == '\r' then ['\\', 'r']
  else [c]

/-- A text between double quotes, as the reader takes it. -/
def readableText (text : String) : String :=
  String.ofList ('"' :: text.toList.flatMap escapeChar ++ ['"'])

def write (readable : Bool) : Atom → String
  | nil => "()"
  | int n => toString n
  | float x => Decimal.render x
  | symbol name => name
  | string text => if readable then readableText text else text
  | char c => if readable then "#\\" ++ charName c else String.singleton c

def inMessage (halves : Text.Halves) : Atom → String
  | nil => "()"
  | int n => toString n
  | float x => Decimal.render x
  | string text => Text.quoted halves text
  | symbol name => "Symbol(" ++ Text.quoted halves name ++ ")"
  | char c => "Char(" ++ Text.quoted halves (String.singleton c) ++ ")"

/-- Every atom has a written form but an integer with too many digits. -/
def hasText : Atom → Bool
  | int n => LazyLisp.hasText n
  | _ => true

end Atom

end LazyLisp
