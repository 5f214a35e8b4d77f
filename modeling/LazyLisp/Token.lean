/-!
Tokens: the words of program text with their places in it, counted in characters.
-/

namespace LazyLisp

namespace Token

inductive Kind where
  | quote
  | unquote
  | leftParen
  | rightParen
  | string
  | char
  | word
  /-- A kind of token that the reader does not know. -/
  | other (name : String)
  deriving Repr, DecidableEq

def Kind.name : Kind → String
  | quote => "quote"
  | unquote => "unquote"
  | leftParen => "lparen"
  | rightParen => "rparen"
  | string => "string"
  | char => "char"
  | word => "symbol"
  | other name => name

def Kind.known : List Kind := [quote, unquote, leftParen, rightParen, string, char, word]

def Kind.ofName (name : String) : Kind :=
  (Kind.known.find? (·.name == name)).getD (.other name)

/-- A mark in front of a form that quotes or unquotes it. -/
def Kind.isQuotation : Kind → Bool
  | quote | unquote => true
  | _ => false

end Token

structure Token where
  kind : Token.Kind
  text : String
  start : Nat
  stop : Nat
  deriving Repr, DecidableEq

namespace Token

def isDot (t : Token) : Bool := t.kind == .word && t.text == "."

end Token

end LazyLisp
