import LazyLisp.Datum.Literal
import LazyLisp.Token.Lexer

/-!
From tokens to data.

The parser is a machine that takes one token at a time. Its state is the stack of constructs that
are open: quotations that wait for their form, and lists with the items read so far. `feed` is one
move. `parseForm` runs the machine up to the end of one form, `parseForms` over all tokens.
-/

namespace LazyLisp

/-- A construct whose end has not been read. Items are in reverse. -/
inductive OpenForm where
  | quotation (head : String)
  | list (start : Nat) (items : List Datum)
  /-- A list behind its dot, with the tail once it has been read. -/
  | dotted (start : Nat) (items : List Datum) (tail : Option Datum)

namespace OpenForm

def quotationHead? : String → Option String
  | "'" => some "quote"
  | "`" => some "quasiquote"
  | "," => some "unquote"
  | ",@" => some "unquote-splicing"
  | _ => none

end OpenForm

/-- Where a move of the parser leads. -/
inductive Move where
  | complete (datum : Datum)
  | stay (stack : List OpenForm)

namespace Move

/-- Put a finished form into the innermost open construct. A quotation is finished with its form. -/
def fill (d : Datum) : List OpenForm → Move
  | [] => .complete d
  | .quotation head :: stack => fill (Datum.list [.symbol head, d]) stack
  | .list start items :: stack => .stay (.list start (d :: items) :: stack)
  | .dotted start items _ :: stack => .stay (.dotted start items (some d) :: stack)

def begin (stack : List OpenForm) (t : Token) : Except ReadFailure Move :=
  match t.kind with
  | .word =>
    if t.isDot then .error (.error ⟨.unexpectedDot, t.start⟩)
    else match Atom.ofWord t.text.toList with
      | .ok a => .ok (fill (.atom a) stack)
      | .error b => .error (.breakdown b)
  | .quote | .unquote => match OpenForm.quotationHead? t.text with
    | some head => .ok (.stay (.quotation head :: stack))
    | none => .error (.breakdown .unknownQuotation)
  | .leftParen => .ok (.stay (.list t.start [] :: stack))
  | .rightParen => .error (.error ⟨.unexpectedClose, t.start⟩)
  | .char => match Atom.ofCharLiteral t.text.toList with
    | .ok a => .ok (fill (.atom a) stack)
    | .error b => .error (.breakdown b)
  | .string => match Atom.unescape t.text.toList t.start with
    | .ok text => .ok (fill (.atom (.string text)) stack)
    | .error e => .error e
  | .other name => .error (.error ⟨.unknownToken name t.text, t.start⟩)

def feed (stack : List OpenForm) (t : Token) : Except ReadFailure Move :=
  match stack with
  | .dotted _ items (some tail) :: below =>
    if t.kind == .rightParen then .ok (fill (Datum.listWith items.reverse tail) below)
    else .error (.error ⟨.afterDottedTail, t.start⟩)
  | .list start items :: below =>
    if t.kind == .rightParen then .ok (fill (Datum.list items.reverse) below)
    else if t.isDot then
      if items.isEmpty then .error (.error ⟨.leadingDot, t.start⟩)
      else .ok (.stay (.dotted start items none :: below))
    else begin stack t
  | _ => begin stack t

/-- What is missing when the tokens end at `pos`. -/
def missing (stack : List OpenForm) (pos : Nat) : ReadError :=
  match stack with
  | [] => ⟨.endOfInput, pos⟩
  | .quotation _ :: _ | .dotted _ _ none :: _ => ⟨.unexpectedEnd, pos⟩
  | .list start _ :: _ | .dotted start _ (some _) :: _ => ⟨.unmatchedOpen, start⟩

end Move

/-- The outcome of parsing one form, with the end of the last token taken. -/
inductive ParsedForm where
  | form (datum : Datum) (stop : Nat)
  | failed (failure : ReadFailure) (stop : Nat)

/-- Parse one form, `pos` being the end of the last token taken. Where the tokens run out, the
lexer's failure is the reason, if there is one. -/
def parseFormFrom (failure : Option ReadError) (stack : List OpenForm) (pos : Nat) :
    List Token → ParsedForm
  | [] => .failed (.error (failure.getD (Move.missing stack pos))) pos
  | t :: rest =>
    match Move.feed stack t with
    | .ok (.complete d) => .form d t.stop
    | .ok (.stay stack) => parseFormFrom failure stack t.stop rest
    | .error e => .failed e t.stop

def parseForm (lexed : Lexed) : ParsedForm := parseFormFrom lexed.failure [] 0 lexed.tokens

/-- The forms of a token sequence, each with the end of its last token, and what ended them. -/
structure ParsedForms where
  forms : List (Datum × Nat)
  failure : Option ReadFailure
  stop : Nat

/-- Parse form after form; `done` holds the forms parsed so far. -/
def parseFormsFrom (failure : Option ReadError) (done : Array (Datum × Nat))
    (stack : List OpenForm) (pos : Nat) : List Token → ParsedForms
  | [] =>
    let ending := failure <|> if stack.isEmpty then none else some (Move.missing stack pos)
    ⟨done.toList, ending.map .error, pos⟩
  | t :: rest =>
    match Move.feed stack t with
    | .ok (.complete d) => parseFormsFrom failure (done.push (d, t.stop)) [] t.stop rest
    | .ok (.stay stack) => parseFormsFrom failure done stack t.stop rest
    | .error e => ⟨done.toList, some e, t.stop⟩

def parseForms (lexed : Lexed) : ParsedForms := parseFormsFrom lexed.failure #[] [] 0 lexed.tokens

/-- How deep the tokens nest: the most parentheses that are open at once, and the quotation marks
in front of the same form. -/
def nesting (tokens : List Token) : Nat :=
  let step := fun ((depth, marks, most) : Nat × Nat × Nat) (t : Token) =>
    match t.kind with
    | .leftParen => (depth + 1, 0, max most (depth + 1))
    | .rightParen => (depth - 1, 0, most)
    | kind => if kind.isQuotation then (depth, marks + 1, max most (depth + marks + 1))
      else (depth, 0, most)
  (tokens.foldl step (0, 0, 0)).2.2

/-- Whether the tokens up to character `stop` nest deeper than a limit; without one, never. -/
def Lexed.exceeds (lexed : Lexed) (limit : Option Nat) (stop : Nat) : Bool :=
  limit.any fun most => most < nesting (lexed.tokens.takeWhile (·.stop ≤ stop))

def readAll (limit : Option Nat) (text : List Char) : Except ReadFailure (List Datum) :=
  let lexed := lex text
  let parsed := parseForms lexed
  if lexed.exceeds limit parsed.stop then .error (.breakdown .nestedTooDeep)
  else match parsed.failure with
    | some failure => .error failure
    | none => .ok (parsed.forms.map (·.1))

end LazyLisp
