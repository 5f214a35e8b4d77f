import LazyLisp.Datum.Parser
import LazyLisp.Primitive
import LazyLisp.Text.Position

/-!
Outlines: what a program text defines, found without evaluating it.

The search goes over the tokens and looks for the beginnings of definitions, at any depth, so that
unfinished text has an outline too. Whether the text can be read is asked of the reader.
-/

namespace LazyLisp

inductive DefinitionKind where
  | value
  | function
  | expander
  deriving Repr, DecidableEq

def DefinitionKind.name : DefinitionKind → String
  | value => "var"
  | function => "function"
  | expander => "macro"

/-- The number of a kind among the symbol kinds of the editor protocol. -/
def DefinitionKind.symbolCode : DefinitionKind → Nat
  | value => 13
  | function => 12
  | expander => 25

structure Definition where
  name : String
  kind : DefinitionKind
  place : Position
  doc : Option String
  deriving Repr, DecidableEq

/-- What is wrong with a text, and where. -/
structure Problem where
  message : String
  place : Position
  deriving Repr, DecidableEq

/-- The definitions of a text in the order in which their names first occur, each as it was made
last, and what the reader objects to. -/
structure Outline where
  definitions : List Definition
  problems : List Problem
  deriving Repr, DecidableEq

namespace Outline

/-- The tokens behind the parenthesis that closes a list with `depth` lists open. -/
def skipList (depth : Nat) : List Token → List Token
  | [] => []
  | t :: rest =>
    match t.kind with
    | .leftParen => skipList (depth + 1) rest
    | .rightParen => if depth ≤ 1 then rest else skipList (depth - 1) rest
    | _ => skipList depth rest

def skipForm (tokens : List Token) : List Token :=
  match tokens.dropWhile (·.kind.isQuotation) with
  | [] => []
  | t :: rest => if t.kind == .leftParen then skipList 1 rest else rest

/-- The documentation at the start of a body: a text with something behind it. -/
def docAt : List Token → Option String
  | t :: next :: _ =>
    if t.kind == .string && next.kind != .rightParen then
      (Atom.unescape t.text.toList t.start).toOption
    else none
  | _ => none

/-- Kind and documentation of a variable, given the tokens behind its name. -/
def valueDoc : List Token → DefinitionKind × Option String
  | t :: head :: body =>
    if t.kind != .leftParen then (.value, none)
    else if head.text == "lambda" then (.function, docAt (skipForm body))
    else if head.text == "case-lambda" then (.function, docAt body)
    else (.value, none)
  | _ => (.value, none)

/-- A name that is defined, its kind and its documentation. -/
structure Finding where
  token : Token
  kind : DefinitionKind
  doc : Option String

/-- What a definition with the given head defines, seen from the tokens behind the head. -/
def target? (head : String) : List Token → Option Finding
  | t :: rest =>
    match t.kind with
    | .leftParen => match rest with
      | name :: _ =>
        if name.kind == .word then
          some ⟨name, if head == "define-macro" then .expander else .function,
            docAt (skipForm (t :: rest))⟩
        else none
      | [] => none
    | .word =>
      let (kind, doc) := valueDoc rest
      some ⟨t, kind, doc⟩
    | _ => none
  | [] => none

def startsDefinition (t head : Token) : Bool :=
  t.kind == .leftParen && head.kind == .word &&
    (head.text == "define" || head.text == "define-macro")

def findings : List Token → List Finding
  | t :: head :: rest =>
    if startsDefinition t head then (target? head.text rest).toList ++ findings rest
    else findings (head :: rest)
  | _ => []

/-- Enter a definition: a new name goes last, a known one keeps its place. -/
def enter (d : Definition) : List Definition → List Definition
  | [] => [d]
  | e :: rest => if e.name == d.name then d :: rest else e :: enter d rest

def problemsOf (limit : Option Nat) (text : List Char) : Except Breakdown (List Problem) :=
  match readAll limit text with
  | .ok _ => .ok []
  | .error (.error e) => .ok [⟨e.issue.message, .ofOffset text e.offset⟩]
  | .error (.breakdown b) => .error b

def definitionsOf (text : List Char) : List Definition :=
  (findings (lex text).tokens).foldl (fun entered f =>
    enter ⟨f.token.text, f.kind, .ofOffset text f.token.start, f.doc⟩ entered) []

def ofText (limit : Option Nat) (text : List Char) : Except Breakdown Outline := do
  return ⟨definitionsOf text, ← problemsOf limit text⟩

def find? (o : Outline) (name : String) : Option Definition :=
  o.definitions.find? (·.name == name)

/-- What an editor shows about a word: its definition in the text, or the primitive it names. -/
def hover (o : Outline) (word : String) : Option String :=
  match o.find? word with
  | some d =>
    let place := toString (d.place.line + 1) ++ ":" ++ toString (d.place.column + 1)
    let doc := match d.doc with
      | none | some "" => ""
      | some doc => "\n\n" ++ doc
    some (word ++ ": " ++ d.kind.name ++ " (defined at " ++ place ++ ")" ++ doc)
  | none => (Primitive.ofName? word).map fun p => word ++ ": builtin\n\n" ++ p.summary

end Outline

end LazyLisp
