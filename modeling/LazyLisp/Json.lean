import LazyLisp.Decimal.Notation
import LazyLisp.Text.Quoted

/-!
JSON values and their two texts: `render` writes the format itself in plain characters, `describe`
shows a value inside a message. Objects keep their fields in the order of first mention.
-/

namespace LazyLisp

inductive Json where
  | null
  | bool (b : Bool)
  | int (n : Int)
  | float (x : Float)
  | string (s : String)
  | array (items : List Json)
  | object (fields : List (String × Json))
  deriving Inhabited

namespace Json

/-- Put a field into an object: a new name goes last, a known one keeps its place. -/
def setField (name : String) (v : Json) : List (String × Json) → List (String × Json)
  | [] => [(name, v)]
  | (n, w) :: rest => if n == name then (n, v) :: rest else (n, w) :: setField name v rest

def field? (v : Json) (name : String) : Option Json :=
  match v with
  | object fields => fields.lookup name
  | _ => none

/-- A character inside a string. All but plain characters are escaped, beyond the first plane as
two units. -/
def escapeChar (c : Char) : List Char :=
  let n := c.toNat
  if c == '"' || c == '\\' then ['\\', c]
  else if 0x20 ≤ n && n < 0x7F then [c]
  else if c == '\n' then ['\\', 'n']
  else if c == '\r' then ['\\', 'r']
  else if c == '\t' then ['\\', 't']
  else if n == 0x08 then ['\\', 'b']
  else if n == 0x0C then ['\\', 'f']
  else if n < 0x10000 then Text.unitEscape n
  else
    let rest := n - 0x10000
    Text.unitEscape (0xD800 + rest / 0x400) ++ Text.unitEscape (0xDC00 + rest % 0x400)

/-- A character between quotes. What stands for half a pair becomes that half. -/
def escaped (halves : Text.Halves) (c : Char) : List Char :=
  match halves.half? c with
  | some n => Text.unitEscape n
  | none => escapeChar c

def renderString (halves : Text.Halves) (s : String) : String :=
  String.ofList ('"' :: s.toList.flatMap (escaped halves) ++ ['"'])

def renderFloat (x : Float) : String :=
  if x.isNaN then "NaN"
  else if x.isInf then (if x < 0 then "-Infinity" else "Infinity")
  else Decimal.render x

def inBraces (text : String) : String := "\x7b" ++ text ++ "\x7d"

def inBrackets (text : String) : String := "[" ++ text ++ "]"

mutual

def render (halves : Text.Halves) : Json → String
  | null => "null"
  | bool b => if b then "true" else "false"
  | int n => toString n
  | float x => renderFloat x
  | string s => renderString halves s
  | array items => inBrackets (", ".intercalate (renderItems halves items))
  | object fields => inBraces (", ".intercalate (renderFields halves fields))

def renderItems (halves : Text.Halves) : List Json → List String
  | [] => []
  | v :: rest => v.render halves :: renderItems halves rest

def renderFields (halves : Text.Halves) : List (String × Json) → List String
  | [] => []
  | (name, v) :: rest =>
    (renderString halves name ++ ": " ++ v.render halves) :: renderFields halves rest

end

mutual

/-- A value inside another one, as messages show it. -/
def describeInner (halves : Text.Halves) : Json → String
  | null => "None"
  | bool b => if b then "True" else "False"
  | int n => toString n
  | float x => Decimal.render x
  | string s => Text.quoted halves s
  | array items => inBrackets (", ".intercalate (describeItems halves items))
  | object fields => inBraces (", ".intercalate (describeFields halves fields))

def describeItems (halves : Text.Halves) : List Json → List String
  | [] => []
  | v :: rest => v.describeInner halves :: describeItems halves rest

def describeFields (halves : Text.Halves) : List (String × Json) → List String
  | [] => []
  | (name, v) :: rest => (Text.quoted halves name ++ ": " ++ v.describeInner halves) ::
      describeFields halves rest

end

/-- A value as messages show it. A string by itself is shown as it is. -/
def describe (halves : Text.Halves) : Json → String
  | string s => s
  | v => v.describeInner halves

end Json

end LazyLisp
