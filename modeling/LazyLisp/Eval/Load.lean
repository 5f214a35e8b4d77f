import LazyLisp.Eval.Engine

/-!
Reading and loading. Reading a form gives a new value and moves the input on. Loading a file
evaluates its forms in order at top level; the first failure, of reading or of evaluation, ends it.
-/

namespace LazyLisp

namespace Run

/-- A failure of reading. Text that nests too deep counts as running out of room. -/
def readFailure {α : Type} : ReadFailure → Run α
  | .error e => throw (.fault (.ofReadError e))
  | .breakdown .nestedTooDeep => throw .overflow
  | .breakdown b => throw (.breakdown b)

def readInput (room : Option Nat) (ref : Nat) : Run Value := do
  let input ← held (← get).inputs[ref]?
  let (outcome, input) := input.read room
  modify fun s => { s with inputs := s.inputs.setIfInBounds ref input }
  match outcome with
  | .ok d => ofDatum d
  | .error failure => readFailure failure

/-- Evaluate the forms of an input in order, and return the value of the last one and their
number. -/
def evalForms (room : Option Nat) (eval : Value → Run Value) (input : Input) :
    Run (Value × Nat) := do
  let (forms, failure) := input.forms room
  let mut result := Value.nil
  for d in forms do
    result ← eval (← ofDatum d)
  match failure with
  | some failure => readFailure failure
  | none => return (result, forms.length)

end Run

namespace Load

/-- Where the log says that a loaded file comes from. -/
def origin : String := "sloth.modules.loader"

/-- Evaluate the forms of a text of the given name at the top level around `frame`. -/
def text (w : World) (room : Option Nat) (eval : Value → FrameId → Run Value) (name : String)
    (text : List Char) (frame : FrameId) : Run Value := do
  Run.log w.logging .debug origin fun _ => "loading " ++ name
  let top ← Run.topLevel frame
  let (result, count) ← Run.evalForms room (eval · top) (.ofText name text)
  Run.log w.logging .debug origin fun _ =>
    "loaded " ++ name ++ ": " ++ toString count ++ " form(s)"
  return result

/-- Evaluate the forms of a file at the top level around `frame`. `shown` is the path as messages
show it. -/
def file (w : World) (room : Option Nat) (eval : Value → FrameId → Run Value) (path : Path)
    (shown : String) (frame : FrameId) : Run Value := do
  match ← Run.ofSystem (w.disk.resolve w.searchPath path) with
  | none => Run.fail Fault.Kind.ioError ("cannot open file: " ++ shown)
  | some (_, .error reason) =>
    Run.fail Fault.Kind.ioError ("cannot read file " ++ shown ++ ": " ++ reason)
  | some (found, .ok bytes) =>
    let contents ← Run.ofSystem (Disk.textOf bytes)
    Load.text w room eval found.toString contents frame

end Load

end LazyLisp
