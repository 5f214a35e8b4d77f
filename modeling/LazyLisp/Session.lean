import LazyLisp.Eval.Evaluate
import LazyLisp.Prelude
import LazyLisp.Settings

/-!
Sessions: a global frame with the primitives and the prelude in it, and program text evaluated in it
piece after piece. Whatever a piece did before it failed stays done.
-/

namespace LazyLisp

/-- What a session starts with besides the primitives. -/
inductive PreludeChoice where
  /-- The prelude that the settings name. -/
  | settled
  | none
  | text (source : String)

/-- A prelude given as text; one word stands for the prelude of the settings. -/
def PreludeChoice.ofText (source : String) : PreludeChoice :=
  if source == "auto" then .settled else .text source

namespace Session

def ampleFuel : Nat := 1000000000000000000

def room : Nat := 4000

/-- Where the log says that the messages of sessions come from. -/
def origin : String := "sloth.interpreter"

/-- The surroundings that the settings ask for. A trace limit that is no integer is taken for the
usual one. -/
def world (settings : Settings) (disk : Disk) (logging : Logging) : World where
  disk
  searchPath := settings.searchPath
  traceLimit := settings.traceLimit.toOption.getD 64
  room := some room
  logging

/-- The fault that stands for running out of room. -/
def recursionFault (message : String) (source : Option Value) : Fault :=
  { Fault.ofMessage Fault.Kind.recursionError message with source }

def catchOverflow (x : Run Value) (fault : Fault) : Run Value := fun s =>
  match x s with
  | .error .overflow s => .error (.fault fault) s
  | result => result

/-- Evaluate the forms of a text in order, given how one is evaluated, and return the value of the
last one. -/
def evalWith (w : World) (evaluate : Value → FrameId → Option String → Run Value)
    (code : String) : Run Value := do
  let evalForm (form : Value) : Run Value :=
    catchOverflow (evaluate form Store.globalFrame none)
      (recursionFault "maximum recursion depth exceeded" (some form))
  let (result, _) ← Run.evalForms w.room evalForm (.ofText "<string>" code.toList)
  return result

def eval (w : World) (fuel : Nat) (code : String) : Run Value :=
  evalWith w (evaluate w fuel w.room) code

def evalIn (w : World) (fuel : Nat) (form : Value) (frame : FrameId) : Run Value :=
  evaluate w fuel w.room form frame none

/-- Load a file; `shown` is the path as messages show it. -/
def load (w : World) (fuel : Nat) (path : Path) (shown : String) : Run Value :=
  catchOverflow (Load.file w w.room (evalIn w fuel) path shown Store.globalFrame)
    (recursionFault ("maximum recursion depth exceeded loading " ++ shown) none)

/-- Evaluate the forms of a text for what they define. -/
def evalPrelude (w : World) (fuel : Nat) (code : String) : Run Unit := do
  let _ ← Run.evalForms w.room (evalIn w fuel · Store.globalFrame) (.ofText "<prelude>" code.toList)

/-- Bind the primitives, the constants and the standard input in the global frame. -/
def bindPrimitives (input : String) : Run Unit := do
  let define := Run.define Store.globalFrame
  for p in Primitive.all do
    define p.name (← Run.newProcedure (.primitive p))
  define "true" (.ofBool true)
  define "false" (.ofBool false)
  define "nil" .nil
  define standardInput (← Run.newInput (.ofLines "<stdin>" (Text.splitNewlines input.toList)))

/-- Load the prelude that the settings name. One that does not exist is only worth a warning. -/
def loadPrelude (w : World) (fuel : Nat) (settings : Settings) : Run Unit := do
  match ← Run.ofSystem (settings.preludePlace w.disk) with
  | .standard =>
    let _ ← Load.text w w.room (evalIn w fuel) Prelude.name Prelude.source.toList
      Store.globalFrame
  | .directory root =>
    let path := root.join (.ofString Prelude.name)
    if ← Run.ofSystem (w.disk.isPresent path) then
      let _ ← Load.file w w.room (evalIn w fuel) path path.toString Store.globalFrame
    else
      Run.log w.logging .warning origin fun _ => "prelude not found: " ++ path.toString

def start (w : World) (fuel : Nat) (settings : Settings) (prelude : PreludeChoice)
    (input : String) : Run Unit := do
  bindPrimitives input
  match prelude with
  | .settled => loadPrelude w fuel settings
  | .none => pure ()
  | .text source => evalPrelude w fuel source

end Session

end LazyLisp
