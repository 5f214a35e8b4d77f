import LazyLisp.CommandLine.Arguments
import LazyLisp.Session

/-!
The command line: files are loaded in order, then expressions are evaluated and their values
printed. The dialogue with the user runs if it is asked for, or if there is nothing else to do. The
first fault is reported and ends the run.
-/

namespace LazyLisp

namespace CommandLine

/-- Where the log says that the messages of the command line come from. -/
def origin : String := "sloth.repl"

def dialogue : String := "(repl)"

/-- The largest recursion limit that can be set. -/
def maxRecursionLimit : Int := 2147483647

inductive Outcome where
  /-- Nothing was run. -/
  | exited (code : Nat) (out : String)
  | finished (code : Nat) (store : Store)
  | interrupted (reason : Interrupt) (store : Store)

/-- The logging that command line and settings ask for. -/
def loggingOf (inv : Invocation) (settings : Settings) : Except Breakdown Logging :=
  match LogLevel.threshold? (inv.logLevel.getD settings.logLevel) with
  | some threshold => .ok ⟨threshold, true⟩
  | none => .error .unknownLogLevel

/-- The recursion limit has to be an integer of ordinary size; how deep programs may nest does not
depend on it. -/
def checkRecursionLimit (settings : Settings) : Except Breakdown Unit := do
  if maxRecursionLimit < (← settings.recursionLimit) then .error .settingTooLarge

/-- Do something and report its fault, if there is one. Whether there was none is the result. -/
def reporting (w : World) (x : Run Unit) (preface : Run Unit) : Run Bool :=
  Run.catchFault (do x; return true) fun f => do
    preface
    Run.emitError ((← Run.ofWritten ((← get).report w.room f)) ++ "\n")
    return false

def loadFile (w : World) (fuel : Nat) (file : String) : Run Unit := do
  let path := Path.ofString file
  let _ ← Session.load w fuel path path.toString

def printValue (w : World) (fuel : Nat) (code : String) : Run Unit := do
  let v ← Session.eval w fuel code
  Run.writeLine w (← Run.ofWritten ((← get).readable w.room v))

def wantsDialogue (inv : Invocation) : Bool :=
  inv.interactive || (inv.files.isEmpty && inv.exprs.isEmpty)

/-- Carry out an invocation; the result is the code to exit with. -/
def run (w : World) (fuel : Nat) (settings : Settings) (input : String) (inv : Invocation) :
    Run Nat := do
  let prelude := if inv.bare then .none else .settled
  let started ← reporting w (Session.start w fuel settings prelude input)
    (Run.log w.logging .error origin fun _ => "prelude failed to load")
  if !started then return 1
  if !(← inv.files.allM fun file => reporting w (loadFile w fuel file) (pure ())) then return 1
  if !(← inv.exprs.allM fun code => reporting w (printValue w fuel code) (pure ())) then return 1
  if !wantsDialogue inv then return 0
  if inv.bare then
    Run.emitError "sloth: the REPL is defined in the prelude; drop --no-prelude\n"
    return 2
  let calm ← reporting w (do let _ ← Session.eval w fuel dialogue) (pure ())
  return if calm then 0 else 1

def execute (settings : Settings) (disk : Disk) (input : String) (fuel : Nat) (args : List String) :
    Outcome :=
  match Invocation.parse args with
  | .error exit => .exited exit.code exit.text
  | .ok inv =>
    match (do
      let logging ← loggingOf inv settings
      checkRecursionLimit settings
      return logging : Except Breakdown Logging) with
    | .error b => .interrupted (.breakdown b) .empty
    | .ok logging =>
      match run (Session.world settings disk logging) fuel settings input inv .empty with
      | .ok code s => .finished code s
      | .error reason s => .interrupted reason s

end CommandLine

end LazyLisp
