import LazyLisp.Store.Report
import LazyLisp.World

/-!
Computations on the store.

A computation ends with a result or is interrupted; either way it leaves a store. Faults are the
only interruptions that collect a trace and become error values.
-/

namespace LazyLisp

/-- Why a computation has no result. -/
inductive Interrupt where
  | fault (f : Fault)
  /-- Evaluation or data nest too deep. -/
  | overflow
  | breakdown (b : Breakdown)
  /-- The steps that were granted are used up. -/
  | outOfFuel
  /-- A value refers to something that the store does not hold. No program makes such a value. -/
  | dangling

abbrev Run := EStateM Interrupt Store

namespace Run

def fail {α : Type} (kind message : String) : Run α := throw (.fault (.ofMessage kind message))

def ofWritten {α : Type} : Except WriteFailure α → Run α
  | .ok text => pure text
  | .error .tooDeep => throw .overflow
  | .error .tooManyDigits => throw (.breakdown .tooManyDigits)
  | .error .endless => throw .outOfFuel

/-- What the system says, unless it refuses to say it. -/
def ofSystem {α : Type} : Except Breakdown α → Run α
  | .ok a => pure a
  | .error b => throw (.breakdown b)

def held {α : Type} (found : Option α) : Run α :=
  match found with
  | some a => pure a
  | none => throw .dangling

def freshMark : Run Nat :=
  modifyGet fun s => (s.nextMark, { s with nextMark := s.nextMark + 1 })

def cons (car cdr : Value) : Run Value := return .pair (← freshMark) car cdr

/-- A new list of the items, given in reverse, in front of a tail. -/
def listReversed (items : List Value) (tail : Value) : Run Value :=
  modifyGet fun s =>
    let (v, mark) := Value.consReversed s.nextMark tail items
    (v, { s with nextMark := mark })

def listWith (items : List Value) (tail : Value) : Run Value := listReversed items.reverse tail

def list (items : List Value) : Run Value := listWith items .nil

def ofDatum (d : Datum) : Run Value :=
  modifyGet fun s =>
    let (v, mark) := Value.ofDatum s.nextMark d
    (v, { s with nextMark := mark })

/-- A number as a value. One that is no number is a new object. -/
def ofNumber : Number → Run Value
  | .int n => return .atom (.int n)
  | .float x => if x.isNaN then return .nan (← freshMark) else return .atom (.float x)

def newFrame (outer : FrameId) : Run FrameId :=
  modifyGet fun s => (s.frames.size, { s with frames := s.frames.push (.empty (some outer)) })

def define (frame : FrameId) (name : String) (v : Value) : Run Unit :=
  modify fun s => { s with frames := s.frames.modify frame (·.define name v) }

def find? (frame : FrameId) (name : String) : Run (Option (FrameId × Value)) :=
  return Frame.find? (← get).frames name frame

def lookup (frame : FrameId) (name : String) : Run Value := do
  match ← find? frame name with
  | some (_, v) => return v
  | none => fail Fault.Kind.unboundSymbol ("symbol '" ++ name ++ " is not bound")

/-- Rebind a name where it is bound and return the old value. -/
def assign (frame : FrameId) (name : String) (v : Value) : Run Value := do
  match ← find? frame name with
  | some (owner, old) =>
    define owner name v
    return old
  | none => fail Fault.Kind.unboundSymbol ("cannot set! unbound symbol " ++ name)

def topLevel (frame : FrameId) : Run FrameId := return Frame.topLevel (← get).frames frame

def newProcedure (p : Procedure) : Run Value :=
  modifyGet fun s => (.procedure s.procedures.size, { s with procedures := s.procedures.push p })

def procedure (ref : Nat) : Run Procedure := do held (← get).procedures[ref]?

def nameProcedure (ref : Nat) (name : String) : Run Unit :=
  modify fun s => { s with procedures := s.procedures.modify ref (·.named name) }

def newLazyPair (p : LazyPair) : Run Value :=
  modifyGet fun s => (.lazyPair s.lazyPairs.size, { s with lazyPairs := s.lazyPairs.push p })

def lazyPair (ref : Nat) : Run LazyPair := do held (← get).lazyPairs[ref]?

def settle (ref : Nat) (side : Side) (v : Value) : Run Unit :=
  modify fun s => { s with lazyPairs := s.lazyPairs.modify ref (·.settle v side) }

def newError (f : Fault) : Run Nat :=
  modifyGet fun s => (s.errors.size, { s with errors := s.errors.push f })

def errorFault (ref : Nat) : Run Fault := do held (← get).errors[ref]?

def leaveForm (ref : Nat) (form : Value) (name : Option String) (limit : Int) : Run Unit :=
  modify fun s => { s with errors := s.errors.modify ref (·.leave form name limit) }

def newInput (p : Input) : Run Value :=
  modifyGet fun s => (.input s.inputs.size, { s with inputs := s.inputs.push p })

def emit (text : String) : Run Unit := modify fun s => { s with out := s.out ++ text }

/-- Write to the standard output, which takes a text as a whole or not at all. -/
def write (w : World) (text : String) : Run Unit :=
  if w.takes text then emit text else throw (.breakdown .unencodable)

/-- Write a text, and after it the end of its line. -/
def writeLine (w : World) (text : String) : Run Unit := do
  write w text
  write w "\n"

def emitError (text : String) : Run Unit := modify fun s => { s with err := s.err ++ text }

/-- Write to the log. The message is not put together unless it is logged. -/
def log (l : Logging) (level : LogLevel) (origin : String) (message : Unit → String) : Run Unit :=
  if l.enabled level then emitError (l.line level origin (message ())) else pure ()

/-- A new symbol: the given start of a name and a number that no other has. -/
def gensym (start : String) : Run Value :=
  modifyGet fun s =>
    (.symbol (start ++ toString s.nextSymbol), { s with nextSymbol := s.nextSymbol + 1 })

def catchFault {α : Type} (x : Run α) (handle : Fault → Run α) : Run α := fun s =>
  match x s with
  | .error (.fault f) s => handle f s
  | result => result

end Run

end LazyLisp
