import LazyLisp.Input
import LazyLisp.Store.Fault
import LazyLisp.Store.Procedure

/-!
The store: all that a program can change or share, and all that it has written.

Frames, lazy pairs, procedures, errors and inputs are numbered in the order of their creation, and
nothing is ever removed. Frame 0 is the global one.
-/

namespace LazyLisp

/-- One half of a lazy pair: an expression that waits to be evaluated, or its value. -/
inductive Slot where
  | pending (expr : Value) (frame : FrameId)
  | ready (v : Value)

namespace Slot

def isReady : Slot → Bool
  | pending _ _ => false
  | ready _ => true

def value? : Slot → Option Value
  | pending _ _ => none
  | ready v => some v

end Slot

inductive Side where
  | car | cdr
  deriving DecidableEq

structure LazyPair where
  car : Slot
  cdr : Slot

namespace LazyPair

def slot (p : LazyPair) : Side → Slot
  | .car => p.car
  | .cdr => p.cdr

def settle (p : LazyPair) (v : Value) : Side → LazyPair
  | .car => { p with car := .ready v }
  | .cdr => { p with cdr := .ready v }

end LazyPair

structure Store where
  frames : Array Frame
  lazyPairs : Array LazyPair
  procedures : Array Procedure
  errors : Array Fault
  inputs : Array Input
  /-- The next mark for a pair or a result that is no number. -/
  nextMark : Nat
  /-- The number of the next generated symbol. -/
  nextSymbol : Nat
  /-- What the program has written to its output. -/
  out : String
  /-- What was written to the log and to the error output. -/
  err : String

namespace Store

def empty : Store where
  frames := #[.empty none]
  lazyPairs := #[]
  procedures := #[]
  errors := #[]
  inputs := #[]
  nextMark := 0
  nextSymbol := 1
  out := ""
  err := ""

def globalFrame : FrameId := 0

/-- An error followed by the errors it was raised from. A cause is always older. -/
def causes (s : Store) (i : Nat) : List Fault :=
  match s.errors[i]? with
  | none => []
  | some f => f :: match f.cause with
    | some c => if _h : c < i then causes s c else []
    | none => []
termination_by i

/-- A fault followed by the errors it was raised from. -/
def chain (s : Store) (f : Fault) : List Fault :=
  f :: match f.cause with
    | some c => s.causes c
    | none => []

end Store

end LazyLisp
