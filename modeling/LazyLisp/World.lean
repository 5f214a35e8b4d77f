import LazyLisp.Disk
import LazyLisp.Text.Half

/-!
What surrounds a program and does not change while it runs: the files it can load, how much of an
unwinding fault is kept, how deep it may nest, what goes to the log, and which texts can be written.
-/

namespace LazyLisp

inductive LogLevel where
  | debug | info | warning | error | critical
  deriving Repr, DecidableEq

namespace LogLevel

def name : LogLevel → String
  | debug => "DEBUG"
  | info => "INFO"
  | warning => "WARNING"
  | error => "ERROR"
  | critical => "CRITICAL"

def rank : LogLevel → Nat
  | debug => 10
  | info => 20
  | warning => 30
  | error => 40
  | critical => 50

def all : List LogLevel := [debug, info, warning, error, critical]

/-- The least rank that is logged when a level with this name is set. Three levels have second
names, and one more name lets everything through. -/
def threshold? (name : String) : Option Nat :=
  match name with
  | "NOTSET" => some 0
  | "WARN" => some warning.rank
  | "FATAL" => some critical.rank
  | _ => (all.find? (·.name == name)).map rank

end LogLevel

/-- Which messages are logged, and whether level and origin stand in front of them. -/
structure Logging where
  threshold : Nat
  labelled : Bool

namespace Logging

def standard : Logging := ⟨LogLevel.warning.rank, false⟩

def enabled (l : Logging) (level : LogLevel) : Bool := l.threshold ≤ level.rank

def line (l : Logging) (level : LogLevel) (origin message : String) : String :=
  if l.labelled then level.name ++ " " ++ origin ++ ": " ++ message ++ "\n" else message ++ "\n"

end Logging

structure World where
  disk : Disk
  /-- The directories in which files are looked for. -/
  searchPath : List Path
  /-- The most forms that the trace of a fault holds. -/
  traceLimit : Int
  /-- How deep evaluation, data and program text may nest; without a limit if none. -/
  room : Option Nat
  logging : Logging
  /-- The characters that the standard output has a code for. -/
  encodes : Char → Bool := fun _ => true
  /-- The characters that stand for halves of pairs. -/
  halves : Text.Halves := .last

def World.takes (w : World) (text : String) : Bool := text.toList.all w.encodes

end LazyLisp
