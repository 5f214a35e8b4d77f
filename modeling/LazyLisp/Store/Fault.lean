import LazyLisp.ReadError
import LazyLisp.Value

/-!
Faults: failures of the program that is run. A fault has a kind, which is a symbol, and a value.
While it travels outward it collects the forms it leaves; caught, it becomes an error value.
-/

namespace LazyLisp

namespace Fault.Kind

def readError : String := "read-error"
def endOfInput : String := "eof"
def unboundSymbol : String := "unbound-symbol"
def notApplicable : String := "not-applicable"
def arityError : String := "arity-error"
def malformedForm : String := "malformed-form"
def typeError : String := "type-error"
def arithmeticError : String := "arithmetic-error"
def expansionError : String := "macro-expansion-error"
def ioError : String := "io-error"
def recursionError : String := "recursion-error"

end Fault.Kind

/-- A form that a fault has left, and the procedure whose body it is, if any. -/
structure TraceEntry where
  form : Value
  name : Option String

structure Fault where
  kind : String
  value : Option Value
  /-- Kind and value in one line, as they were when the fault was raised. -/
  summary : String
  /-- The innermost form that the fault has left. -/
  source : Option Value := none
  /-- The forms left, innermost first. -/
  trace : Array TraceEntry := #[]
  /-- How many forms were left beyond those in the trace. -/
  elided : Nat := 0
  /-- The error value that the fault was raised from. -/
  cause : Option Nat := none
  /-- Where in the text the issue is, if the fault comes from reading. -/
  offset : Option Nat := none

namespace Fault

def ofMessage (kind message : String) : Fault :=
  { kind, value := some (.string message), summary := kind ++ ": " ++ message }

def ofReadError (e : ReadError) : Fault :=
  let kind := if e.issue == .endOfInput then Kind.endOfInput else Kind.readError
  { ofMessage kind e.issue.message with offset := some e.offset }

/-- Note that the fault leaves a form. Beyond `limit` forms they are only counted. -/
def leave (f : Fault) (form : Value) (name : Option String) (limit : Int) : Fault :=
  let f := { f with source := f.source <|> some form }
  if f.trace.size < limit then { f with trace := f.trace.push ⟨form, name⟩ }
  else { f with elided := f.elided + 1 }

/-- A copy to raise again, with kind and value in one line as they are now. It goes on with a trace
of its own and is no longer an issue of a text. -/
def again (f : Fault) (summary : String) : Fault := { f with summary, offset := none }

end Fault

end LazyLisp
