import LazyLisp.Store.Printer

/-!
Reports of faults: for the fault and each error behind it one line with kind and value, one with the
innermost form, and one for every form in the trace.
-/

namespace LazyLisp

/-- The most characters of a form that a report shows. -/
def formWidth : Nat := 72

def clip (text : String) : String :=
  if text.length ≤ formWidth then text
  else String.ofList (text.toList.take (formWidth - 3)) ++ "..."

namespace Store

def faultText (s : Store) (room : Option Nat) (f : Fault) : Written :=
  match f.value with
  | some v => s.plain room v
  | none => .ok "#<void>"

def traceLine (s : Store) (room : Option Nat) (e : TraceEntry) : Written := do
  let form ← s.readable room e.form
  let name := match e.name with
    | none | some "" => ""
    | some name => " [" ++ name ++ "]"
  return "\tin " ++ clip form ++ name

/-- The lines about one fault, without its causes. -/
def reportLines (s : Store) (room : Option Nat) (f : Fault) :
    Except WriteFailure (List String) := do
  let value ← s.faultText room f
  let source ← match f.source with
    | some form => do
      let form ← s.readable room form
      pure ["\tfrom " ++ clip form]
    | none => pure []
  let trace ← f.trace.toList.mapM (s.traceLine room)
  let elided := if f.elided = 0 then []
    else ["\t... " ++ toString f.elided ++ " more frame(s)"]
  return (f.kind ++ ": " ++ value) :: source ++ trace ++ elided

def report (s : Store) (room : Option Nat) (f : Fault) : Written := do
  let parts ← (s.chain f).mapM (s.reportLines room)
  return "\n".intercalate (["caused by:"].intercalate parts)

end Store

end LazyLisp
