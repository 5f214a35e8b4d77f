import LazyLisp.Eval.Engine

/-!
Bindings by value. Only symbols can be bound. Another atom can be looked up and is never found; a
pair cannot even be looked up.
-/

namespace LazyLisp

namespace Engine

/-- The name by which a value is looked up, if it can have a binding. -/
def key (name : Value) : Run (Option String) :=
  if name.isPair then throw (.breakdown .pairAsName) else return name.symbol?

def bindNamed (m : Engine) (frame : FrameId) (name v : Value) : Run Unit := do
  match name with
  | .symbol name => Run.define frame name v
  | _ =>
    Run.fail Fault.Kind.malformedForm ("Cannot define " ++ (← m.inMessage name) ++ " as a symbol")

/-- The last value that a list of bindings has for a symbol. -/
def lastFor (bindings : List (Value × Value)) (name : String) (v : Value) : Value :=
  bindings.foldl (fun last (n, w) => if n.isSymbolNamed name then w else last) v

/-- Bind several names in order. A name that is given more than once has its last value from the
start. -/
def bindAll (m : Engine) (frame : FrameId) (bindings : List (Value × Value)) : Run Unit := do
  for (name, _) in bindings do
    let _ ← key name
  for (name, v) in bindings do
    m.bindNamed frame name (match name.symbol? with
      | some symbol => lastFor bindings symbol v
      | none => v)

def findNamed (frame : FrameId) (name : Value) : Run (Option FrameId) := do
  match ← key name with
  | some name => return (← Run.find? frame name).map (·.1)
  | none => return none

def lookupNamed (m : Engine) (frame : FrameId) (name : Value) : Run Value := do
  match ← key name with
  | some name => Run.lookup frame name
  | none =>
    Run.fail Fault.Kind.unboundSymbol ("symbol '" ++ (← m.plain name) ++ " is not bound")

/-- Rebind a name where it is bound and return the old value. -/
def assignNamed (m : Engine) (frame : FrameId) (name v : Value) : Run Value := do
  match ← key name with
  | some name => Run.assign frame name v
  | none => Run.fail Fault.Kind.unboundSymbol ("cannot set! unbound symbol " ++ (← m.plain name))

end Engine

end LazyLisp
