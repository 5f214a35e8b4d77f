import LazyLisp.Eval.Primitive

/-!
Calls of procedures with evaluated arguments.
-/

namespace LazyLisp

namespace Call

def closure (m : Engine) (tail : Bool) (c : Closure) (args : List Value) : Run Step := do
  let frame ← c.signature.bind args c.frame
  m.inTail tail c.body frame c.name

/-- The first clause that accepts the number of arguments. -/
def selectClause (clauses : List Closure) (name : Option String) (count : Nat) : Run Closure :=
  match clauses.find? (·.signature.accepts count) with
  | some c => return c
  | none =>
    let name := match name with
      | none | some "" => "case-lambda"
      | some name => name
    let signatures := ", ".intercalate (clauses.map (·.signature.text))
    Run.fail Fault.Kind.arityError ("no clause of " ++ name ++ " accepts " ++ toString count ++
      " argument(s); have " ++ signatures)

/-- Arithmetic of a primitive that has no result is a fault of the program. -/
def catchArithmetic (name : String) (x : Run Step) : Run Step := fun s =>
  match x s with
  | .error (.breakdown (.arithmetic e)) s =>
    .error (.fault (.ofMessage Fault.Kind.arithmeticError (name ++ ": " ++ e.message))) s
  | result => result

/-- Run a procedure on its arguments; `again` calls one in turn, for the primitives that do. -/
def runWith (m : Engine) (again : Primitive.Caller) (tail : Bool) (args : List Value)
    (frame : FrameId) : Procedure → Run Step
  | .closure c => closure m tail c args
  | .cases clauses name _ => do closure m tail (← selectClause clauses name args.length) args
  | .primitive p => do
    match ← catchArithmetic p.name (p.run m again frame args) with
    | .tail expr frame name => m.inTail tail expr frame name
    | .value v => return .value v
  | .expander x =>
    Run.fail Fault.Kind.notApplicable
      ("macro " ++ x.name.getD "" ++ " cannot be applied to evaluated arguments")

/-- Call a procedure, or complain that the value is none. -/
def applyWith (m : Engine) (again : Primitive.Caller) (tail : Bool) (f : Value) (args : List Value)
    (frame : FrameId) : Run Step := do
  match f with
  | .procedure ref => runWith m again tail args frame (← Run.procedure ref)
  | v => Run.fail Fault.Kind.notApplicable ((← m.inMessage v) ++ " is not a procedure")

/-- Call a procedure, with at most `fuel` calls inside each other. -/
def applyWithin (m : Engine) :
    (fuel : Nat) → (room : Option Nat) → (tail : Bool) → Value → List Value → FrameId → Run Step
  | 0, _, _, _, _, _ => throw .outOfFuel
  | fuel + 1, room, tail, f, args, frame =>
    match descend room with
    | none => throw .overflow
    | some room => applyWith m (applyWithin m fuel room true) tail f args frame

/-- Call a procedure with evaluated arguments in the given frame. -/
def apply (m : Engine) (tail : Bool) (f : Value) (args : List Value) (frame : FrameId) : Run Step :=
  applyWithin m (m.fuel + 1) m.room tail f args frame

end Call

end LazyLisp
