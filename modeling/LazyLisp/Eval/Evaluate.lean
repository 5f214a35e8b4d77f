import LazyLisp.Eval.Form

/-!
Evaluation. `step` does one step and leaves tail positions open; `evaluate` goes on from step to
step without nesting, so that tail calls need no room. A fault that leaves `evaluate` takes along
the expression that was evaluated last.
-/

namespace LazyLisp

/-- Go on with a form whose head has the value `f`: expand it, or evaluate its arguments and call. -/
def applicationWith (call : (tail : Bool) → Primitive.Caller) (m : Engine) (f : Value)
    (args : List Value) (frame : FrameId) (tail : Bool) : Run Step := do
  match f with
  | .procedure ref =>
    match ← Run.procedure ref with
    | .expander x =>
      -- The expansion takes the place of the form, so it stays in tail position.
      let expansion ← Expansion.run m x args
      m.inTail tail expansion frame none
    | _ =>
      let values ← args.mapM (m.eval · frame none)
      call tail f values frame
  | _ => Run.fail Fault.Kind.notApplicable ((← m.inMessage f) ++ " is not a procedure")

def formWith (call : (tail : Bool) → Primitive.Caller) (m : Engine) (expr : Value)
    (frame : FrameId) (tail : Bool) : Run Step := do
  let head ← m.car expr
  let args ← m.arguments (← m.cdr expr)
  match head.symbol?.bind SpecialForm.ofName? with
  | some form => form.run m args frame tail
  | none => applicationWith call m (← m.eval head frame none) args frame tail

/-- One step of the evaluation of an expression, given how procedures are called. -/
def stepWith (call : (tail : Bool) → Primitive.Caller) (m : Engine) (expr : Value)
    (frame : FrameId) (tail : Bool) : Run Step :=
  match expr with
  | .symbol name => .value <$> Run.lookup frame name
  | .pair _ _ _ | .lazyPair _ => formWith call m expr frame tail
  | _ => return .value expr

def step (m : Engine) (expr : Value) (frame : FrameId) (tail : Bool) : Run Step :=
  stepWith (Call.apply m) m expr frame tail

/-- Evaluate an expression, which is the body of the named procedure if there is a name. -/
def evaluate (w : World) :
    (fuel : Nat) → (room : Option Nat) → Value → FrameId → Option String → Run Value
  | 0, _, _, _, _ => throw .outOfFuel
  | fuel + 1, room, expr, frame, name => fun s =>
    match descend room with
    | none => .error .overflow s
    | some inner =>
      match step (.ofEval w fuel inner (evaluate w fuel inner)) expr frame true s with
      | .ok (.value v) s => .ok v s
      | .ok (.tail expr frame name) s => evaluate w fuel room expr frame name s
      | .error (.fault f) s => .error (.fault (f.leave expr name w.traceLimit)) s
      | .error e s => .error e s

def Engine.outermost (w : World) (fuel : Nat) : Engine :=
  .ofEval w fuel w.room (evaluate w fuel w.room)

end LazyLisp
