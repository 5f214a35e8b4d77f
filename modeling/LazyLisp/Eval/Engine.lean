import LazyLisp.Eval.Run

/-!
The engine: what a step of evaluation may use. It evaluates expressions inside the current one and
forces lazy pairs, and everything that does either is given it.

`foldSpine` walks along a list whose pairs may be lazy. Each head is forced only if it is asked for,
and each tail only after its head has been dealt with.
-/

namespace LazyLisp

/-- What one step of evaluation yields: a value, or an expression to go on with in its place, which
is the body of the named procedure if there is a name. -/
inductive Step where
  | value (v : Value)
  | tail (expr : Value) (frame : FrameId) (name : Option String)

structure Engine where
  world : World
  /-- The steps that loops may still take. -/
  fuel : Nat
  /-- How much deeper evaluation and data may nest. -/
  room : Option Nat
  /-- Evaluate an expression inside the current one. -/
  eval : Value → FrameId → Option String → Run Value
  /-- The value of one half of a lazy pair. -/
  force : Side → Nat → Run Value

namespace Engine

/-- The value of one half of a lazy pair. A half that is pending is evaluated, and the value is kept
once evaluation has succeeded. -/
def forceWith (eval : Value → FrameId → Option String → Run Value) (side : Side) (ref : Nat) :
    Run Value := do
  match (← Run.lazyPair ref).slot side with
  | .ready v => return v
  | .pending expr frame =>
    let v ← eval expr frame none
    Run.settle ref side v
    return v

/-- The engine that forces lazy pairs by evaluation. -/
def ofEval (world : World) (fuel : Nat) (room : Option Nat)
    (eval : Value → FrameId → Option String → Run Value) : Engine :=
  ⟨world, fuel, room, eval, forceWith eval⟩

def readable (m : Engine) (v : Value) : Run String := do
  Run.ofWritten ((← get).readable m.room v)

def plain (m : Engine) (v : Value) : Run String := do
  Run.ofWritten ((← get).plain m.room v)

def inMessage (m : Engine) (v : Value) : Run String := do
  Run.ofWritten ((← get).inMessage m.world.halves m.room v)

def failWith {α : Type} (m : Engine) (kind message : String) (v : Value) : Run α := do
  Run.fail kind (message ++ (← m.inMessage v))

/-- A new fault of a kind with a value, or without one. -/
def fault (m : Engine) (kind : String) (value : Option Value) : Run Fault := do
  let summary ← Run.ofWritten ((← get).summary m.room kind value)
  return { kind, value, summary }

def again (m : Engine) (f : Fault) : Run Fault := do
  return f.again (← Run.ofWritten ((← get).summary m.room f.kind f.value))

def half (m : Engine) (side : Side) : Value → Run Value
  | .pair _ car cdr => match side with
    | .car => pure car
    | .cdr => pure cdr
  | .lazyPair ref => m.force side ref
  | _ => throw .dangling

def car (m : Engine) (v : Value) : Run Value := m.half .car v

def cdr (m : Engine) (v : Value) : Run Value := m.half .cdr v

/-- Walk along a list as long as its pairs are eager; `hop` goes on at a lazy one. -/
def foldEager {σ : Type} (hop : σ → Nat → Run (σ × Value)) (f : σ → Run Value → Run (Option σ)) :
    σ → Value → Run (σ × Value)
  | state, .pair mark car cdr => do
    match ← f state (pure car) with
    | some state => foldEager hop f state cdr
    | none => return (state, .pair mark car cdr)
  | state, .lazyPair ref => hop state ref
  | state, v => return (state, v)

/-- Walk along a list with at most `fuel` lazy pairs. -/
def foldSpineWithin {σ : Type} (m : Engine) (f : σ → Run Value → Run (Option σ)) :
    (fuel : Nat) → σ → Value → Run (σ × Value)
  | 0, _, _ => throw .outOfFuel
  | fuel + 1, state, v =>
    foldEager (fun state ref => do
      match ← f state (m.force .car ref) with
      | some state => do
        let rest ← m.force .cdr ref
        foldSpineWithin m f fuel state rest
      | none => return (state, .lazyPair ref)) f state v

/-- Walk along a list. `f` is given the state so far and access to the head of the next pair, and
yields the state behind that pair, or none to stop in front of it. The result is the last state and
what is left of the list. -/
def foldSpine {σ : Type} (m : Engine) (f : σ → Run Value → Run (Option σ)) (init : σ) (v : Value) :
    Run (σ × Value) :=
  m.foldSpineWithin f (m.fuel + 1) init v

/-- The items of a proper list; anything else is a fault that calls it `what`. -/
def items (m : Engine) (kind what : String) (v : Value) : Run (List Value) := do
  let (passed, last) ← m.foldSpine (fun passed head => return some ((← head) :: passed)) [] v
  if last.isNil then return passed.reverse
  else m.failWith kind ("not a proper " ++ what ++ ": ") v

def arguments (m : Engine) (v : Value) : Run (List Value) :=
  m.items Fault.Kind.malformedForm "form" v

/-- Whether a value is a proper list. Only tails are forced. -/
def isProperList (m : Engine) (v : Value) : Run Bool := do
  let (_, last) ← m.foldSpine (fun _ _ => return some ()) () v
  return last.isNil

/-- Read a parameter list: names in a list, a list that ends in one more name, or a name alone. -/
def signature (m : Engine) (params : Value) : Run Signature := do
  let (names, last) ← m.foldSpine (fun names head => do
    match ← head with
    | .symbol name => return some (name :: names)
    | _ => m.failWith Fault.Kind.malformedForm "ill-formed argument list " params) [] params
  match last with
  | .nil => return ⟨names.reverse, none⟩
  | .symbol rest => return ⟨names.reverse, some rest⟩
  | _ => m.failWith Fault.Kind.malformedForm "invalid argument list " params

/-- Evaluate an expression in tail position: leave it to whoever runs the steps, or do it now. -/
def inTail (m : Engine) (tail : Bool) (expr : Value) (frame : FrameId) (name : Option String) :
    Run Step :=
  if tail then return .tail expr frame name else .value <$> m.eval expr frame name

end Engine

def bodyExpr : List Value → Run Value
  | [] => return .nil
  | [form] => return form
  | forms => Run.list (.symbol "begin" :: forms)

/-- Take the documentation off a body: a text in front of at least one more form. -/
def splitDoc : List Value → Option String × List Value
  | .string doc :: form :: forms => (some doc, form :: forms)
  | forms => (none, forms)

namespace Signature

/-- Bind arguments to the parameters in a new frame inside `outer`. -/
def bind (sig : Signature) (args : List Value) (outer : FrameId) : Run FrameId := do
  if !sig.accepts args.length then
    Run.fail Fault.Kind.arityError ("expecting " ++ sig.describe ++ " argument(s), got " ++
      toString args.length)
  let frame ← Run.newFrame outer
  for (name, v) in sig.names.zip args do
    Run.define frame name v
  if let some rest := sig.rest then
    Run.define frame rest (← Run.list (args.drop sig.names.length))
  return frame

end Signature

end LazyLisp
