import LazyLisp.Eval.Engine

/-!
Expansion of forms whose head names an expander. The expander is run on the unevaluated arguments,
and a fault inside it becomes the cause of an expansion fault.
-/

namespace LazyLisp

/-- The forms that are not applications. -/
inductive SpecialForm where
  | assign | sequence | defineExpander | quote | quasiquote | unquote | unquoteSplicing | lambda
  | caseLambda | define | cond | letBindings | conj | disj | lazyCons | catchError
  deriving Repr, DecidableEq

namespace SpecialForm

def ofName? : String → Option SpecialForm
  | "set!" => some assign
  | "begin" => some sequence
  | "define-macro" => some defineExpander
  | "quote" => some quote
  | "quasiquote" => some quasiquote
  | "unquote" => some unquote
  | "unquote-splicing" => some unquoteSplicing
  | "lambda" => some lambda
  | "case-lambda" => some caseLambda
  | "define" => some define
  | "if" => some cond
  | "let" => some letBindings
  | "and" => some conj
  | "or" => some disj
  | "lazy-cons" => some lazyCons
  | "catch-error" => some catchError
  | _ => none

end SpecialForm

namespace Expansion

/-- Where the log says that an expansion comes from. -/
def origin : String := "sloth.evaluation.macro_expander"

def run (m : Engine) (x : Closure) (args : List Value) : Run Value := do
  let name := x.name.getD ""
  let expansion ← Run.catchFault
    (do
      let frame ← x.signature.bind args x.frame
      m.eval x.body frame x.name)
    fun f => do
      let cause ← Run.newError f
      throw (.fault { Fault.ofMessage Fault.Kind.expansionError
        ("error expanding macro " ++ name) with cause := some cause })
  let s ← get
  Run.log m.world.logging .debug origin fun _ =>
    "expanded " ++ name ++ " -> " ++ (s.inMessage m.world.halves m.room expansion).toOption.getD ""
  return expansion

/-- The expander that the head of a form names, if it names one. -/
def expander? (m : Engine) (form : Value) (frame : FrameId) : Run (Option Closure) := do
  if !form.isPair then return none
  match ← m.car form with
  | .symbol name =>
    if (SpecialForm.ofName? name).isSome then return none
    match ← Run.find? frame name with
    | some (_, .procedure ref) =>
      match ← Run.procedure ref with
      | .expander x => return some x
      | _ => return none
    | _ => return none
  | _ => return none

/-- Expand a form once, if its head names an expander. -/
def once (m : Engine) (form : Value) (frame : FrameId) : Run Value := do
  match ← expander? m form frame with
  | some x => run m x (← m.arguments (← m.cdr form))
  | none => return form

/-- Expand a form until its head names no expander, at most `fuel` times. -/
def fullyWithin (m : Engine) (frame : FrameId) : (fuel : Nat) → Value → Run Value
  | 0, _ => throw .outOfFuel
  | fuel + 1, form => do
    match ← expander? m form frame with
    | some x => fullyWithin m frame fuel (← run m x (← m.arguments (← m.cdr form)))
    | none => return form

def fully (m : Engine) (form : Value) (frame : FrameId) : Run Value :=
  fullyWithin m frame (m.fuel + 1) form

end Expansion

end LazyLisp
