import LazyLisp.Eval.Call
import LazyLisp.Eval.Template

/-!
The special forms. Each is given its argument forms, the frame it stands in, and whether it is in
tail position; its own tail positions are left to `Engine.inTail`.
-/

namespace LazyLisp

namespace SpecialForm

def malformed {α : Type} (message : String) : Run α := Run.fail Fault.Kind.malformedForm message

def malformedWith {α : Type} (m : Engine) (message : String) (v : Value) : Run α :=
  m.failWith Fault.Kind.malformedForm message v

def runQuote : List Value → Run Value
  | [v] => return v
  | _ => malformed "quote expects exactly 1 argument"

def runQuasiquote (m : Engine) (frame : FrameId) : List Value → Run Value
  | [template] => Template.copy m frame template
  | _ => malformed "quasiquote expects exactly 1 argument"

/-- Evaluate all forms but the last, and that one in tail position. -/
def runSequence (m : Engine) (tail : Bool) (frame : FrameId) : List Value → Run Step
  | [] => return .value .nil
  | [last] => m.inTail tail last frame none
  | form :: rest => do
    let _ ← m.eval form frame none
    runSequence m tail frame rest

def runIf (m : Engine) (tail : Bool) (frame : FrameId) (args : List Value) : Run Step := do
  match args with
  | [test, yes] =>
    if (← m.eval test frame none).isTruthy then m.inTail tail yes frame none
    else return .value .nil
  | [test, yes, no] =>
    if (← m.eval test frame none).isTruthy then m.inTail tail yes frame none
    else m.inTail tail no frame none
  | _ => malformed "if requires a condition, a then-expression and an optional else"

/-- Evaluate forms up to the first whose truth is `stopAt`; the last one is in tail position, and
without forms the result is the opposite truth. -/
def runLogic (m : Engine) (stopAt : Bool) (tail : Bool) (frame : FrameId) : List Value → Run Step
  | [] => return .value (.ofBool !stopAt)
  | [last] => m.inTail tail last frame none
  | form :: rest => do
    let v ← m.eval form frame none
    if v.isTruthy == stopAt then return .value v
    else runLogic m stopAt tail frame rest

def makeClosure (m : Engine) (frame : FrameId) (name : Option String) (params : Value)
    (body : List Value) : Run Closure := do
  let (doc, body) := splitDoc body
  let signature ← m.signature params
  return { signature, body := ← bodyExpr body, frame, name, doc }

def runLambda (m : Engine) (frame : FrameId) : List Value → Run Value
  | params :: body => do Run.newProcedure (.closure (← makeClosure m frame none params body))
  | [] => malformed "lambda requires at least a parameter list"

def makeClause (m : Engine) (frame : FrameId) (clause : Value) : Run Closure := do
  if !clause.isPair then
    malformedWith m "case-lambda clause must be (params body...), got " clause
  match ← m.items Fault.Kind.malformedForm "case-lambda clause" clause with
  | params :: body => makeClosure m frame none params body
  | [] => throw .dangling

def runCaseLambda (m : Engine) (frame : FrameId) (args : List Value) : Run Value := do
  let (doc, clauses) := match args with
    | .string doc :: clauses => (some doc, clauses)
    | clauses => (none, clauses)
  let closures ← clauses.mapM (makeClause m frame)
  if closures.isEmpty then malformed "(case-lambda) must contain at least one clause"
  Run.newProcedure (.cases closures none doc)

/-- Whether a form makes a procedure that nothing else can refer to yet. -/
def makesProcedure (m : Engine) (expr : Value) : Run Bool := do
  if !expr.isPair then return false
  let head ← m.car expr
  return head.isSymbolNamed "lambda" || head.isSymbolNamed "case-lambda"

def runDefine (m : Engine) (frame : FrameId) (args : List Value) : Run Value := do
  match args with
  | [] => malformed "define requires a name"
  | target :: rest =>
    if target.isPair then
      match ← m.car target with
      | .symbol name =>
        let c ← makeClosure m frame (some name) (← m.cdr target) rest
        Run.define frame name (← Run.newProcedure (.closure c))
        return .symbol name
      | v => malformedWith m "define must have a symbol name, not " v
    else match target, rest with
      | .symbol name, [expr] =>
        let v ← m.eval expr frame none
        if ← makesProcedure m expr then
          if let .procedure ref := v then Run.nameProcedure ref name
        Run.define frame name v
        return .symbol name
      | .symbol name, _ =>
        malformed ("define of " ++ name ++ " requires exactly 1 value expression")
      | v, _ => malformedWith m "define must have a symbol name, not " v

def runDefineExpander (m : Engine) (frame : FrameId) (args : List Value) : Run Value := do
  match args with
  | signature :: form :: forms =>
    let name? ← if signature.isPair then Value.symbol? <$> m.car signature else pure none
    match name? with
    | some name =>
      let x ← makeClosure m frame (some name) (← m.cdr signature) (form :: forms)
      Run.define frame name (← Run.newProcedure (.expander x))
      return .symbol name
    | none => malformedWith m "invalid macro definition: " signature
  | _ => malformed "define-macro requires (name . params) and a body"

def runAssign (m : Engine) (frame : FrameId) (args : List Value) : Run Value := do
  match args with
  | [.symbol name, expr] => Run.assign frame name (← m.eval expr frame none)
  | [target, _] => malformedWith m "set! first argument must be a Symbol, got " target
  | _ => malformed "set! requires exactly 2 arguments: (set! var value)"

/-- The name of one binding and its evaluated value. -/
def runBinding (m : Engine) (frame : FrameId) (binding : Value) : Run (String × Value) := do
  let parts ←
    if binding.isPair then m.items Fault.Kind.malformedForm "let binding" binding else pure []
  match parts with
  | [.symbol name, expr] => return (name, ← m.eval expr frame none)
  | _ => malformedWith m "let binding must be (name expr), got " binding

def runLet (m : Engine) (tail : Bool) (frame : FrameId) (args : List Value) : Run Step := do
  match args with
  | bindings :: body =>
    let bindings ← m.items Fault.Kind.malformedForm "let binding list" bindings
    let values ← bindings.mapM (runBinding m frame)
    let inner ← Run.newFrame frame
    for (name, v) in values do
      Run.define inner name v
    m.inTail tail (← bodyExpr body) inner none
  | [] => malformed "let requires a binding list"

def runLazyCons (frame : FrameId) (args : List Value) : Run Value := do
  match args with
  | [car, cdr] => Run.newLazyPair ⟨.pending car frame, .pending cdr frame⟩
  | _ => malformed "lazy-cons requires exactly 2 arguments"

/-- Evaluate a body so that its faults become error values. Running out of room does too. -/
def runCatchError (m : Engine) (frame : FrameId) (args : List Value) : Run Value := fun s =>
  match (do m.eval (← bodyExpr args) frame none : Run Value) s with
  | .error (.fault f) s => (Value.error <$> Run.newError f) s
  | .error .overflow s =>
    (do
      let form ← Run.list (.symbol "catch-error" :: args)
      let fault := Fault.ofMessage Fault.Kind.recursionError "maximum recursion depth exceeded"
      Value.error <$> Run.newError { fault with source := some form } : Run Value) s
  | result => result

def run (m : Engine) (form : SpecialForm) (args : List Value) (frame : FrameId) (tail : Bool) :
    Run Step :=
  match form with
  | assign => .value <$> runAssign m frame args
  | sequence => runSequence m tail frame args
  | defineExpander => .value <$> runDefineExpander m frame args
  | quote => .value <$> runQuote args
  | quasiquote => .value <$> runQuasiquote m frame args
  | unquote => malformed "unquote not valid outside of quasiquote"
  | unquoteSplicing => malformed "unquote-splicing not valid outside of quasiquote"
  | lambda => .value <$> runLambda m frame args
  | caseLambda => .value <$> runCaseLambda m frame args
  | define => .value <$> runDefine m frame args
  | cond => runIf m tail frame args
  | letBindings => runLet m tail frame args
  | conj => runLogic m false tail frame args
  | disj => runLogic m true tail frame args
  | lazyCons => .value <$> runLazyCons frame args
  | catchError => .value <$> runCatchError m frame args

end SpecialForm

end LazyLisp
