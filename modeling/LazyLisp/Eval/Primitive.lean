import LazyLisp.Eval.Equality
import LazyLisp.Eval.Expansion
import LazyLisp.Eval.Load

/-!
What the primitives do. A primitive is given the frame of its call and its evaluated arguments. Most
yield a value; `apply` and `eval` yield the expression to go on with.
-/

namespace LazyLisp

/-- The name to which the standard input is bound. -/
def standardInput : String := "*standard-input*"

namespace Primitive

/-- The call of a procedure with evaluated arguments, for the primitives that call one. -/
abbrev Caller := Value → List Value → FrameId → Run Step

def expect (name : String) (count : Nat) (args : List Value) : Run Unit :=
  if args.length == count then pure ()
  else Run.fail Fault.Kind.arityError (name ++ " expects " ++ toString count ++
    " argument(s), got " ++ toString args.length)

def one (name : String) (args : List Value) : Run Value := do
  expect name 1 args
  Run.held args[0]?

def two (name : String) (args : List Value) : Run (Value × Value) := do
  expect name 2 args
  return (← Run.held args[0]?, ← Run.held args[1]?)

def expectBetween (name : String) (low high : Nat) (args : List Value) : Run Unit :=
  if low ≤ args.length && args.length ≤ high then pure ()
  else Run.fail Fault.Kind.arityError (name ++ " expects " ++ toString low ++ " to " ++
    toString high ++ " arguments, got " ++ toString args.length)

/-- An argument is not what the primitive works on. -/
def failType {α : Type} (m : Engine) (name wanted : String) (v : Value) : Run α := do
  Run.fail Fault.Kind.typeError (name ++ ": " ++ wanted ++ ", got " ++ (← m.readable v))

def number (m : Engine) (name : String) (v : Value) : Run Number :=
  match v.number? with
  | some n => return n
  | none => failType m name "expecting number" v

def numbers (m : Engine) (name : String) (args : List Value) : Run (List Number) :=
  args.mapM (number m name)

def pair (m : Engine) (name : String) (v : Value) : Run Value :=
  if v.isPair then return v else failType m name "expecting a pair" v

def text (m : Engine) (name wanted : String) : Value → Run String
  | .string s => return s
  | v => failType m name wanted v

def symbolName (m : Engine) (name wanted : String) : Value → Run String
  | .symbol s => return s
  | v => failType m name wanted v

def errorOf (m : Engine) (name : String) (args : List Value) : Run Fault := do
  match ← one name args with
  | .error ref => Run.errorFault ref
  | v => failType m name "expecting an error value" v

/-- A result of arithmetic; what has none is left to the caller of the primitive. -/
def result (r : Number.Result Number) : Run Number :=
  match r with
  | .ok n => return n
  | .error e => throw (.breakdown (.arithmetic e))

def sum (m : Engine) (args : List Value) : Run Number := do
  (← numbers m "+" args).foldlM (fun a b => result (a.add b)) (.int 0)

def difference (m : Engine) (args : List Value) : Run Number := do
  match args with
  | [] => Run.fail Fault.Kind.arityError "- requires at least 1 argument"
  | _ => match ← numbers m "-" args with
    | [a] => return a.neg
    | a :: rest => rest.foldlM (fun a b => result (a.sub b)) a
    | [] => throw .dangling

def product (m : Engine) (args : List Value) : Run Number := do
  (← numbers m "*" args).foldlM (fun a b => result (a.mul b)) (.int 1)

def quotient (m : Engine) (args : List Value) : Run Number := do
  match args with
  | [] => Run.fail Fault.Kind.arityError "/ requires at least 1 argument"
  | _ => match ← numbers m "/" args with
    | [a] => result (Number.div (.int 1) a)
    | a :: rest => rest.foldlM (fun a b => result (a.div b)) a
    | [] => throw .dangling

def remainder (m : Engine) (args : List Value) : Run Number := do
  let (v, w) ← two "mod" args
  let a ← number m "mod" v
  let b ← number m "mod" w
  result (a.mod b)

/-- Whether each two neighbours are in an order that holds. -/
def isChain (holds : Ordering → Bool) : List Number → Bool
  | a :: b :: rest => (a.compare? b).any holds && isChain holds (b :: rest)
  | _ => true

def compare (m : Engine) (name : String) (holds : Ordering → Bool) (args : List Value) :
    Run Value := do
  return .ofBool (isChain holds (← numbers m name args))

def test (name : String) (holds : Value → Bool) (args : List Value) : Run Value := do
  return .ofBool (holds (← one name args))

def isProcedureWith (holds : Procedure → Bool) : Value → Run Bool
  | .procedure ref => return holds (← Run.procedure ref)
  | _ => return false

def isKind (v : Value) (holds : Atom → Bool) : Bool :=
  match v with
  | .atom a => holds a
  | _ => false

def isStringValue (v : Value) : Bool := isKind v fun | .string _ => true | _ => false

def isCharValue (v : Value) : Bool := isKind v fun | .char _ => true | _ => false

def isErrorValue : Value → Bool
  | .error _ => true
  | _ => false

def isBoundIn (m : Engine) (frame : FrameId) (args : List Value) : Run Value := do
  let name ← symbolName m "bound?" "expecting a symbol" (← one "bound?" args)
  return .ofBool (← Run.find? frame name).isSome

def applyTo (m : Engine) (call : Caller) (frame : FrameId) (args : List Value) : Run Step := do
  let (f, operands) ← two "apply" args
  call f (← m.items Fault.Kind.typeError "argument list" operands) frame

def newSymbol (args : List Value) : Run Value := do
  expectBetween "gensym" 0 1 args
  match args with
  | [] => Run.gensym "G"
  | .symbol start :: _ | .string start :: _ => Run.gensym start
  | _ => Run.fail Fault.Kind.typeError "gensym prefix must be a Symbol or string"

def loadPath (m : Engine) (frame : FrameId) (args : List Value) : Run Value := do
  let path ← text m "load-file" "expecting a path string" (← one "load-file" args)
  Load.file m.world m.room (m.eval · · none) (.ofString path) path frame

/-- Raise a new fault, or a copy of one that was caught. -/
def raise (m : Engine) (args : List Value) : Run Value := do
  expectBetween "throw-error" 1 2 args
  match args with
  | [kind, v] =>
    let kind ← match kind with
      | .symbol kind | .string kind => pure kind
      | _ => failType m "throw-error" "kind must be a symbol" kind
    throw (.fault (← m.fault kind (some v)))
  | _ => throw (.fault (← m.again (← errorOf m "throw-error" args)))

def dump (m : Engine) (args : List Value) : Run Value := do
  let f ← errorOf m "dump-traceback" args
  Run.writeLine m.world (← Run.ofWritten ((← get).report m.room f))
  return .nil

def texts (m : Engine) (args : List Value) : Run String :=
  return String.join (← args.mapM m.plain)

def readForm (m : Engine) (frame : FrameId) (args : List Value) : Run Value := do
  expectBetween "read" 0 1 args
  let input ← match args with
    | v :: _ => pure v
    | [] => Run.lookup frame standardInput
  match input with
  | .input ref => Run.readInput m.room ref
  | v => failType m "read" "expecting an input port" v

def value (x : Run Value) : Run Step := .value <$> x

def run (m : Engine) (call : Caller) (p : Primitive) (frame : FrameId) (args : List Value) :
    Run Step :=
  match p with
  | add => value do Run.ofNumber (← sum m args)
  | sub => value do Run.ofNumber (← difference m args)
  | mul => value do Run.ofNumber (← product m args)
  | div => value do Run.ofNumber (← quotient m args)
  | mod => value do Run.ofNumber (← remainder m args)
  | numEq => value (compare m "=" (· == .eq) args)
  | lt => value (compare m "<" (· == .lt) args)
  | le => value (compare m "<=" (· != .gt) args)
  | gt => value (compare m ">" (· == .gt) args)
  | ge => value (compare m ">=" (· != .lt) args)
  | same => value do
    let (a, b) ← two "eq?" args
    return .ofBool (a.isSame b)
  | equal => value do
    let (a, b) ← two "equal?" args
    return .ofBool (← m.equal a b)
  | not => value (test "not" (!·.isTruthy) args)
  | isCons | isPair => value (test "cons?" (·.isPair) args)
  | isNull => value (test "null?" (·.isNil) args)
  | isList => value do return .ofBool (← m.isProperList (← one "list?" args))
  | isSymbol => value (test "symbol?" (·.symbol?.isSome) args)
  | isString => value (test "string?" isStringValue args)
  | isNumber => value (test "number?" (·.number?.isSome) args)
  | isChar => value (test "char?" isCharValue args)
  | isProcedure => value do
    return .ofBool (← isProcedureWith (!·.isExpander) (← one "procedure?" args))
  | isExpander => value do
    return .ofBool (← isProcedureWith (·.isExpander) (← one "macro?" args))
  | isError => value (test "error?" isErrorValue args)
  | isBound => value (isBoundIn m frame args)
  | cons => value do
    let (a, b) ← two "cons" args
    Run.cons a b
  | car => value do m.car (← pair m "car" (← one "car" args))
  | cdr => value do m.cdr (← pair m "cdr" (← one "cdr" args))
  | list => value (Run.list args)
  | apply => applyTo m call frame args
  | eval => return .tail (← one "eval" args) (← Run.topLevel frame) none
  | expand => value do Expansion.fully m (← one "macro-expand" args) frame
  | expandOnce => value do Expansion.once m (← one "macro-expand-1" args) frame
  | gensym => value (newSymbol args)
  | loadFile => value (loadPath m frame args)
  | raiseError => value (raise m args)
  | errorType => value do return .symbol (← errorOf m "error-type" args).kind
  | errorValue => value do return (← errorOf m "error-value" args).value.getD .nil
  | errorSource => value do return (← errorOf m "error-source" args).source.getD .nil
  | errorTrace => value do
    let f ← errorOf m "error-trace" args
    Run.list (f.trace.toList.map (·.form))
  | dumpTraceback => value (dump m args)
  | stringAppend => value do
    return .string (String.join (← args.mapM (text m "string-append" "expecting string")))
  | symbolToString => value do
    return .string (← symbolName m "symbol->string" "expecting symbol"
      (← one "symbol->string" args))
  | stringToSymbol => value do
    return .symbol (← text m "string->symbol" "expecting string" (← one "string->symbol" args))
  | repr => value do return .string (← m.readable (← one "repr" args))
  | print => value do
    Run.write m.world (← texts m args)
    return .nil
  | printLine => value do
    Run.writeLine m.world (← texts m args)
    return .nil
  | read => value (readForm m frame args)
  | openInputString => value do
    let s ← text m "open-input-string" "expecting string" (← one "open-input-string" args)
    Run.newInput (.ofText "<string>" s.toList)

end Primitive

end LazyLisp
