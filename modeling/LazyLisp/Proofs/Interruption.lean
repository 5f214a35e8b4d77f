import LazyLisp.Proofs.Observation
import LazyLisp.Session

/-!
How computations go on: from a result, or from an interrupt that something catches. Whatever catches
interrupts is a handler behind a computation.
-/

namespace LazyLisp

def Interrupt.isFault : Interrupt → Bool
  | fault _ => true
  | _ => false

structure Interrupt.Uncaught (e : Interrupt) : Prop where
  fault : ∀ f, e ≠ fault f
  overflow : e ≠ overflow
  arithmetic : ∀ a, e ≠ breakdown (.arithmetic a)

theorem Interrupt.Uncaught.of_eq {d e : Interrupt} (uncaught : e.Uncaught) (same : d = e) :
    d.Uncaught := by
  rw [same]
  exact uncaught

def Fault.rescue (form : Value) : Fault :=
  { ofMessage Kind.recursionError "maximum recursion depth exceeded" with source := some form }

/-- The text may stand for kind and value of the fault when it is raised again. An atom has one text,
but that of another value depends on the store. -/
def Fault.ShownAs (f : Fault) (summary : String) : Prop :=
  ∀ a, f.value = some (.atom a) → Store.empty.summary none f.kind f.value = .ok summary

theorem Fault.source_leave (f : Fault) (form : Value) (name : Option String) (limit : Int) :
    (f.leave form name limit).source = (f.source <|> some form) := by
  unfold Fault.leave
  dsimp only
  split <;> rfl

namespace Run

variable {α β : Type}

def either (x : Run α) (next : α → Run β) (handle : Interrupt → Run β) : Run β := fun s =>
  match x s with
  | .ok a s => next a s
  | .error e s => handle e s

theorem bind_eq_either (x : Run α) (f : α → Run β) : x >>= f = x.either f throw := by
  funext s
  change EStateM.bind x f s = _
  unfold EStateM.bind either
  cases x s <;> rfl

theorem catchFault_eq_either (x : Run α) (handle : Fault → Run α) :
    catchFault x handle = x.either pure fun
      | .fault f => handle f
      | e => throw e := by
  funext s
  unfold catchFault either
  cases x s with
  | ok a s => rfl
  | error e s => cases e <;> rfl

end Run

theorem Call.catchArithmetic_eq_either (name : String) (x : Run Step) :
    catchArithmetic name x = x.either pure fun
      | .breakdown (.arithmetic e) =>
        throw (.fault (.ofMessage Fault.Kind.arithmeticError (name ++ ": " ++ e.message)))
      | e => throw e := by
  funext s
  unfold catchArithmetic Run.either
  cases x s with
  | ok step s => rfl
  | error e s =>
    cases e with
    | breakdown b => cases b <;> rfl
    | _ => rfl

theorem SpecialForm.runCatchError_eq_either (m : Engine) (frame : FrameId) (args : List Value) :
    runCatchError m frame args =
      Run.either (do m.eval (← bodyExpr args) frame none) pure fun
        | .fault f => Value.error <$> Run.newError f
        | .overflow => do
          let form ← Run.list (.symbol "catch-error" :: args)
          let fault := Fault.ofMessage Fault.Kind.recursionError "maximum recursion depth exceeded"
          Value.error <$> Run.newError { fault with source := some form }
        | e => throw e := by
  funext s
  unfold runCatchError Run.either
  generalize (do m.eval (← bodyExpr args) frame none : Run Value) s = r
  cases r with
  | ok v s => rfl
  | error e s => cases e <;> rfl

theorem Session.catchOverflow_eq_either (x : Run Value) (fault : Fault) :
    catchOverflow x fault = x.either pure fun
      | .overflow => throw (.fault fault)
      | e => throw e := by
  funext s
  unfold catchOverflow Run.either
  cases x s with
  | ok v s => rfl
  | error e s => cases e <;> rfl

/-- Let an interrupt through; a fault takes the expression along. -/
def leaving (limit : Int) (expr : Value) (name : Option String) : Interrupt → Run Value
  | .fault f => throw (.fault (f.leave expr name limit))
  | e => throw e

theorem proceed_eq_either (limit : Int) (next : Value → FrameId → Option String → Run Value)
    (expr : Value) (name : Option String) (x : Run Step) :
    proceed limit next expr name x = x.either
      (fun
        | .value v => pure v
        | .tail expr frame name => next expr frame name)
      (leaving limit expr name) := by
  funext s
  unfold proceed Run.either
  cases x s with
  | ok step s => cases step <;> rfl
  | error e s => cases e <;> rfl

end LazyLisp
