import LazyLisp.Proofs.Running
import LazyLisp.Proofs.TailPositions

/-!
What a step does in tail position, and what it does for a value.

In tail position a step may leave an expression open. For a value it does the same things, and then
ends as the evaluation of that expression does, from the store it has come to; a step that leaves
nothing open does not know the difference. This goes for whole steps, for each special form and for
calls of every procedure, those that call others included.
-/

namespace LazyLisp

/-- What is done inside an evaluation ends with the given outcome, given enough fuel. -/
def EndsInside (w : World) (room : Option Nat) {α : Type} (x : Engine → Run α) (s : Store)
    (r : EStateM.Result Interrupt Store α) : Prop :=
  Finished r ∧ ∃ fuel, x (.evaluating w fuel room) s = r

/-- The outcome for a value that belongs to an outcome in tail position: where an expression is left
open, the outcome of its evaluation. -/
inductive Completes (w : World) (room : Option Nat) :
    EStateM.Result Interrupt Store Step → EStateM.Result Interrupt Store Step → Prop where
  | value {v t} : Completes w room (.ok (.value v) t) (.ok (.value v) t)
  | error {e t} : Completes w room (.error e t) (.error e t)
  | tail {expr frame name t q} :
      EndsInside w room (fun m => .value <$> m.eval expr frame name) t q →
      Completes w room (.ok (.tail expr frame name) t) q

/-- For a value, the computation evaluates what it leaves open in tail position. -/
def CompletesTail (x : (tail : Bool) → Engine → Run Step) : Prop :=
  ∀ w room s r, EndsInside w room (x true) s r →
    ∀ q, EndsInside w room (x false) s q ↔ Completes w room r q

def TakesFuel {α : Type} (x : Engine → Run α) : Prop :=
  ∀ w room {fuel more}, fuel ≤ more →
    moreFuel.Alike Eq (x (.evaluating w fuel room)) (x (.evaluating w more room))

theorem TakesFuel.eq {α : Type} {x : Engine → Run α} (takes : TakesFuel x) {w : World}
    {fuel more : Nat} {room : Option Nat} {s : Store} {r : EStateM.Result Interrupt Store α}
    (finished : Finished r) (ended : x (.evaluating w fuel room) s = r) (less : fuel ≤ more) :
    x (.evaluating w more room) s = r := by
  subst ended
  exact eq_of_moreFuel (takes w room less) finished

theorem takesFuel_eval (expr : Value) (frame : FrameId) (name : Option String) :
    TakesFuel fun m => Step.value <$> m.eval expr frame name :=
  fun w room _ _ less => ((moreFuel_engines w less room).eval expr frame name).mapSame

theorem takesFuel_form (form : SpecialForm) (args : List Value) (frame : FrameId) (tail : Bool) :
    TakesFuel fun m => form.run m args frame tail :=
  fun w room _ _ less => Likeness.runForm (moreFuel_engines w less room) tail frame form args

theorem takesFuel_call (f : Value) (args : List Value) (frame : FrameId) (tail : Bool) :
    TakesFuel fun m => Call.apply m tail f args frame := by
  intro w room fuel more less
  simp only [← Observer.apply_silent]
  refine Likeness.apply (moreFuel_engines w less room) ?_ tail f args frame
  intro p
  exact .pure (.inl whole_moreFuel)

theorem takesFuel_step (expr : Value) (frame : FrameId) (tail : Bool) :
    TakesFuel fun m => step m expr frame tail := by
  intro w room fuel more less
  refine Likeness.stepWith (moreFuel_engines w less room) ?_ expr
  intro f args
  exact takesFuel_call f args frame tail w room less

/-- A computation that evaluates for a value what it leaves open in tail position, with the same
fuel, does so with any fuel that is enough. -/
theorem completesTail_of_finish {x : (tail : Bool) → Engine → Run Step}
    (takes : ∀ tail, TakesFuel (x tail)) (finishes : ∀ m, x false m = x true m >>= m.finish) :
    CompletesTail x := by
  rintro w room s r ⟨finished, n, ended⟩ q
  constructor
  · rintro ⟨finishedValue, k, endedValue⟩
    -- With the greater one of the two amounts of fuel both ends are those of one run.
    have tailEnd := (takes true).eq finished ended (Nat.le_max_left n k)
    have valueEnd := (takes false).eq finishedValue endedValue (Nat.le_max_right n k)
    rw [finishes] at valueEnd
    cases r with
    | error e t =>
      rw [Run.bind_of_error tailEnd] at valueEnd
      subst valueEnd
      exact .error
    | ok step t =>
      rw [Run.bind_of_ok tailEnd] at valueEnd
      cases step with
      | value v =>
        subst valueEnd
        exact .value
      | tail expr frame name => exact .tail ⟨finishedValue, _, valueEnd⟩
  · intro completes
    cases completes with
    | value =>
      refine ⟨finished, n, ?_⟩
      rw [finishes, Run.bind_of_ok ended]
      rfl
    | error =>
      refine ⟨finished, n, ?_⟩
      rw [finishes, Run.bind_of_error ended]
    | tail evaluated =>
      obtain ⟨evaluatedFinished, k, evaluated⟩ := evaluated
      refine ⟨evaluatedFinished, max n k, ?_⟩
      rw [finishes,
        Run.bind_of_ok ((takes true).eq finished ended (Nat.le_max_left n k))]
      exact (takesFuel_eval _ _ _).eq evaluatedFinished evaluated (Nat.le_max_right n k)

/-- Tail position and value position agree: in whole steps, in special forms and in calls. -/
theorem step_completesTail :
    (∀ expr frame, CompletesTail fun tail m => step m expr frame tail) ∧
    (∀ (form : SpecialForm) args frame, CompletesTail fun tail m => form.run m args frame tail) ∧
    ∀ f args frame, CompletesTail fun tail m => Call.apply m tail f args frame := by
  refine ⟨?_, ?_, ?_⟩
  · intro expr frame
    exact completesTail_of_finish (takesFuel_step expr frame) fun m => step_false m expr frame
  · intro form args frame
    exact completesTail_of_finish (takesFuel_form form args frame) fun m =>
      SpecialForm.run_false m frame form args
  · intro f args frame
    exact completesTail_of_finish (takesFuel_call f args frame) fun m =>
      Call.apply_false m f args frame

def callingStore (nextMark : Nat) : Store :=
  { Store.empty with
    frames := #[⟨none, [("apply", .procedure 0), ("eval", .procedure 1), ("list", .procedure 2)]⟩]
    procedures := #[.primitive .apply, .primitive .eval, .primitive .list]
    nextMark }

def quotedSeven : Value := .pair 0 (.symbol "quote") (.pair 1 (.atom (.int 7)) .nil)

def nestedCall : Value :=
  .pair 2 (.symbol "apply") (.pair 3 (.symbol "apply") (.pair 4
    (.pair 5 (.symbol "list") (.pair 6 (.symbol "eval") (.pair 7
      (.pair 8 (.symbol "list") (.pair 9
        (.pair 10 (.symbol "quote") (.pair 11 quotedSeven .nil)) .nil)) .nil))) .nil))

theorem step_completesTail_nestedCall :
    EndsInside bareWorld none (step · nestedCall 0 true) (callingStore 12)
      (.ok (.tail quotedSeven 0 none) (callingStore 15)) ∧
    EndsInside bareWorld none (step · nestedCall 0 false) (callingStore 12)
      (.ok (.value (.atom (.int 7))) (callingStore 15)) := by
  have inTail : EndsInside bareWorld none (step · nestedCall 0 true) (callingStore 12)
      (.ok (.tail quotedSeven 0 none) (callingStore 15)) :=
    ⟨finished_ok _ _, 3, by with_unfolding_all rfl⟩
  have evaluated : evaluate bareWorld 1 none quotedSeven 0 none (callingStore 15) =
      .ok (.atom (.int 7)) (callingStore 15) := by
    with_unfolding_all rfl
  refine ⟨inTail, ?_⟩
  refine (step_completesTail.1 nestedCall 0 bareWorld none _ _ inTail _).mpr (.tail ?_)
  exact ⟨finished_ok _ _, 1, Run.map_of_ok evaluated⟩

end LazyLisp
