import LazyLisp.Proofs.PlainEvaluation
import LazyLisp.Proofs.Yielding

/-!
Bodies of several forms. Whichever expression stands for a body, its evaluation is that of the forms
in their order, but for the forms that a fault leaves on its way out; and a text in front of more
forms makes no difference.
-/

namespace LazyLisp

def withoutTrace {α : Type} : EStateM.Result Interrupt Store α → EStateM.Result Interrupt Store α
  | .error e s => .error e.untraced s
  | result => result

def Run.Sourced {α : Type} (x : Run α) : Prop :=
  ∀ s f t, x s = .error (.fault f) t → f.source.isSome = true

namespace Run.Sourced

variable {α β : Type} {x : Run α}

theorem pure (a : α) : (Pure.pure a : Run α).Sourced := nofun

theorem bind (first : x.Sourced) {f : α → Run β} (rest : ∀ a, (f a).Sourced) :
    (x >>= f).Sourced := by
  intro s g t failed
  rcases Run.of_bind_error failed with failed | ⟨a, u, -, failed⟩
  · exact first s g t failed
  · exact rest a u g t failed

theorem mapM {f : β → Run α} (each : ∀ b, (f b).Sourced) (items : List β) :
    (items.mapM f).Sourced := by
  induction items with
  | nil => exact .pure []
  | cons b items ih =>
    rw [List.mapM_cons]
    exact (each b).bind fun a => ih.bind fun as => .pure _

theorem evaluate (w : World) (fuel : Nat) (room : Option Nat) (expr : Value) (frame : FrameId)
    (name : Option String) : (LazyLisp.evaluate w fuel room expr frame name).Sourced := by
  induction fuel generalizing expr frame name with
  | zero => nofun
  | succ fuel ih =>
    intro s f t failed
    cases deeper : descend room with
    | none =>
      rw [LazyLisp.evaluate, deeper] at failed
      cases failed
    | some inner =>
      rw [evaluate_eq_proceed w fuel deeper, proceed] at failed
      split at failed
      · cases failed
      · exact ih _ _ _ _ _ _ failed
      · cases failed
        exact isSome_source_leave _ _ _ _
      · next other _ =>
        cases failed
        exact absurd rfl (other f)

/-- Once it has left a form, a fault may leave more. -/
theorem withoutTrace_leaving {e : Interrupt} {s t : Store} (sourced : x.Sourced)
    (failed : x s = .error e t) (limit : Int) (expr : Value) (name : Option String) :
    withoutTrace (leaving limit expr name e t) = .error e.untraced t := by
  cases e with
  | fault f =>
    change EStateM.Result.error (Interrupt.fault (f.leave expr name limit).untraced) t = _
    rw [untraced_leave_of_isSome (sourced s f t failed)]
    rfl
  | _ => rfl

theorem withoutTrace_either (sourced : x.Sourced) (next : α → Run Value) (limit : Int)
    (expr : Value) (name : Option String) (s : Store) :
    withoutTrace (x.either next (leaving limit expr name) s) = withoutTrace ((x >>= next) s) := by
  cases ended : x s with
  | ok a t =>
    rw [Run.bind_of_ok ended, Run.either, ended]
  | error e t =>
    rw [Run.bind_of_error ended, Run.either, ended]
    exact sourced.withoutTrace_leaving ended limit expr name

end Run.Sourced

theorem finished_withoutTrace {α : Type} {r r' : EStateM.Result Interrupt Store α}
    (same : withoutTrace r = withoutTrace r') (finished : Finished r) : Finished r' := by
  rintro s rfl
  cases r with
  | ok a t => cases same
  | error e t =>
    cases e with
    | outOfFuel => exact finished t rfl
    | _ => cases same

def evaluateForms (w : World) (fuel : Nat) (room : Option Nat) (forms : List Value)
    (frame : FrameId) : Run Value :=
  SpecialForm.runSequence (.evaluating w fuel (lower 1 room)) true frame forms >>= finish w fuel room

inductive IsBody : List Value → Value → Prop where
  | empty : IsBody [] .nil
  | one {form} : IsBody [form] form
  | several {first second rest v} :
      Spine v (.symbol "begin" :: first :: second :: rest) .nil → IsBody (first :: second :: rest) v

theorem exists_bodyExpr (forms : List Value) (s : Store) : ∃ body count, IsBody forms body ∧
    bodyExpr forms s = .ok body { s with nextMark := s.nextMark + count } := by
  match forms with
  | [] => exact ⟨_, 0, .empty, rfl⟩
  | [form] => exact ⟨_, 0, .one, rfl⟩
  | first :: second :: forms =>
    obtain ⟨body, spine, made⟩ := list_spine (.symbol "begin" :: first :: second :: forms) s
    exact ⟨body, _, .several spine, made⟩

section Forms

variable {w : World} {fuel : Nat} {room : Option Nat} {frame : FrameId} {s : Store}

theorem sourced_runSequence (w : World) (fuel : Nat) (room : Option Nat) (frame : FrameId)
    (forms : List Value) :
    (SpecialForm.runSequence (.evaluating w fuel room) true frame forms).Sourced := by
  match forms with
  | [] => exact .pure _
  | [last] => exact .pure _
  | first :: second :: forms =>
    exact (Run.Sourced.evaluate _ _ _ _ _ _).bind fun _ =>
      sourced_runSequence w fuel room frame (second :: forms)

theorem evaluateForms_of_le {forms : List Value}
    (finished : Finished (evaluateForms w fuel room forms frame s)) {more : Nat}
    (less : fuel ≤ more) :
    evaluateForms w more room forms frame s = evaluateForms w fuel room forms frame s := by
  refine eq_of_moreFuel ?_ finished
  have alike := Likeness.runSequence (moreFuel_engines w less (lower 1 room)) true frame forms
  refine alike.andThen fun step => ?_
  cases step with
  | value v => exact .same
  | tail expr frame name => exact (moreFuel_engines w less room).eval expr frame name

/-- A text in front of more forms has no effect. -/
theorem evaluateForms_splitDoc (fits : Fits 2 room) (forms : List Value) :
    evaluateForms w fuel room (splitDoc forms).2 frame s =
      evaluateForms w fuel room forms frame s := by
  unfold splitDoc
  split
  · next doc form forms =>
    cases fuel with
    | zero =>
      have out : evaluateForms w 0 room (form :: forms) frame s = .error .outOfFuel s := by
        cases forms <;> rfl
      rw [out]
      rfl
    | succ fuel =>
      have passed : evaluate w (fuel + 1) (lower 1 room) (.string doc) frame none s =
          .ok (.string doc) s := evaluate_of_value fits.lower.descend rfl
      have behind : evaluateForms w (fuel + 1) room (.string doc :: form :: forms) frame =
          (evaluate w (fuel + 1) (lower 1 room) (.string doc) frame none >>= fun _ =>
            evaluateForms w (fuel + 1) room (form :: forms) frame) := bind_assoc _ _ _
      exact ((congrFun behind s).trans (Run.bind_of_ok passed)).symm
  · rfl

variable {forms : List Value} {body : Value}

/-- With one more step than its forms take, a body of any number of forms but one. -/
theorem evaluate_body_succ (fits : Fits 1 room) (isBody : IsBody forms body)
    (others : forms.length ≠ 1) (name : Option String) :
    withoutTrace (evaluate w (fuel + 1) room body frame name s) =
      withoutTrace (evaluateForms w fuel room forms frame s) := by
  cases isBody with
  | empty =>
    rw [evaluate_of_value (t := s) (v := .nil) fits.descend rfl]
    rfl
  | one => exact absurd rfl others
  | @several first second forms _ spine =>
    rw [evaluate_eq_proceed w fuel fits.descend, proceed_eq_either]
    have stepped : step (.evaluating w fuel (lower 1 room)) body frame true =
        SpecialForm.runSequence (.evaluating w fuel (lower 1 room)) true frame
          (first :: second :: forms) := funext (step_of_spine rfl spine _ frame true)
    rw [stepped, (sourced_runSequence w fuel _ frame _).withoutTrace_either]
    refine congrArg withoutTrace (congrFun (bind_congr fun step => ?_) s)
    cases step <;> rfl

/-- Where a body has an end, so do its forms. -/
theorem evaluateForms_of_body (fits : Fits 1 room) (isBody : IsBody forms body)
    (finished : Finished (evaluate w fuel room body frame none s)) :
    withoutTrace (evaluateForms w fuel room forms frame s) =
      withoutTrace (evaluate w fuel room body frame none s) := by
  by_cases alone : forms.length = 1
  · obtain ⟨form, rfl⟩ := List.length_eq_one_iff.mp alone
    cases isBody
    rfl
  · cases fuel with
    | zero => exact absurd rfl (finished s)
    | succ fuel =>
      have same : withoutTrace (evaluate w (fuel + 1) room body frame none s) =
          withoutTrace (evaluateForms w fuel room forms frame s) :=
        evaluate_body_succ fits isBody alone none
      rw [evaluateForms_of_le (finished_withoutTrace same finished) (Nat.le_succ fuel), same]

/-- Where forms have an end, so does their body. -/
theorem body_of_evaluateForms (fits : Fits 1 room) (isBody : IsBody forms body)
    (finished : Finished (evaluateForms w fuel room forms frame s)) :
    withoutTrace (evaluate w (fuel + 1) room body frame none s) =
      withoutTrace (evaluateForms w fuel room forms frame s) := by
  by_cases alone : forms.length = 1
  · obtain ⟨form, rfl⟩ := List.length_eq_one_iff.mp alone
    cases isBody
    exact congrArg withoutTrace (evaluate_of_le finished (Nat.le_succ fuel))
  · exact evaluate_body_succ fits isBody alone none

end Forms

end LazyLisp
