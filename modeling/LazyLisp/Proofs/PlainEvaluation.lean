import LazyLisp.Proofs.AlikeRuns
import LazyLisp.Proofs.TailPositions

/-!
Going on from step to step means what nested evaluation means.

`evaluate` leaves tail positions to the next step; `evaluatePlain` evaluates them where they stand.
Without a limit on nesting both end in the same way, with stores that are the same: only the forms
that a fault has left are fewer where tail positions leave their form first. A program that never
asks for these forms cannot tell the difference.
-/

namespace LazyLisp

def Interrupt.untraced : Interrupt → Interrupt
  | fault f => fault f.untraced
  | e => e

def Store.untraced (s : Store) : Store := { s with errors := s.errors.map Fault.untraced }

def untraced {α : Type} :
    EStateM.Result Interrupt Store α → EStateM.Result Interrupt Store α
  | .ok a s => .ok a s.untraced
  | .error e s => .error e.untraced s.untraced

/-- A run never calls the procedures that are barred: whatever is done before such a call, the run
is the same. -/
def NeverCalls (barred : Procedure → Bool) (w : World) (room : Option Nat) (expr : Value)
    (frame : FrameId) (name : Option String) (s : Store) : Prop :=
  ∀ act : Procedure → Run Unit, (∀ p, barred p = false → act p = pure ()) →
    ∀ fuel, { Observer.silent with calls := act }.evaluate true w fuel room [] expr frame name s =
      evaluate w fuel room expr frame name s

def butTraces (e : Interrupt) (uncaught : e.Uncaught) : Likeness :=
  { Likeness.exactly with
    faults f g := f.untraced = g.untraced
    aborts d := d = e
    fresh _ _ := rfl
    untraced _ _ same := same
    again _ _ summary same _ := congrArg (·.again summary) same
    uncaught _ same := uncaught.of_eq same
    lost_faults _ _ _ _ _ := rfl }

theorem untraced_leave (f : Fault) (form : Value) (name : Option String) (limit : Int) :
    (f.leave form name limit).untraced = { f.untraced with source := f.source <|> some form } := by
  unfold Fault.leave
  dsimp only
  split <;> rfl

/-- A fault that has left a form knows its source. -/
theorem isSome_source_leave (f : Fault) (form : Value) (name : Option String) (limit : Int) :
    (f.leave form name limit).source.isSome = true := by
  rw [f.source_leave]
  cases f.source <;> rfl

theorem source_of_evaluatePlain {w : World} {fuel : Nat} {room : Option Nat} {expr : Value}
    {frame : FrameId} {name : Option String} {s t : Store} {f : Fault}
    (raised : evaluatePlain w fuel room expr frame name s = .error (.fault f) t) :
    f.source.isSome = true := by
  induction fuel generalizing expr frame name s with
  | zero => cases raised
  | succ fuel ih =>
    rw [evaluatePlain] at raised
    cases deeper : descend room with
    | none =>
      rw [deeper] at raised
      cases raised
    | some inner =>
      simp only [deeper, proceed] at raised
      split at raised
      · cases raised
      · exact ih raised
      · cases raised
        exact isSome_source_leave _ _ _ _
      · next other _ =>
        cases raised
        exact absurd rfl (other f)

/-- Where the source is known, leaving one more form changes nothing but the forms left. -/
theorem untraced_leave_of_isSome {f : Fault} (known : f.source.isSome = true) (form : Value)
    (name : Option String) (limit : Int) : (f.leave form name limit).untraced = f.untraced := by
  obtain ⟨source, same⟩ := Option.isSome_iff_exists.mp known
  have kept : (f.source <|> some form) = f.source := by rw [same]; rfl
  rw [untraced_leave, kept]
  rfl

/-- Faults that differ in the forms they have left only, and that leave the same form, do so
again. -/
theorem leaves_butTraces {e : Interrupt} {uncaught : e.Uncaught} (limit : Int) :
    (butTraces e uncaught).Leaves limit := by
  intro f g form name same
  change (f.leave form name limit).untraced = (g.leave form name limit).untraced
  rw [untraced_leave, untraced_leave, Likeness.source_eq same, show f.untraced = g.untraced from same]

section Simulation

variable {e : Interrupt} (uncaught : e.Uncaught)

def barring (e : Interrupt) : Observer :=
  { Observer.silent with calls := fun p => if p.showsTrace then throw e else pure () }

theorem calls_barring :
    (butTraces e uncaught).Calls (barring e) Observer.silent := by
  intro p
  change Likeness.Alike _ _ (if p.showsTrace then throw e else pure ()) _
  cases shows : p.showsTrace with
  | true => exact .aborting rfl
  | false => exact .pure (.inr rfl)

theorem proceed_sourced {x y : Run Value} (same : (butTraces e uncaught).Alike Eq x y)
    (sourced : ∀ s f t, y s = .error (.fault f) t → f.source.isSome = true) (limit : Int)
    (next : Value → FrameId → Option String → Run Value) (expr : Value) (name : Option String) :
    (butTraces e uncaught).Alike Eq x (proceed limit next expr name (.value <$> y)) := by
  refine ⟨?_, fun _ lost => lost.elim⟩
  intro s t stores
  have ended := same.outcomes s t stores
  have sources := sourced t
  simp only [proceed, Functor.map, EStateM.map]
  generalize x s = p at ended
  generalize y t = q at ended sources
  cases ended with
  | ok same last =>
    subst same
    exact .ok rfl last
  | @error d d' _ _ same last =>
    cases same with
    | @fault f g same =>
      refine .error (.fault ?_) last
      exact Eq.trans same (untraced_leave_of_isSome (sources g _ rfl) _ _ _).symm
    | same plain =>
      cases d with
      | fault f => cases plain
      | _ => exact .error (.same rfl) last
  | lost lost => exact .lost lost

/-- What a step leaves open may be evaluated by the next step or inside the step itself. -/
theorem proceed_finish {m : Engine} {next next' : Value → FrameId → Option String → Run Value}
    (nexts : ∀ expr frame name, (butTraces e uncaught).Alike Eq
      (next expr frame name) (m.eval expr frame name))
    (sourced : ∀ expr frame name s f t, m.eval expr frame name s = .error (.fault f) t →
      f.source.isSome = true)
    {x y : Run Step} (steps : (butTraces e uncaught).Alike Eq x y)
    (limit : Int) (expr : Value) (name : Option String) :
    (butTraces e uncaught).Alike Eq (proceed limit next expr name x)
      (proceed limit next' expr name (y >>= m.finish)) := by
  have finished : proceed limit next' expr name (y >>= m.finish) =
      y.either (fun step => proceed limit next' expr name (m.finish step))
        (leaving limit expr name) := by
    funext s
    rw [Run.bind_eq_either]
    unfold proceed Run.either
    cases y s with
    | ok step s => rfl
    | error e s => cases e <;> rfl
  rw [proceed_eq_either, finished]
  refine steps.leave ?_ (leaves_butTraces limit) expr name
  rintro step _ rfl
  cases step with
  | value v => exact .same
  | tail inner frame inName =>
    exact proceed_sourced uncaught (nexts inner frame inName) (sourced inner frame inName) _ _ _ _

theorem alike_evaluatePlain (w : World) (fuel : Nat) (busy : List Half) (expr : Value)
    (frame : FrameId) (name : Option String) :
    (butTraces e uncaught).Alike Eq
      ((barring e).evaluate true w fuel none busy expr frame name)
      (evaluatePlain w fuel none expr frame name) := by
  induction fuel generalizing busy expr frame name with
  | zero => exact .throw rfl
  | succ fuel ih =>
    have alike : (butTraces e uncaught).Engines
        ((barring e).engine w fuel none ((barring e).evaluate true w fuel none) busy)
        (.ofEval w fuel none (evaluatePlain w fuel none)) := by
      refine ⟨rfl, rfl, .inl rfl, ih busy, ?_⟩
      intro side ref
      have forced : (barring e).force ((barring e).evaluate true w fuel none) busy side ref =
          Engine.forceWith ((barring e).evaluate true w fuel none (⟨side, ref⟩ :: busy)) side ref :=
        Observer.force_silent _ busy side ref
      rw [Observer.engine_force, forced]
      refine Likeness.forceWith (ih _) ?_ side ref
      intro h pairs expr frame _ _
      exact ⟨fun _ _ _ => trivial, fun _ _ _ _ lost => lost⟩
    rw [(barring e).evaluate_succ true w fuel rfl, evaluatePlain_succ w fuel rfl, step_false, step,
      ← Observer.apply_silent]
    refine proceed_finish uncaught (ih busy) ?_ ?_ w.traceLimit expr name
    · intro expr frame name s f t
      exact source_of_evaluatePlain
    · refine Likeness.stepWith alike (fun _ _ => ?_) expr
      exact Likeness.apply alike (calls_barring uncaught) _ _ _ _

theorem untraced_of_outcomes {α : Type} {r r' : EStateM.Result Interrupt Store α}
    (ended : (butTraces e uncaught).Outcomes Eq r r') (other : ∀ s, r ≠ .error e s) :
    untraced r = untraced r' := by
  have stores {s t : Store} (alike : (butTraces e uncaught).Stores s t) :
      s.untraced = t.untraced := by
    cases alike with
    | @intro later errors _ =>
      have same : s.errors.map Fault.untraced = later.map Fault.untraced := by
        refine Array.ext_getElem? fun ref => ?_
        rw [Array.getElem?_map, Array.getElem?_map]
        exact errors.map Fault.untraced (fun _ _ same => same) ref
      exact congrArg (fun errors => { s with errors }) same
  cases ended with
  | ok same later => rw [same, untraced, untraced, stores later]
  | error same later =>
    rw [untraced, untraced, stores later]
    cases same with
    | @fault f g same => rw [Interrupt.untraced, show f.untraced = g.untraced from same]; rfl
    | same _ => rfl
  | lost lost =>
    obtain ⟨d, s, gaveUp, aborts⟩ := lost.aborts fun _ _ _ => id
    rw [show d = e from aborts] at gaveUp
    exact absurd gaveUp (other s)

end Simulation

theorem untraced_evaluate {w : World} {expr : Value} {frame : FrameId} {name : Option String}
    {s : Store} (never : NeverCalls Procedure.showsTrace w none expr frame name s) (fuel : Nat) :
    untraced (evaluate w fuel none expr frame name s) =
      untraced (evaluatePlain w fuel none expr frame name s) := by
  -- The run is ended, where a trace is asked for, by an interrupt that it does not end in itself.
  obtain ⟨e, uncaught, other⟩ := exists_uncaught (evaluate w fuel none expr frame name s)
  have ended :=
    (alike_evaluatePlain uncaught w fuel [] expr frame name).outcomes s s
      (.refl (fun _ => rfl) trivial)
  have same : (barring e).evaluate true w fuel none [] expr frame name s =
      evaluate w fuel none expr frame name s := by
    refine never _ ?_ fuel
    intro p hidden
    simp [hidden]
  rw [same] at ended
  exact untraced_of_outcomes uncaught ended other

theorem finished_of_untraced {α : Type} {r r' : EStateM.Result Interrupt Store α}
    (same : untraced r = untraced r') (finished : Finished r) : Finished r' := by
  rintro s rfl
  cases r with
  | ok a t => simp [untraced] at same
  | error e t =>
    cases e <;> simp [untraced, Interrupt.untraced] at same
    exact finished t rfl

/-- Evaluation from step to step ends if and only if nested evaluation does, and then both end in the
same way: with the same value, or with faults that differ at most in the forms they have left, and
with stores of which the same holds. -/
theorem evaluate_means_evaluatePlain (w : World) (expr : Value) (frame : FrameId)
    (name : Option String) (s : Store)
    (never : NeverCalls Procedure.showsTrace w none expr frame name s) :
    ((∃ fuel, Finished (evaluate w fuel none expr frame name s)) ↔
      ∃ fuel, Finished (evaluatePlain w fuel none expr frame name s)) ∧
    ∀ n k, Finished (evaluate w n none expr frame name s) →
      Finished (evaluatePlain w k none expr frame name s) →
      untraced (evaluate w n none expr frame name s) =
        untraced (evaluatePlain w k none expr frame name s) := by
  have same := untraced_evaluate never
  refine ⟨⟨?_, ?_⟩, ?_⟩
  · rintro ⟨fuel, finished⟩
    exact ⟨fuel, finished_of_untraced (same fuel) finished⟩
  · rintro ⟨fuel, finished⟩
    exact ⟨fuel, finished_of_untraced (same fuel).symm finished⟩
  · intro n k finished finishedPlain
    rw [← evaluate_of_le finished (Nat.le_max_left n k),
      ← evaluatePlain_of_le finishedPlain (Nat.le_max_right n k)]
    exact same (max n k)

def caughtInTail : Value :=
  (Value.ofDatum 0 (Datum.list [.symbol "catch-error",
    Datum.list [.symbol "if", .atom (.int 1), Datum.list [.symbol "quote"], .atom (.int 2)]])).1

theorem evaluate_means_evaluatePlain_caughtInTail :
    NeverCalls Procedure.showsTrace bareWorld none caughtInTail 0 none .empty ∧
    Finished (evaluate bareWorld 3 none caughtInTail 0 none .empty) ∧
    Finished (evaluatePlain bareWorld 4 none caughtInTail 0 none .empty) ∧
    untraced (evaluate bareWorld 3 none caughtInTail 0 none .empty) =
      untraced (evaluatePlain bareWorld 4 none caughtInTail 0 none .empty) := by
  have never : NeverCalls Procedure.showsTrace bareWorld none caughtInTail 0 none .empty := by
    intro act _ fuel
    match fuel with
    | 0 | 1 | 2 | n + 3 => rfl
  have finished : Finished (evaluate bareWorld 3 none caughtInTail 0 none .empty) := by
    rintro s ⟨⟩
  have finishedPlain : Finished (evaluatePlain bareWorld 4 none caughtInTail 0 none .empty) := by
    rintro s ⟨⟩
  exact ⟨never, finished, finishedPlain,
    (evaluate_means_evaluatePlain bareWorld caughtInTail 0 none .empty never).2 3 4 finished
      finishedPlain⟩

end LazyLisp
