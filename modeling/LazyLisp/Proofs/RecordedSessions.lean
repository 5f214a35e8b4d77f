import LazyLisp.Proofs.Traceback

/-!
Sessions and complete runs.

Beside every session there is a complete run: a session goes on by evaluations, and whatever else it
does leaves the errors alone. So whatever a session evaluates accounts for the forms that its faults
have left.
-/

namespace LazyLisp

/-- Wherever a complete run can be told beforehand, one can be told afterwards. -/
def Run.StaysRecorded {α : Type} (w : World) (x : Run α) : Prop :=
  ∀ s s', Recorded w s s' → ∃ t', Recorded w (after (x s)) t'

namespace Run.StaysRecorded

variable {w : World} {α β : Type} {x : Run α} {f : α → Run β}

theorem of_reads (reads : x.Reads) : StaysRecorded w x :=
  fun s _ recorded => ⟨_, recorded.changed (reads.errors s)⟩

theorem bind (first : StaysRecorded w x) (rest : ∀ a, StaysRecorded w (f a)) :
    StaysRecorded w (x >>= f) := by
  intro s s' recorded
  obtain ⟨t', later⟩ := first s s' recorded
  change ∃ t', Recorded w (after (EStateM.bind x f s)) t'
  unfold EStateM.bind
  cases ended : x s with
  | ok a t =>
    rw [ended] at later
    exact rest a t t' later
  | error e t =>
    rw [ended] at later
    exact ⟨t', later⟩

theorem forIn {f : α → β → Run (ForInStep β)} (each : ∀ a b, StaysRecorded w (f a b)) (init : β)
    (items : List α) : StaysRecorded w (forIn items init f) := by
  induction items generalizing init with
  | nil => exact of_reads (.pure _)
  | cons a rest ih =>
    rw [List.forIn_cons]
    refine (each a init).bind fun step => ?_
    cases step with
    | done b => exact of_reads (.pure _)
    | yield b => exact ih b

theorem evaluate (w : World) (fuel : Nat) (room : Option Nat) (expr : Value) (frame : FrameId)
    (name : Option String) : StaysRecorded w (LazyLisp.evaluate w fuel room expr frame name) := by
  intro s s' recorded
  rw [← evaluateWatched_pure]
  exact ⟨_, recorded.evaluated fuel room expr frame name onlyLooks_pure⟩

theorem catchOverflow {x : Run Value} (tried : StaysRecorded w x) (fault : Fault) :
    StaysRecorded w (Session.catchOverflow x fault) := by
  intro s s' recorded
  obtain ⟨t', later⟩ := tried s s' recorded
  refine ⟨t', ?_⟩
  rw [Session.catchOverflow]
  split
  · next ended =>
    rw [ended] at later
    exact later
  · exact later

theorem log (l : Logging) (level : LogLevel) (origin : String) (message : Unit → String) :
    StaysRecorded w (Run.log l level origin message) := by
  refine of_reads ?_
  unfold Run.log
  split
  · exact .modifyGet fun _ => rfl
  · exact .pure _

theorem define (frame : FrameId) (name : String) (v : Value) :
    StaysRecorded w (Run.define frame name v) := of_reads (.modifyGet fun _ => rfl)

theorem evalForms (room : Option Nat) {eval : Value → Run Value}
    (evals : ∀ form, StaysRecorded w (eval form)) (input : Input) :
    StaysRecorded w (Run.evalForms room eval input) := by
  refine (forIn ?_ _ _).bind fun result => ?_
  · intro d result
    refine bind (of_reads (.modifyGet fun _ => rfl)) fun form => ?_
    exact (evals form).bind fun _ => of_reads (.pure _)
  · split
    · refine of_reads ?_
      unfold Run.readFailure
      split
      · exact .throwFresh (.raised rfl rfl rfl)
      · exact .throw rfl
      · exact .throw rfl
    · exact of_reads (.pure _)

theorem loadText (fuel : Nat) (name : String) (text : List Char) (frame : FrameId) :
    StaysRecorded w (Load.text w w.room (Session.evalIn w fuel) name text frame) := by
  refine (log _ _ _ _).bind fun _ => (of_reads (.look fun _ => .pure _)).bind fun top => ?_
  refine (evalForms _ (fun form => evaluate w fuel w.room form top none) _).bind ?_
  rintro ⟨result, count⟩
  exact (log _ _ _ _).bind fun _ => of_reads (.pure _)

theorem ofSystem (said : Except Breakdown α) : StaysRecorded w (Run.ofSystem said) := by
  cases said with
  | ok a => exact of_reads (.pure a)
  | error b => exact of_reads (.throw rfl)

theorem loadFile (fuel : Nat) (path : Path) (shown : String) (frame : FrameId) :
    StaysRecorded w (Load.file w w.room (Session.evalIn w fuel) path shown frame) := by
  refine (ofSystem _).bind fun found => ?_
  match found with
  | none => exact of_reads (.fail _ _)
  | some (_, .error reason) => exact of_reads (.fail _ _)
  | some (_, .ok bytes) => exact (ofSystem _).bind fun _ => loadText fuel _ _ frame

theorem session (w : World) (fuel : Nat) (code : String) :
    StaysRecorded w (Session.eval w fuel code) := by
  refine (evalForms _ ?_ _).bind fun _ => of_reads (.pure _)
  exact fun form => (evaluate w fuel w.room form _ none).catchOverflow _

theorem load (w : World) (fuel : Nat) (path : Path) (shown : String) :
    StaysRecorded w (Session.load w fuel path shown) :=
  (loadFile fuel path shown _).catchOverflow _

theorem bindPrimitives (input : String) : StaysRecorded w (Session.bindPrimitives input) := by
  refine (forIn ?_ _ _).bind fun _ => (define _ _ _).bind fun _ => (define _ _ _).bind fun _ =>
    (define _ _ _).bind fun _ => bind (of_reads (.modifyGet fun _ => rfl)) fun _ => define _ _ _
  intro p _
  refine bind (of_reads (.modifyGet fun _ => rfl)) fun _ => ?_
  exact (define _ _ _).bind fun _ => of_reads (.pure _)

theorem start (w : World) (fuel : Nat) (settings : Settings) (prelude : PreludeChoice)
    (input : String) : StaysRecorded w (Session.start w fuel settings prelude input) := by
  refine (bindPrimitives input).bind fun _ => ?_
  cases prelude with
  | settled =>
    refine (ofSystem _).bind fun place => ?_
    cases place with
    | standard =>
      refine (loadText fuel Prelude.name Prelude.source.toList Store.globalFrame).bind ?_
      exact fun _ => of_reads (.pure _)
    | directory root =>
      refine (ofSystem _).bind fun there => ?_
      split
      · exact (loadFile fuel _ _ _).bind fun _ => of_reads (.pure _)
      · exact log _ _ _ _
  | none => exact of_reads (.pure _)
  | text source =>
    refine (evalForms _ (fun form => ?_) _).bind fun _ => of_reads (.pure _)
    exact evaluate w fuel w.room form _ none

end Run.StaysRecorded

/-- The stores that a session comes to from text to text and from file to file. -/
inductive Session.Stage (w : World) : Store → Prop where
  | start (fuel settings prelude input) :
      Stage w (after (Session.start w fuel settings prelude input .empty))
  | eval {s} (fuel code) : Stage w s → Stage w (after (Session.eval w fuel code s))
  | load {s} (fuel path shown) : Stage w s → Stage w (after (Session.load w fuel path shown s))

/-- Beside every session there is a complete run. -/
theorem Session.Stage.recorded {w : World} {s : Store} (stage : Session.Stage w s) :
    ∃ s', Recorded w s s' := by
  induction stage with
  | start fuel settings prelude input =>
    exact Run.StaysRecorded.start w fuel settings prelude input _ _ (.start rfl)
  | eval fuel code _ ih =>
    obtain ⟨s', recorded⟩ := ih
    exact Run.StaysRecorded.session w fuel code _ s' recorded
  | load fuel path shown _ ih =>
    obtain ⟨s', recorded⟩ := ih
    exact Run.StaysRecorded.load w fuel path shown _ s' recorded

end LazyLisp
