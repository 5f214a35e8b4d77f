import LazyLisp.Proofs.SimulatedSteps

/-!
Sessions follow each other if evaluation does.
-/

namespace LazyLisp

namespace Simulation

open Following

/-- Evaluation follows evaluation, and may be done in the global frame. -/
structure Evaluates (T : Simulation)
    (evaluate evaluate' : Value → FrameId → Option String → Run Value) : Prop where
  eval : ∀ {c v w frame}, T.values c v w → T.frames c frame → ∀ name,
    T.Follows c T.values (evaluate v frame name) (evaluate' w frame name)
  globally : ∀ {α : Type} {c} {R : T.Moment → α → α → Prop} {x y : Run α},
    (∀ d, T.Later c d → T.frames d Store.globalFrame → T.Follows d R x y) → T.Follows c R x y
  recursion : ∀ {c v w} (message : String), Option.Rel (T.values c) v w →
    T.faults c (Session.recursionFault message v) (Session.recursionFault message w)

variable {T : Simulation} {c : T.Moment}

theorem catchOverflow {x y : Run Value} (tried : T.Follows c T.values x y) {f g : Fault}
    (faults : T.faults c f g) :
    T.Follows c T.values (Session.catchOverflow x f) (Session.catchOverflow y g) := by
  rw [Session.catchOverflow_eq_either, Session.catchOverflow_eq_either]
  refine T.follows_handle T.stable_values tried
    (fun d later f g faults => T.follows_throwFault faults) ?_ ?_
  · intro d later e plain possible
    cases e with
    | fault f => cases plain
    | overflow => exact T.follows_throwFault (T.faults_later later faults)
    | _ => exact T.follows_throw rfl possible
  · intro e uncaught
    cases e with
    | overflow => exact absurd rfl uncaught.overflow
    | _ => rfl

variable {evaluate evaluate' : Value → FrameId → Option String → Run Value}

theorem evalWith (evaluates : T.Evaluates evaluate evaluate') (world : World) (code : String) :
    T.Follows c T.values (Session.evalWith world evaluate code)
      (Session.evalWith world evaluate' code) := by
  refine (evalForms world.room ?_ _).bind fun d later p q known => .value known.1
  intro d later v w known
  refine catchOverflow ?_ (evaluates.recursion _ (.some known))
  exact evaluates.globally fun e further shown =>
    evaluates.eval (T.values_later further known) shown none

theorem bindPrimitives (evaluates : T.Evaluates evaluate evaluate') (input : String) :
    T.Follows c T.Same (Session.bindPrimitives input) (Session.bindPrimitives input) := by
  refine evaluates.globally fun d later shown => ?_
  unfold Session.bindPrimitives
  refine (forIn (P := T.Same) (R := fun d _ _ => T.frames d Store.globalFrame)
    (fun _ _ _ _ _ => id) (fun _ _ _ _ => T.frames_later) (List.forall₂_same.mpr fun _ _ => rfl) ?_
    shown).bind fun e further _ _ shown => ?_
  · rintro e further p _ _ _ rfl shown
    refine (T.newProcedure (.primitive p)).bind fun f last v w values => ?_
    have shown := T.frames_later last shown
    refine (T.define shown _ values).andThen fun g latest _ => .pure fun h more => ?_
    exact ⟨_, _, rfl, rfl, T.frames_later (T.trans latest more) shown⟩
  · refine (T.define shown _ (T.values_atom e _)).andThen fun f last _ => ?_
    have shown := T.frames_later last shown
    refine (T.define shown _ (T.values_atom f _)).andThen fun g latest _ => ?_
    have shown := T.frames_later latest shown
    refine (T.define shown _ (T.values_atom g _)).andThen fun h more _ => ?_
    have shown := T.frames_later more shown
    exact (T.newInput h _).bind fun i afterwards v w values =>
      T.define (T.frames_later afterwards shown) _ values

section Starting

variable {world : World} {fuel : Nat} (evaluates : T.Evaluates (LazyLisp.evaluate world fuel world.room)
  (LazyLisp.evaluate world fuel world.room))

include evaluates

theorem load (path : Path) (shown : String) :
    T.Follows c T.values (Session.load world fuel path shown)
      (Session.load world fuel path shown) := by
  refine catchOverflow ?_ (evaluates.recursion _ .none)
  refine evaluates.globally fun d later inside => ?_
  refine loadFile world world.room ?_ (T.callers_of_frames inside) path shown
  exact fun e further v w frame known shown => evaluates.eval known shown none

theorem loadPrelude (broken : ∀ c b, T.possible c (.breakdown b)) (settings : Settings) :
    T.Follows c T.Same (Session.loadPrelude world fuel settings)
      (Session.loadPrelude world fuel settings) := by
  have said {α : Type} {d : T.Moment} (x : Except Breakdown α) :
      T.Follows d T.Same (Run.ofSystem x) (Run.ofSystem x) :=
    ofSystem x fun b _ => broken d b
  refine evaluates.globally fun d later shown => (said _).andThen fun e further place => ?_
  have called := T.callers_of_frames (T.frames_later further shown)
  have evals : ∀ f v w frame, T.values f v w → T.frames f frame →
      T.Follows f T.values (Session.evalIn world fuel v frame)
        (Session.evalIn world fuel w frame) :=
    fun f v w frame known shown => evaluates.eval known shown none
  cases place with
  | standard =>
    refine (loadText world world.room (fun f _ => evals f) called _ _).bind ?_
    exact fun _ _ _ _ _ => .same
  | directory root =>
    refine (said _).andThen fun f last found => .ite (fun _ => ?_) fun _ => log _ _ _ _
    have called := T.callers_later last called
    refine (loadFile world world.room (fun f _ => evals f) called _ _).bind ?_
    exact fun _ _ _ _ _ => .same

theorem start (broken : ∀ c b, T.possible c (.breakdown b)) (settings : Settings)
    (prelude : PreludeChoice) (input : String) :
    T.Follows c T.Same (Session.start world fuel settings prelude input)
      (Session.start world fuel settings prelude input) := by
  refine (bindPrimitives evaluates input).andThen fun d later _ => ?_
  cases prelude with
  | settled => exact loadPrelude evaluates broken settings
  | none => exact .same
  | text source =>
    refine (evalForms world.room ?_ _).bind fun _ _ _ _ _ => .same
    exact fun e further v w known => evaluates.globally fun f last shown =>
      evaluates.eval (T.values_later last known) shown none

end Starting

end Simulation

end LazyLisp
