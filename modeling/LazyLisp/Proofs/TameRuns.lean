import LazyLisp.Proofs.Running
import LazyLisp.Proofs.SimulatedSessions
import LazyLisp.Proofs.Tameness

/-!
Tameness as a simulation, and every run is tame.

A computation is tame if, with a text in front of the log, it does the same behind the text. So it
simulates itself. The moments are whether arithmetic may have no result.
-/

namespace LazyLisp

/-- The second outcome is the first one with a text in front of the log, with related results or with
an interrupt that is possible. -/
inductive Run.Behind {α β : Type} (arithmetic : Bool) (text : String) (R : α → β → Prop) :
    EStateM.Result Interrupt Store α → EStateM.Result Interrupt Store β → Prop where
  | ok {v w s} : R v w → Behind arithmetic text R (.ok v s) (.ok w (s.logged text))
  | error {e s} : e.Possible arithmetic →
      Behind arithmetic text R (.error e s) (.error e (s.logged text))

def Run.Echoes {α β : Type} (arithmetic : Bool) (R : α → β → Prop) (x : Run α) (y : Run β) : Prop :=
  ∀ text s, Run.Behind arithmetic text R (x s) (y (s.logged text))

namespace Run.Echoes

variable {α β γ δ : Type} {a b : Bool} {R : α → β → Prop} {S : γ → δ → Prop} {x : Run α} {y : Run β}
  {f : α → Run γ} {g : β → Run δ}

theorem throw {e : Interrupt} (possible : e.Possible a) :
    Run.Echoes a R (throw e : Run α) (throw e : Run β) := fun _ _ => .error possible

theorem mono {T : α → β → Prop} (echoes : Run.Echoes a R x y) (implies : ∀ v w, R v w → T v w) :
    Run.Echoes a T x y := by
  intro text s
  have ended := echoes text s
  generalize x s = r at ended
  generalize y (s.logged text) = r' at ended
  cases ended with
  | ok same => exact .ok (implies _ _ same)
  | error possible => exact .error possible

theorem either {handle : Interrupt → Run γ} {handle' : Interrupt → Run δ}
    (first : Run.Echoes b R x y) (rest : ∀ v w, R v w → Run.Echoes a S (f v) (g w))
    (handled : ∀ e, e.Possible b → Run.Echoes a S (handle e) (handle' e)) :
    Run.Echoes a S (x.either f handle) (y.either g handle') := by
  intro text s
  have ended := first text s
  unfold Run.either
  generalize x s = r at ended
  generalize y (s.logged text) = r' at ended
  cases ended with
  | ok same => exact rest _ _ same text _
  | error possible => exact handled _ possible text _

/-- Arithmetic without a result does not get out of a primitive. -/
theorem catchArithmetic {R : Step → Step → Prop} {x y : Run Step} (name : String)
    (tried : Run.Echoes true R x y) :
    Run.Echoes a R (Call.catchArithmetic name x) (Call.catchArithmetic name y) := by
  rw [Call.catchArithmetic_eq_either, Call.catchArithmetic_eq_either]
  refine tried.either (fun v w same text s => .ok same) fun e possible => ?_
  cases e with
  | breakdown b =>
    cases b with
    | arithmetic e => exact .throw trivial
    | _ => exact .throw possible
  | _ => exact .throw possible

end Run.Echoes

namespace Tame

variable {α : Type} {a : Bool} {x : Run α}

theorem echoes {R : α → α → Prop} (tame : Tame a x) (refl : ∀ v, R v v) : Run.Echoes a R x x := by
  intro text s
  rw [tame.blind]
  cases ended : x s with
  | ok v t => exact .ok (refl v)
  | error e t => exact .error (tame.ends s e t ended)

theorem of_echoes {R : α → α → Prop} (echoes : Run.Echoes a R x x) (same : ∀ v w, R v w → v = w) :
    Tame a x where
  ends s e t ended := by
    have behind := echoes "" s
    rw [ended] at behind
    generalize x (s.logged "") = r at behind
    cases behind with
    | error possible => exact possible
  blind text s := by
    have behind := echoes text s
    generalize x s = r at behind
    generalize x (s.logged text) = r' at behind
    cases behind with
    | ok related => rw [same _ _ related]; rfl
    | error _ => rfl

def relations : Relations where
  Moment := Bool
  Later a b := a = true → b = true
  values _ := Eq
  looks _ := Eq
  frames _ _ := True
  callers _ _ := True
  faults _ := Eq
  Traced := True
  refl _ := id
  trans first second outer := second (first outer)
  values_later _ same := same
  looks_later _ same := same
  frames_later _ _ := trivial
  callers_later _ _ := trivial
  faults_later _ same := same
  looks_of_values same := same
  callers_of_frames _ := trivial
  matches_of_looks := by
    rintro _ v _ rfl
    exact Value.matches_self (fun _ => trivial) v
  matches_of_values := by
    rintro _ v _ rfl
    exact Value.matches_self (fun _ => rfl) v
  values_atom _ _ := rfl
  values_error _ _ := rfl
  isSame_eq := by
    rintro _ v _ w _ rfl rfl
    rfl
  kind_eq := congrArg Fault.kind
  value_rel := by
    rintro _ f _ rfl
    exact rel_self fun _ _ => rfl
  source_rel := by
    rintro _ f _ rfl
    exact rel_self fun _ _ => rfl
  trace_rel := by
    rintro _ f _ - rfl
    exact List.forall₂_same.mpr fun _ _ => rfl
  faults_again {_ _ _ summary} same _ := congrArg (·.again summary) same

theorem all_iff {a : Bool} {vs ws : List Value} : relations.All a vs ws ↔ vs = ws :=
  ⟨Relations.eq_of_all fun _ _ => id, fun same => same ▸ Relations.all_self (fun _ => rfl) vs⟩

theorem closures_self (a : Bool) (x : Closure) : relations.Closures a x x :=
  Relations.closures_self (fun _ => rfl) (fun _ => trivial) x

theorem procedures_self (a : Bool) (p : Procedure) : relations.Procedures a p p :=
  Relations.procedures_self (fun _ => rfl) (fun _ => trivial) p

theorem steps_iff {a : Bool} {p q : Step} : relations.Steps a p q ↔ p = q :=
  ⟨Relations.Steps.eq fun _ _ => id,
    fun same => same ▸ Relations.steps_self (fun _ => rfl) (fun _ => trivial) p⟩

def following : Following where
  toRelations := relations
  Follows a R x y := ∀ b, (a = true → b = true) → Run.Echoes b (R b) x y
  possible a e := e.Possible a
  calculating _ := true
  fuels := .same
  possible_overflow _ := trivial
  possible_outOfFuel _ := trivial
  possible_dangling _ := trivial
  possible_tooManyDigits _ := trivial
  possible_fileNotText _ := trivial
  possible_pathRefused _ := trivial
  possible_unencodable _ := trivial
  possible_arithmetic _ _ := rfl
  calculating_later _ _ := rfl
  faults_raised raised := raised.eq fun _ _ => id
  follows_later inner follows b further := follows b (relations.trans inner further)
  follows_pure same b inner _ _ := .ok (same b inner)
  follows_throw _ possible b inner := .throw (possible.inside inner)
  follows_throwFault same b _ := by
    cases same
    exact .throw trivial
  follows_bind first rest b inner := by
    rw [Run.bind_eq_either, Run.bind_eq_either]
    refine (first b inner).either (fun v w same => ?_) fun e possible => .throw possible
    exact rest b inner v w same b id
  follows_handle _ tried faults others _ b inner := by
    refine (tried b inner).either (fun v w same _ _ => .ok same) fun e possible => ?_
    cases e with
    | fault f => exact faults b inner f f rfl b id
    | _ => exact others b inner _ rfl possible b id
  follows_calculation name tried b _ := by
    refine .catchArithmetic name ((tried true id).mono fun p q same => ?_)
    exact steps_iff.mpr (steps_iff.mp same)
  follows_outOfFuel fuels out b _ := by
    rw [out fuels.symm]
    exact .throw trivial

theorem follows {R : Bool → α → α → Prop} (tame : ∀ b, Tame b x) (refl : ∀ b v, R b v v) :
    following.Follows a R x x := fun b _ => (tame b).echoes (refl b)

theorem follows_same (tame : ∀ b, Tame b x) : following.Follows a relations.Same x x :=
  follows tame fun _ _ => rfl

theorem follows_value {x : Run Value} (tame : ∀ b, Tame b x) :
    following.Follows a relations.values x x :=
  follows tame fun _ _ => rfl

theorem follows_look {k : Store → α} (unseen : ∀ text s, k (s.logged text) = k s) :
    following.Follows a relations.Same (do return k (← get) : Run α) (do return k (← get)) :=
  follows_same fun _ => .look (fun text s => by rw [unseen]) fun _ => .pure _

def simulation : Simulation where
  toFollowing := following
  cons := by
    rintro _ car _ cdr _ rfl rfl
    exact follows_value fun _ => .cons car cdr
  listReversed := by
    rintro _ items items' tail _ same rfl
    obtain rfl := all_iff.mp same
    exact follows_value fun _ => .listReversed items tail
  rescue := by
    intro _ args args' same
    obtain rfl := all_iff.mp same
    exact follows (fun _ => (Tame.list _).map) fun _ _ => rfl
  ofDatum _ d := follows_value fun _ => .ofDatum d
  ofNumber _ n := follows_value fun _ => .ofNumber n
  newFrame _ := follows (fun _ => .newFrame _) fun _ _ => ⟨rfl, trivial⟩
  define := by
    rintro _ frame v _ - name rfl
    exact follows_same fun _ => .define frame name v
  find? _ name := follows (fun _ => .find? _ name) fun _ _ =>
    rel_self fun _ _ => ⟨⟨rfl, trivial⟩, rfl⟩
  glance? _ frame name := follows (fun _ => .find? frame name) fun _ _ => rel_self fun _ _ => rfl
  topLevel _ := follows (fun _ => .topLevel _) fun _ _ => ⟨rfl, trivial⟩
  newProcedure same := by
    obtain rfl := same.eq fun _ _ => id
    exact follows_value fun _ => .newProcedure _
  procedure := by
    rintro _ p _ ⟨-⟩
    exact follows (fun _ => .procedure p) procedures_self
  glimpse := by
    rintro _ p _ ⟨-⟩
    refine follows (fun _ => .procedure p) fun b q => ?_
    cases q with
    | expander x => exact .expander (closures_self b x)
    | _ => exact .other rfl rfl
  newLazyPair := by
    rintro _ car _ cdr _ frame rfl rfl -
    exact follows_value fun _ => .newLazyPair _
  newError := by
    rintro _ f _ rfl
    exact follows_same fun _ => .newError f
  errorFault _ ref := follows (fun _ => .errorFault ref) fun _ _ => rfl
  newInput _ p := follows_value fun _ => .newInput p
  input _ ref := follows_look fun _ _ => rfl
  setInput _ ref p := follows_same fun _ => .modify fun _ _ => rfl
  emit _ text := follows_same fun _ => .emit text
  emitError _ text := follows_same fun _ => .emitError text
  gensym _ start := follows_value fun _ => .gensym start
  write := by
    rintro _ v _ rfl room readable
    exact follows_look fun text s => by rw [Store.write_logged]
  inMessage := by
    rintro _ v _ rfl halves room
    exact follows_look fun text s => by rw [Store.inMessage_logged]
  summary := by
    intro _ v w same room kind
    obtain rfl := eq_of_rel (fun _ _ => id) same
    exact follows_look fun text s => by rw [Store.summary_logged]
  report := by
    rintro _ f _ - rfl room
    exact follows_look fun text s => by rw [Store.report_logged]

end Tame

structure TameEngine (m : Engine) : Prop where
  eval : ∀ {a} expr frame name, Tame a (m.eval expr frame name)
  force : ∀ {a} side ref, Tame a (m.force side ref)

namespace TameEngine

variable {m : Engine} {a : Bool}

/-- Evaluation alone decides: forcing a lazy pair evaluates and keeps the value. -/
theorem ofEval (w : World) (fuel : Nat) (room : Option Nat)
    {eval : Value → FrameId → Option String → Run Value}
    (evals : ∀ expr frame name, Tame false (eval expr frame name)) :
    TameEngine (Engine.ofEval w fuel room eval) where
  eval expr frame name := (evals expr frame name).inside nofun
  force side ref := by
    refine (Tame.lazyPair ref).bind fun pair => ?_
    split
    · exact .pure _
    · exact ((evals _ _ _).inside nofun).bind fun _ => (Tame.settle _ _ _).bind fun _ => .pure _

variable (tame : TameEngine m)

include tame

theorem simulated : Tame.simulation.Engines m m where
  world := rfl
  room := rfl
  fuel := rfl
  eval := by
    rintro _ v _ frame rfl - name
    exact Tame.follows_value fun _ => tame.eval v frame name
  force _ side ref := Tame.follows_value fun _ => tame.force side ref

theorem step (expr : Value) (frame : FrameId) (tail : Bool) :
    Tame a (LazyLisp.step m expr frame tail) := by
  refine .of_echoes (Simulation.step (T := Tame.simulation) (c := a) (v := expr) tame.simulated tail
    trivial trivial ?_ rfl a id) fun _ _ => Tame.steps_iff.mp
  refine Simulation.defineValue tame.simulated ?_
  rintro _ p _ ⟨-⟩ name
  exact Tame.follows_same fun _ => .nameProcedure p name

end TameEngine

namespace Tame

variable {a : Bool}

theorem evaluate (w : World) (fuel : Nat) (room : Option Nat) (expr : Value) (frame : FrameId)
    (name : Option String) : Tame a (evaluate w fuel room expr frame name) := by
  suffices outside : Tame false (LazyLisp.evaluate w fuel room expr frame name) from
    outside.inside nofun
  induction fuel generalizing room expr frame name with
  | zero => exact .throw trivial
  | succ fuel ih =>
    cases deeper : descend room with
    | none =>
      have full : LazyLisp.evaluate w (fuel + 1) room expr frame name =
          MonadExcept.throw .overflow := by
        funext s
        rw [LazyLisp.evaluate, deeper]
        rfl
      rw [full]
      exact .throw trivial
    | some inner =>
      have steps : Tame false (step (.evaluating w fuel inner) expr frame true) :=
        (TameEngine.ofEval w fuel inner (ih inner)).step expr frame true
      rw [evaluate_eq_proceed w fuel deeper, proceed_eq_either]
      refine steps.either ?_ ?_
      · intro next
        cases next with
        | value v => exact .pure v
        | tail expr frame name => exact ih room expr frame name
      · intro e possible
        cases e with
        | fault f => exact .throw trivial
        | _ => exact .throw possible

theorem evalForms (room : Option Nat) {eval : Value → Run Value} (evals : ∀ v, Tame a (eval v))
    (input : Input) : Tame a (Run.evalForms room eval input) := by
  refine .of_echoes (Simulation.evalForms (T := simulation) (c := a) room ?_ input a id) ?_
  · rintro b inner v _ rfl d further
    exact ((evals v).inside (relations.trans inner further)).echoes fun _ => rfl
  · rintro ⟨v, count⟩ ⟨w, _⟩ ⟨same, rfl⟩
    rw [show v = w from same]

theorem evaluates (w : World) (fuel : Nat) : simulation.Evaluates
    (LazyLisp.evaluate w fuel w.room) (LazyLisp.evaluate w fuel w.room) where
  eval := by
    rintro _ v _ frame rfl - name
    exact follows_value fun _ => .evaluate w fuel w.room v frame name
  globally follows := follows _ id trivial
  recursion := by
    intro c v w message same
    cases same with
    | some same => rw [show _ = _ from same]; rfl
    | none => rfl

theorem session (w : World) (fuel : Nat) (code : String) : Tame a (Session.eval w fuel code) :=
  .of_echoes (Simulation.evalWith (T := simulation) (c := a) (evaluates w fuel) w code a id)
    fun _ _ => id

end Tame

end LazyLisp
