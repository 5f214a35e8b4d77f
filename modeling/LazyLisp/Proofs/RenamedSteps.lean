import LazyLisp.Proofs.RenamedTexts
import LazyLisp.Proofs.SimulatedSessions

/-!
A renaming as a simulation. What is done with an engine that takes no notice of names takes no notice
of them either: walking along lists, expanding forms, loading files, calls, special forms and steps.
-/

namespace LazyLisp

namespace Renaming

/-- The engine evaluates and forces what is renamed as it does what is not. -/
structure Blind (ρ : Renaming) (m : Engine) : Prop where
  eval : ∀ {c v w}, (ρ.upTo c).Values v w → ∀ frame name,
    ρ.Follows c Values (m.eval v frame name) (m.eval w frame name)
  force : ∀ c side ref, ρ.Follows c Values (m.force side ref) (m.force side ref)

namespace Le

variable {ρ σ τ : Renaming}

theorem refl (ρ : Renaming) : ρ.Le ρ := ⟨id, id⟩

theorem trans (first : ρ.Le σ) (second : σ.Le τ) : ρ.Le τ :=
  ⟨fun known => second.marks (first.marks known),
    fun known => second.procedures (first.procedures known)⟩

end Le

/-- What the numbers that count are called may be related to more and more. -/
def relations : Relations where
  Moment := Renaming
  Later := Le
  values := Values
  looks := Values
  frames _ _ := True
  callers _ _ := True
  faults := Faults
  Traced := True
  refl := .refl
  trans := .trans
  values_later le same := le.values same
  looks_later le same := le.values same
  frames_later _ _ := trivial
  callers_later _ _ := trivial
  faults_later le same := le.faults same
  looks_of_values := id
  callers_of_frames _ := trivial
  matches_of_looks same := same.matching.mono fun _ _ _ => trivial
  matches_of_values := Values.matching
  values_atom _ := .atom
  values_error _ := .error
  isSame_eq := Values.isSame_eq
  kind_eq := Faults.kind
  value_rel := Faults.value
  source_rel := Faults.source
  trace_rel _ same := same.trace.imp fun _ _ => And.left
  faults_again same _ := { same with summary := rfl, offset := rfl }

variable {σ : Renaming}

theorem simulated_closures {x y : Closure} : relations.Closures σ x y ↔ σ.Closures x y := by
  constructor
  · exact fun same => { same with frame := same.frame.1 }
  · exact fun same => { same with frame := ⟨same.frame, trivial⟩ }

theorem simulated_procedures {p q : Procedure} :
    relations.Procedures σ p q ↔ σ.Procedures p q := by
  constructor
  · intro same
    cases same with
    | closure same => exact .closure (simulated_closures.mp same)
    | cases name doc same => exact .cases name doc (same.imp fun _ _ => simulated_closures.mp)
    | expander same => exact .expander (simulated_closures.mp same)
    | primitive p => exact .primitive p
  · intro same
    cases same with
    | closure same => exact .closure (simulated_closures.mpr same)
    | cases name doc same => exact .cases name doc (same.imp fun _ _ => simulated_closures.mpr)
    | expander same => exact .expander (simulated_closures.mpr same)
    | primitive p => exact .primitive p

theorem simulated_steps {p q : Step} : relations.Steps σ p q ↔ σ.Steps p q := by
  constructor
  · intro same
    cases same with
    | value known => exact .value known
    | tail name _ known => exact .tail _ name known
  · intro same
    cases same with
    | value known => exact .value known
    | tail frame name known => exact .tail name trivial known

theorem Faults.of_raised {f g : Fault} (raised : relations.Raised σ f g) : σ.Faults f g where
  kind := raised.kind
  value := raised.value
  summary := raised.summary
  source := by
    rw [raised.source.1, raised.source.2]
    exact .none
  trace := by
    rw [raised.trace.1, raised.trace.2]
    exact .nil
  elided := raised.elided.1.trans raised.elided.2.symm
  cause := raised.cause
  offset := raised.offset

theorem catchArithmetic {ρ : Renaming} {c : Store} {R : Renaming → Step → Step → Prop}
    (stable : relations.Stable R) (name : String) {x y : Run Step} (tried : ρ.Follows c R x y) :
    ρ.Follows c R (Call.catchArithmetic name x) (Call.catchArithmetic name y) := by
  rw [Call.catchArithmetic_eq_either, Call.catchArithmetic_eq_either]
  refine tried.either (fun d older a b same => ?_) fun d older e e' same => ?_
  · exact .pure fun e later => stable (later.le ρ) same
  · cases same with
    | fault same => exact .throwFault same
    | @same e plain =>
      cases e with
      | fault f => cases plain
      | breakdown b =>
        cases b with
        | arithmetic e => exact fail _ _
        | _ => exact .throw rfl
      | _ => exact .throw rfl

def following (ρ : Renaming) : Following where
  toRelations := relations
  Follows σ R x y := ∀ c, σ.Le (ρ.upTo c) → ρ.Follows c R x y
  possible _ _ := True
  calculating σ := σ
  fuels := .same
  possible_overflow _ := trivial
  possible_outOfFuel _ := trivial
  possible_dangling _ := trivial
  possible_tooManyDigits _ := trivial
  possible_fileNotText _ := trivial
  possible_pathRefused _ := trivial
  possible_unencodable _ := trivial
  possible_arithmetic _ _ := trivial
  calculating_later := .refl
  faults_raised := .of_raised
  follows_later later follows c le := follows c (later.trans le)
  follows_pure same c le := .pure fun d older => same _ (le.trans (older.le ρ))
  follows_throw plain _ _ _ := .throw plain
  follows_throwFault same c le := .throwFault (le.faults same)
  follows_bind first rest c le := (first c le).bind fun d older a b same =>
    rest _ (le.trans (older.le ρ)) a b same d (.refl _)
  follows_handle {_ c R x y handle handle'} stable tried faults others _ d le := by
    refine (tried d le).either (fun e older a b same => ?_) fun e older i j same => ?_
    · exact .pure fun f later => stable (later.le ρ) same
    · have later := le.trans (older.le ρ)
      cases same with
      | fault same => exact faults _ later _ _ same e (.refl _)
      | same plain => exact others _ later _ plain trivial e (.refl _)
  follows_calculation name tried c le := catchArithmetic relations.steps_later name (tried c le)
  follows_outOfFuel fuels out c le := by
    rw [out fuels.symm]
    exact .throw rfl

def simulation (ρ : Renaming) : Simulation where
  toFollowing := ρ.following
  cons car cdr c le := cons (le.values car) (le.values cdr)
  listReversed items tail c le := listReversed (le.all items) (le.values tail)
  rescue args c le := by
    refine (list (.cons (.atom _) (le.all args))).map fun d older form form' known => ?_
    exact ⟨rfl, .some (.atom _), rfl, .some known, .nil, rfl, rfl, rfl⟩
  ofDatum _ d c _ := ofDatum d
  ofNumber _ n c _ := ofNumber n
  newFrame _ c _ := (newFrame _).mono fun _ _ _ _ same => ⟨same, trivial⟩
  define _ name same c le := define _ name (le.values same)
  find? _ name c _ := (find? _ name).mono fun _ _ _ _ found =>
    rel_imp found fun _ _ known => ⟨⟨known.1, trivial⟩, known.2⟩
  glance? _ frame name c _ := (find? frame name).mono fun _ _ _ _ found =>
    rel_imp found fun _ _ => And.right
  topLevel _ c _ := (topLevel _).mono fun _ _ _ _ same => ⟨same, trivial⟩
  newProcedure same _ le := newProcedure (le.procedure (simulated_procedures.mp same))
  procedure same c le := by
    cases le.values same with
    | procedure refs => exact (procedure refs).mono fun _ _ _ _ => simulated_procedures.mpr
  glimpse same c le := by
    cases le.values same with
    | procedure refs =>
      refine (procedure refs).mono fun _ _ p q known => ?_
      cases known with
      | expander known => exact .expander (simulated_closures.mpr known)
      | _ => exact .other rfl rfl
  newLazyPair car cdr _ c le :=
    newLazyPair ⟨.pending _ (le.values car), .pending _ (le.values cdr)⟩
  newError same c le := newError (le.faults same)
  errorFault _ ref c _ := errorFault ref
  newInput _ p c _ := newInput p
  input _ ref c _ := .lookSame (fun s t older stores => by rw [stores.inputs]) fun _ => .same
  setInput _ ref p c _ := by
    refine .change fun s t older stores => ⟨⟨Nat.le_refl _, Nat.le_refl _⟩, rfl, ?_⟩
    exact { stores with inputs := congrArg (·.setIfInBounds ref p) stores.inputs }
  emit _ text c _ := emit text
  emitError _ text c _ := emitError text
  gensym _ start c _ := gensym start
  write same room readable c le := .lookSame
    (fun s t older stores => stores.write_eq _ _ (older.values (le.values same))) fun _ => .same
  inMessage same halves room c le := .lookSame
    (fun s t older stores => stores.inMessage_eq _ _ (older.values (le.values same))) fun _ => .same
  summary same room kind c le := .lookSame
    (fun s t older stores => stores.summary_eq _ _
      (rel_imp same fun _ _ same => older.values (le.values same))) fun _ => .same
  report _ same room c le := .lookSame
    (fun s t older stores => stores.report_eq _ ((older.le ρ).faults (le.faults same))) fun _ => .same

variable {ρ : Renaming}

theorem bind {c : Store} (sig : Signature) {args args' : List Value}
    (same : (ρ.upTo c).All args args') (outer : FrameId) :
    ρ.Follows c Same (sig.bind args outer) (sig.bind args' outer) :=
  (Simulation.bindArguments (T := ρ.simulation) sig same trivial c (.refl _)).mono
    fun _ _ _ _ => And.left

variable {m : Engine} (blind : ρ.Blind m)

include blind

theorem Blind.simulated : ρ.simulation.Engines m m where
  world := rfl
  room := rfl
  fuel := rfl
  eval same _ name _ le := blind.eval (le.values same) _ name
  force _ side ref c _ := blind.force c side ref

theorem runSequence {c : Store} (tail : Bool) (frame : FrameId) {args args' : List Value}
    (same : (ρ.upTo c).All args args') :
    ρ.Follows c Steps (SpecialForm.runSequence m tail frame args)
      (SpecialForm.runSequence m tail frame args') :=
  (Simulation.runSequence (T := ρ.simulation) blind.simulated tail trivial same c (.refl _)).mono
    fun _ _ _ _ => simulated_steps.mp

theorem step {c : Store} (tail : Bool) (frame : FrameId) {v w : Value}
    (same : (ρ.upTo c).Values v w) :
    ρ.Follows c Steps (LazyLisp.step m v frame tail) (LazyLisp.step m w frame tail) := by
  refine (Simulation.step (T := ρ.simulation) blind.simulated tail trivial trivial ?_ same c
    (.refl _)).mono fun _ _ _ _ => simulated_steps.mp
  refine Simulation.defineValue blind.simulated fun {σ p q} same name c le => ?_
  cases le.values same with
  | procedure refs => exact nameProcedure refs name

end Renaming

end LazyLisp
