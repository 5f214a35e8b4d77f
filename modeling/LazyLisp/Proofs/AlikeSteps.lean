import LazyLisp.Proofs.Likeness
import LazyLisp.Proofs.SimulatedSteps

/-!
Going alike as a simulation. What is made of engines that go alike goes alike: walking along lists,
expanding forms, loading files, calls, special forms and steps. Two primitives show the forms that an
error has left; these go alike only if those count.
-/

namespace LazyLisp

theorem list_cons (v : Value) (items : List Value) (s : Store) (made : Value) (t : Store)
    (ended : Run.list (v :: items) s = .ok made t) : ∃ mark rest, made = .pair mark v rest := by
  have behind (items : List Value) (mark : Nat) (tail : Value) :
      ∃ mark' rest, (Value.consReversed mark tail (items ++ [v])).1 = .pair mark' v rest := by
    induction items generalizing mark tail with
    | nil => exact ⟨mark, tail, rfl⟩
    | cons item items ih => exact ih (mark + 1) (.pair mark item tail)
  obtain ⟨mark, rest, same⟩ := behind items.reverse s.nextMark .nil
  refine ⟨mark, rest, ?_⟩
  rw [← same, ← List.reverse_cons]
  cases ended
  rfl

namespace Likeness

def Fuel (L : Likeness) (n k : Nat) : Prop := n = k ∨ n ≤ k ∧ L.aborts .outOfFuel

theorem Fuel.of_succ {L : Likeness} {n k : Nat} (fuel : L.Fuel (n + 1) k) :
    ∃ j, k = j + 1 ∧ L.Fuel n j := by
  rcases fuel with rfl | ⟨less, aborts⟩
  · exact ⟨n, rfl, .inl rfl⟩
  · exact ⟨k - 1, by omega, .inr ⟨by omega, aborts⟩⟩

theorem Fuel.succ {L : Likeness} {n k : Nat} (fuel : L.Fuel n k) : L.Fuel (n + 1) (k + 1) := by
  rcases fuel with rfl | ⟨less, aborts⟩
  · exact .inl rfl
  · exact .inr ⟨by omega, aborts⟩

/-- Where the first computation is out of fuel, so is the second one, or nothing is asked of it. -/
theorem Fuel.out {L : Likeness} {α β : Type} {R : α → β → Prop} {n : Nat} {y : Run β}
    (fuel : L.Fuel 0 n) (out : n = 0 → y = throw .outOfFuel) :
    L.Alike R (throw .outOfFuel : Run α) y := by
  rcases fuel with same | ⟨-, aborts⟩
  · rw [out same.symm]
    exact .throw rfl
  · exact .aborting aborts

structure Engines (L : Likeness) (m m' : Engine) : Prop where
  world : m.world = m'.world
  room : m.room = m'.room
  fuel : L.Fuel m.fuel m'.fuel
  eval : ∀ expr frame name, L.Alike Eq (m.eval expr frame name) (m'.eval expr frame name)
  force : ∀ side ref, L.Alike Eq (m.force side ref) (m'.force side ref)

def relations (L : Likeness) : Relations where
  Moment := Unit
  Later _ _ := True
  values _ := Eq
  looks _ := Eq
  frames _ _ := True
  callers _ _ := True
  faults _ := L.faults
  Traced := L.Whole
  refl _ := trivial
  trans _ _ := trivial
  values_later _ same := same
  looks_later _ same := same
  frames_later _ _ := trivial
  callers_later _ _ := trivial
  faults_later _ same := same
  looks_of_values same := same
  callers_of_frames _ := trivial
  matches_of_looks := by
    rintro _ v _ rfl
    exact Value.matches_self (fun _ => trivial) v
  matches_of_values := by
    rintro _ v _ rfl
    exact Value.matches_self (fun _ => rfl) v
  values_atom _ _ := rfl
  values_error _ _ := rfl
  isSame_eq := by
    rintro _ v _ w _ rfl rfl
    rfl
  kind_eq := kind_eq
  value_rel same := by
    rw [value_eq same]
    exact rel_self fun _ _ => rfl
  source_rel same := by
    rw [source_eq same]
    exact rel_self fun _ _ => rfl
  trace_rel whole same := by
    rw [whole _ _ same]
    exact List.forall₂_same.mpr fun _ _ => rfl
  faults_again := L.again _ _ _

variable {L : Likeness} {α β : Type}

/-- What is made of values is related if it is the same. -/
theorem eq_of_all {vs ws : List Value} (same : L.relations.All () vs ws) : vs = ws :=
  Relations.eq_of_all (fun _ _ => id) same

theorem all_self (vs : List Value) : L.relations.All () vs vs := Relations.all_self (fun _ => rfl) vs

theorem closures_self (x : Closure) : L.relations.Closures () x x :=
  Relations.closures_self (fun _ => rfl) (fun _ => trivial) x

theorem procedures_self (p : Procedure) : L.relations.Procedures () p p :=
  Relations.procedures_self (fun _ => rfl) (fun _ => trivial) p

theorem steps_self (p : Step) : L.relations.Steps () p p :=
  Relations.steps_self (fun _ => rfl) (fun _ => trivial) p

theorem Alike.of_steps {x y : Run Step} (alike : L.Alike (L.relations.Steps ()) x y) :
    L.Alike Eq x y := alike.mono fun _ _ => Relations.Steps.eq fun _ _ => id

theorem catchArithmetic (name : String) {x y : Run Step} {R : Step → Step → Prop}
    (tried : L.Alike R x y) :
    L.Alike R (Call.catchArithmetic name x) (Call.catchArithmetic name y) := by
  rw [Call.catchArithmetic_eq_either, Call.catchArithmetic_eq_either]
  refine tried.handle (fun f g same => .throwFault same) ?_ ?_
  · intro e plain
    cases e with
    | fault f => cases plain
    | breakdown b =>
      cases b with
      | arithmetic e => exact .throwFresh (.raised rfl rfl rfl)
      | _ => exact .throw rfl
    | _ => exact .throw rfl
  · intro e uncaught
    cases e with
    | breakdown b =>
      cases b with
      | arithmetic e => exact absurd rfl (uncaught.arithmetic e)
      | _ => rfl
    | _ => rfl

def following (L : Likeness) : Following where
  toRelations := L.relations
  Follows _ R x y := L.Alike (R ()) x y
  possible _ _ := True
  calculating c := c
  fuels := ⟨L.Fuel, Fuel.succ, Fuel.of_succ⟩
  possible_overflow _ := trivial
  possible_outOfFuel _ := trivial
  possible_dangling _ := trivial
  possible_tooManyDigits _ := trivial
  possible_fileNotText _ := trivial
  possible_pathRefused _ := trivial
  possible_unencodable _ := trivial
  possible_arithmetic _ _ := trivial
  calculating_later _ := trivial
  faults_raised := by
    intro _ f g raised
    obtain rfl := raised.eq fun _ _ => id
    exact L.fresh f (.raised raised.source.1 raised.trace.1 raised.elided.1)
  follows_later _ alike := alike
  follows_pure same := .pure (same () trivial)
  follows_throw plain _ := .throw plain
  follows_throwFault same := .throwFault same
  follows_bind first rest := first.bind (rest () trivial)
  follows_handle _ tried faults others passes :=
    tried.handle (faults () trivial) (fun e plain => others () trivial e plain trivial) passes
  follows_calculation name tried := catchArithmetic name tried
  follows_outOfFuel := Fuel.out

def simulation (L : Likeness) : Simulation where
  toFollowing := L.following
  cons := by
    rintro _ car _ cdr _ rfl rfl
    exact cons car cdr
  listReversed := by
    intro _ items items' tail _ same rfl
    obtain rfl := eq_of_all same
    exact listReversed items tail
  rescue := by
    intro _ args args' same
    obtain rfl := eq_of_all same
    refine ((list _).result (list_cons _ _)).map ?_
    rintro form _ ⟨rfl, mark, rest, rfl⟩
    exact L.fresh _ .rescue
  ofDatum _ := ofDatum
  ofNumber _ := ofNumber
  newFrame _ := (newFrame _).mono fun _ _ same => ⟨same, trivial⟩
  define := by
    rintro _ frame v _ - name rfl
    exact define frame name v
  find? _ name := by
    refine (find? _ name).mono ?_
    rintro found _ rfl
    exact rel_self fun _ _ => ⟨⟨rfl, trivial⟩, rfl⟩
  glance? _ frame name := by
    refine (find? frame name).mono ?_
    rintro found _ rfl
    exact rel_self fun _ _ => rfl
  topLevel _ := (topLevel _).mono fun _ _ same => ⟨same, trivial⟩
  newProcedure same := by
    obtain rfl := same.eq fun _ _ => id
    exact newProcedure _
  procedure := by
    rintro _ p _ ⟨-⟩
    refine (procedure p).mono ?_
    rintro q _ rfl
    exact procedures_self q
  glimpse := by
    rintro _ p _ ⟨-⟩
    refine (procedure p).mono ?_
    rintro q _ rfl
    cases q with
    | expander x => exact .expander (closures_self x)
    | _ => exact .other rfl rfl
  newLazyPair := by
    rintro _ car _ cdr _ frame rfl rfl -
    exact newLazyPair _
  newError := newError
  errorFault _ := errorFault
  newInput _ := newInput
  input _ ref := by
    refine shown ?_
    rintro s _ ⟨-⟩
    rfl
  setInput _ ref p := Alike.modify (fun _ _ => rfl) (fun _ => rfl) fun _ => rfl
  emit _ := emit
  emitError _ := emitError
  gensym _ := gensym
  write := by
    rintro _ v _ rfl room readable
    exact shown fun s t stores => by rw [stores.write]
  inMessage := by
    rintro _ v _ rfl halves room
    exact shown fun s t stores => by rw [stores.inMessage]
  summary := by
    intro _ v w same room kind
    obtain rfl := eq_of_rel (fun _ _ => id) same
    exact shown fun s t stores => by rw [stores.summary]
  report whole same room := by
    obtain rfl := whole _ _ same
    exact shown fun s t stores => by rw [stores.eq_of_whole whole]

theorem mapM {f g : α → Run β} (alike : ∀ a, L.Alike Eq (f a) (g a)) (items : List α) :
    L.Alike Eq (items.mapM f) (items.mapM g) := by
  refine Following.mapMSame (T := L.following) (c := ()) (List.forall₂_same.mpr fun _ _ => rfl) ?_
  rintro _ - a _ rfl
  exact alike a

section Engines

variable {m m' : Engine} (alike : L.Engines m m')

include alike

theorem Engines.simulated : L.simulation.Engines m m' where
  world := alike.world
  room := alike.room
  fuel := alike.fuel
  eval := by
    rintro _ v _ frame rfl - name
    exact alike.eval v frame name
  force _ := alike.force

theorem Engines.inMessage (v : Value) : L.Alike Eq (m.inMessage v) (m'.inMessage v) :=
  alike.simulated.inMessage (c := ()) (v := v) rfl

theorem Engines.cdr (v : Value) : L.Alike Eq (m.cdr v) (m'.cdr v) :=
  alike.simulated.cdr (c := ()) (v := v) rfl

theorem Engines.arguments (v : Value) : L.Alike Eq (m.arguments v) (m'.arguments v) :=
  Alike.mono (alike.simulated.arguments (c := ()) (v := v) rfl) fun _ _ => eq_of_all

theorem expand (x : Closure) (args : List Value) :
    L.Alike Eq (Expansion.run m x args) (Expansion.run m' x args) :=
  Simulation.expand (T := L.simulation) (c := ()) alike.simulated (closures_self x) (all_self args)

omit alike in
theorem calls_simulated {frame : FrameId} {call call' : Primitive.Caller}
    (calls : ∀ f args, L.Alike Eq (call f args frame) (call' f args frame)) :
    L.simulation.Calls () frame call call' := by
  rintro _ - f _ args args' rfl same
  obtain rfl := eq_of_all same
  exact (calls f args).mono fun p _ same => same ▸ steps_self p

/-- A procedure that does not show what may differ goes alike. -/
theorem runWith {again again' : Primitive.Caller}
    (calls : ∀ f args frame, L.Alike Eq (again f args frame) (again' f args frame)) (tail : Bool)
    (args : List Value) (frame : FrameId) (p : Procedure)
    (shown : L.Whole ∨ p.showsTrace = false) :
    L.Alike Eq (Call.runWith m again tail args frame p) (Call.runWith m' again' tail args frame p) :=
  .of_steps (Simulation.runWith (T := L.simulation) (c := ()) alike.simulated (all_self args)
    (calls_simulated fun f args => calls f args frame) trivial tail (procedures_self p) shown)

theorem definitions : L.simulation.Definitions m m' :=
  Simulation.defineValue alike.simulated fun {_ p _} same name => by
    cases same
    exact nameProcedure p name

section Forms

variable (tail : Bool) (frame : FrameId)

theorem runSequence (forms : List Value) :
    L.Alike Eq (SpecialForm.runSequence m tail frame forms)
      (SpecialForm.runSequence m' tail frame forms) :=
  .of_steps (Simulation.runSequence (T := L.simulation) (c := ()) alike.simulated tail trivial
    (all_self forms))

theorem runForm (form : SpecialForm) (args : List Value) :
    L.Alike Eq (form.run m args frame tail) (form.run m' args frame tail) :=
  .of_steps (Simulation.runForm (T := L.simulation) (c := ()) alike.simulated tail trivial
    (definitions alike) form (all_self args))

end Forms

theorem stepWith {tail : Bool} {frame : FrameId} {call call' : (tail : Bool) → Primitive.Caller}
    (calls : ∀ f args, L.Alike Eq (call tail f args frame) (call' tail f args frame)) (expr : Value) :
    L.Alike Eq (LazyLisp.stepWith call m expr frame tail)
      (LazyLisp.stepWith call' m' expr frame tail) :=
  .of_steps (Simulation.stepWith (T := L.simulation) (c := ()) alike.simulated tail trivial
    (calls_simulated calls) (definitions alike) (v := expr) rfl)

end Engines

theorem loadFile (w : World) (room : Option Nat) {eval eval' : Value → FrameId → Run Value}
    (evals : ∀ v frame, L.Alike Eq (eval v frame) (eval' v frame)) (frame : FrameId) (path : Path)
    (shown : String) : L.Alike Eq (Load.file w room eval path shown frame)
      (Load.file w room eval' path shown frame) := by
  refine Simulation.loadFile (T := L.simulation) (c := ()) w room ?_ trivial path shown
  rintro _ - v _ frame rfl -
  exact evals v frame

end Likeness

end LazyLisp
