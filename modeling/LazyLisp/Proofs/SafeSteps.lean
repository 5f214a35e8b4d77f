import LazyLisp.Proofs.SafeSimulation

/-!
Special forms and whole steps of evaluation are safe if evaluation and the forcing of lazy pairs
are.

A definition names a procedure only if the evaluation of its expression has made it: the form is
that of a procedure, and its head, which was evaluated first, is still the same.
-/

namespace LazyLisp

namespace Hidden

variable {h : Hidden} {c s t : Store} {α β : Type}

inductive HasHead (s : Store) : Value → Value → Prop where
  | eager {mark car cdr} : HasHead s (.pair mark car cdr) car
  | lazy {ref v} : (⟨.car, ref⟩ : Half).slot? s.lazyPairs = some (.ready v) →
      HasHead s (.lazyPair ref) v

theorem HasHead.later {expr head : Value} (known : HasHead s expr head) (later : h.Later s t) :
    HasHead t expr head := by
  cases known with
  | eager => exact .eager
  | lazy held =>
    obtain ⟨slot, held, evolves⟩ := later.grows.slots _ _ held
    cases evolves
    exact .lazy held

theorem HasHead.unique {expr head other : Value} (first : HasHead s expr head)
    (second : HasHead s expr other) : head = other := by
  cases first with
  | eager =>
    cases second
    rfl
  | lazy held =>
    cases second with
    | lazy same =>
      cases held.symm.trans same
      rfl

def isMaker (head : Value) : Bool :=
  head.isSymbolNamed "lambda" || head.isSymbolNamed "case-lambda"

/-- An expression has been evaluated. One that makes a procedure has made a new one. -/
structure Evaluated (h : Hidden) (c : Store) (expr v : Value) (t : Store) : Prop where
  admitted : h.Admits v t
  fresh : ∀ u head, h.Later t u → HasHead u expr head → isMaker head = true →
    ∃ ref, v = .procedure ref ∧ c.procedures.size ≤ ref

/-- Engines of which the first evaluates and forces safely, and the second one does the same. -/
structure Engines (h : Hidden) (m m' : Engine) : Prop where
  world : m'.world = m.world
  room : m'.room = m.room
  fuel : m'.fuel = m.fuel
  eval : ∀ {c expr frame}, h.Admits expr c → h.AdmitsFrame frame c → ∀ name,
    h.Safe c (h.Evaluated c expr) (m.eval expr frame name) (m'.eval expr frame name)
  force : ∀ {c} side ref, h.Safe c
    (fun v t => h.Admits v t ∧ (⟨side, ref⟩ : Half).slot? t.lazyPairs = some (.ready v))
    (m.force side ref) (m'.force side ref)

variable {m m' : Engine}

namespace Engines

variable (engines : h.Engines m m')

include engines

theorem value {expr : Value} {frame : FrameId} (known : h.Admits expr c)
    (shown : h.AdmitsFrame frame c) (name : Option String) :
    h.Safe c h.Admits (m.eval expr frame name) (m'.eval expr frame name) :=
  (engines.eval known shown name).mono fun _ _ _ evaluated => evaluated.admitted

theorem simulated : h.simulation.Engines m m' where
  world := engines.world.symm
  room := engines.room.symm
  fuel := engines.fuel.symm
  eval := by
    rintro c v _ frame ⟨rfl, known⟩ shown name
    exact Safe.agrees (fun s wider _ => engines.value (wider.admits known) (wider.frame shown) name)
      fun _ _ _ known => ⟨rfl, known⟩
  force c side ref := Safe.agrees (fun _ _ _ => engines.force side ref)
    fun _ _ _ forced => ⟨rfl, forced.1⟩

theorem cdr {v : Value} (known : h.Admits v c) : h.Safe c h.Admits (m.cdr v) (m'.cdr v) :=
  .of_values (engines.simulated.cdr ⟨rfl, known⟩)

theorem arguments {v : Value} (known : h.Admits v c) :
    h.Safe c h.AdmitsAll (m.arguments v) (m'.arguments v) :=
  .of_all (engines.simulated.arguments ⟨rfl, known⟩)

/-- From then on the head of the form is known. -/
theorem head {v : Value} (known : h.Admits v c) :
    h.Safe c (fun head t => h.Admits head t ∧ HasHead t v head) (m.car v) (m'.car v) := by
  cases v with
  | pair mark car cdr => exact .pure fun t later => ⟨later.wider.admits known.1, .eager⟩
  | lazyPair ref =>
    refine (engines.force .car ref).mono ?_
    rintro head t later ⟨admitted, held⟩
    exact ⟨admitted, .lazy held⟩
  | _ => exact .throw trivial

end Engines

structure Stepped (h : Hidden) (c : Store) (expr : Value) (step : Step) (t : Store) : Prop where
  admitted : h.AdmitsStep step t
  fresh : ∀ u head, h.Later t u → HasHead u expr head → isMaker head = true →
    ∃ ref, step = .value (.procedure ref) ∧ c.procedures.size ≤ ref

theorem Stepped.since {expr : Value} {step : Step} {u : Store} (stepped : h.Stepped s expr step u)
    (later : h.Later c s) : h.Stepped c expr step u := by
  refine ⟨stepped.admitted, ?_⟩
  intro x head latest found maker
  obtain ⟨ref, same, fresh⟩ := stepped.fresh x head latest found maker
  exact ⟨ref, same, Nat.le_trans later.wider.procedures fresh⟩

theorem special_of_isMaker {head : Value} (maker : isMaker head = true) :
    head.symbol?.bind SpecialForm.ofName? = some .lambda ∨
      head.symbol?.bind SpecialForm.ofName? = some .caseLambda := by
  simp only [isMaker, Value.isSymbolNamed, Bool.or_eq_true, beq_iff_eq] at maker
  rcases maker with same | same
  · left
    rw [same]
    rfl
  · right
    rw [same]
    rfl

def New (h : Hidden) (c : Store) (v : Value) (t : Store) : Prop :=
  h.Admits v t ∧ ∃ ref, v = .procedure ref ∧ c.procedures.size ≤ ref

namespace Safe

theorem newAfter {p : Procedure} (later : h.Later c s) (known : h.AdmitsProcedure p s) :
    h.Safe s (h.New c) (Run.newProcedure p) (Run.newProcedure p) := by
  refine (Safe.newProcedure known).mono ?_
  rintro v t further ⟨admitted, ref, same, fresh⟩
  exact ⟨admitted, ref, same, Nat.le_trans later.wider.procedures fresh⟩

section Forms

variable (engines : h.Engines m m') (tail : Bool) {frame : FrameId} (shown : h.AdmitsFrame frame c)

include engines shown

theorem runLambda {args : List Value} (known : h.AdmitsAll args c) :
    h.Safe c (h.New c) (SpecialForm.runLambda m frame args)
      (SpecialForm.runLambda m' frame args) := by
  cases args with
  | nil => exact .fail
  | cons params body =>
    obtain ⟨paramsKnown, bodyKnown⟩ := List.forall_mem_cons.mp known
    have made := Simulation.makeClosure (T := h.simulation) engines.simulated shown none
      ⟨rfl, paramsKnown⟩ (all_iff.mpr ⟨rfl, bodyKnown⟩)
    exact (Agrees.safe made fun _ _ _ => closures_iff.mp).bind fun x s later closureKnown =>
      .newAfter (p := .closure x) later closureKnown

theorem runCaseLambda {args : List Value} (known : h.AdmitsAll args c) :
    h.Safe c (h.New c) (SpecialForm.runCaseLambda m frame args)
      (SpecialForm.runCaseLambda m' frame args) := by
  unfold SpecialForm.runCaseLambda
  split
  next doc clauses split =>
  have clausesKnown : h.AdmitsAll clauses c := by
    split at split
    · cases split
      exact (List.forall_mem_cons.mp known).2
    · cases split
      exact known
  have made := Simulation.makeClauses (T := h.simulation) engines.simulated shown
    (all_iff.mpr ⟨rfl, clausesKnown⟩)
  refine (Agrees.safe made fun _ _ _ => allClosures_iff.mp).bind fun closures s later all => ?_
  refine .ite (fun _ => (Safe.fail (Q := Any)).bind fun _ t further _ => ?_) fun _ =>
    .newAfter later all
  exact .newAfter (later.trans further) fun x member => further.wider.closure (all x member)

omit shown in
theorem makesProcedure {expr : Value} (known : h.Admits expr c) :
    h.Safe c (fun made t => made = true → ∃ head, HasHead t expr head ∧ isMaker head = true)
      (SpecialForm.makesProcedure m expr) (SpecialForm.makesProcedure m' expr) := by
  refine .ite (fun _ => .pure fun _ _ no => by cases no) fun _ => ?_
  refine (engines.head known).bind fun head s later found => .pure ?_
  intro t further made
  exact ⟨head, found.2.later further, made⟩

/-- A definition whose expression may make a procedure, which then gets the name. -/
theorem defineValue {expr : Value} (known : h.Admits expr c) (name : String) :
    h.Safe c h.Admits (m.defineValue frame name expr) (m'.defineValue frame name expr) := by
  intro s later
  have exprKnown := later.wider.admits known
  have frameShown := later.wider.frame shown
  have defineAs {u : Store} (later : h.Later s u) {v : Value} (known : h.Admits v u) :
      h.Safe u h.Admits (do Run.define frame name v; return .symbol name)
        (do Run.define frame name v; return .symbol name) :=
    (Safe.define (later.wider.frame frameShown) name known).bind
      fun _ _ _ _ => .value (admits_atom _)
  refine Fine.bind (engines.eval exprKnown frameShown none s later.lawful.refl) ?_
  intro v t further evaluated
  have makes := (Safe.makesProcedure engines (further.wider.admits exprKnown)).mono
    (P := fun made u => h.Later t u ∧
      (made = true → ∃ head, HasHead u expr head ∧ isMaker head = true))
    fun made u later maker => ⟨later, maker⟩
  refine Fine.bind (makes.since further) ?_
  intro made u sinceStart ⟨latest, maker⟩
  cases made with
  | false => exact (defineAs sinceStart (latest.wider.admits evaluated.admitted)).since sinceStart
  | true =>
    obtain ⟨head, found, isMaker⟩ := maker rfl
    obtain ⟨ref, rfl, fresh⟩ := evaluated.fresh u head latest found isMaker
    have named : h.Later s { u with procedures := u.procedures.modify ref (·.named name) } := by
      refine ⟨sinceStart.lawful.name evaluated.admitted.2 name, sinceStart.grows.frames, ?_,
        sinceStart.grows.slots⟩
      -- The procedure was made after the definition began.
      intro old p held
      have before := old_of_getElem? held
      rw [Array.getElem?_modify, if_neg (by omega)]
      exact sinceStart.grows.procedures old p held
    have procedureKnown : h.Admits (.procedure ref)
        { u with procedures := u.procedures.modify ref (·.named name) } := by
      refine Wider.admits ?_ (latest.wider.admits evaluated.admitted)
      exact ⟨Nat.le_refl _, by simp⟩
    exact (defineAs named procedureKnown).since named

omit shown in
theorem definitions : h.simulation.Definitions m m' := by
  rintro c v _ frame ⟨rfl, known⟩ shown name
  exact agrees_value fun s wider _ =>
    .defineValue engines (wider.frame shown) (wider.admits known) name

theorem runForm (form : SpecialForm) {args : List Value} (known : h.AdmitsAll args c) :
    h.Safe c h.AdmitsStep (form.run m args frame tail) (form.run m' args frame tail) :=
  .of_steps (Simulation.runForm engines.simulated tail shown (definitions engines) form
    (all_iff.mpr ⟨rfl, known⟩))

end Forms

section Steps

variable (engines : h.Engines m m') (tail : Bool) {frame : FrameId}

include engines

theorem apply {f : Value} {args : List Value} (fKnown : h.Admits f c) (known : h.AdmitsAll args c)
    (inside : frame < c.frames.size) :
    h.Safe c h.AdmitsStep (Call.apply m tail f args frame) (Call.apply m' tail f args frame) :=
  .of_steps (Simulation.apply engines.simulated (all_iff.mpr ⟨rfl, known⟩) trivial tail
    ⟨rfl, fKnown⟩ inside)

variable (shown : h.AdmitsFrame frame c)

include shown

theorem application {f : Value} (fKnown : h.Admits f c) {args : List Value}
    (known : h.AdmitsAll args c) :
    h.Safe c h.AdmitsStep (applicationWith (Call.apply m) m f args frame tail)
      (applicationWith (Call.apply m') m' f args frame tail) := by
  refine .of_steps (Simulation.applicationWith engines.simulated tail shown ?_ ⟨rfl, fKnown⟩
    (all_iff.mpr ⟨rfl, known⟩))
  intro d wider f g args args' known same
  exact Simulation.apply engines.simulated same trivial tail known (wider.frame shown).1

omit engines shown in
/-- At a form whose head is not that of a form that makes a procedure nothing new need be made. -/
theorem stepped {expr head : Value} {x y : Run Step} (found : HasHead c expr head)
    (other : isMaker head = true → False) (safe : h.Safe c h.AdmitsStep x y) :
    h.Safe c (h.Stepped c expr) x y := by
  refine safe.mono fun step t later known => ⟨known, ?_⟩
  intro u head' further found' maker
  obtain rfl := (found.later (later.trans further)).unique found'
  exact (other maker).elim

omit engines shown in
theorem made {expr : Value} {x y : Run Value} (safe : h.Safe c (h.New c) x y) :
    h.Safe c (h.Stepped c expr) (Step.value <$> x) (Step.value <$> y) := by
  refine safe.map ?_
  rintro v t later ⟨admitted, ref, rfl, fresh⟩
  exact ⟨admitted, fun _ _ _ _ _ => ⟨ref, rfl, fresh⟩⟩

theorem steppedForm {expr head : Value} (found : HasHead c expr head) {form : SpecialForm}
    (special : head.symbol?.bind SpecialForm.ofName? = some form) {args : List Value}
    (known : h.AdmitsAll args c) :
    h.Safe c (h.Stepped c expr) (form.run m args frame tail) (form.run m' args frame tail) := by
  have maker (makes : isMaker head = true) : form = .lambda ∨ form = .caseLambda := by
    rcases special_of_isMaker makes with same | same
    · exact .inl (Option.some.inj (special.symm.trans same))
    · exact .inr (Option.some.inj (special.symm.trans same))
  cases form with
  | lambda => exact .made (.runLambda engines shown known)
  | caseLambda => exact .made (.runCaseLambda engines shown known)
  | _ =>
    refine .stepped found (fun makes => ?_) (.runForm engines tail shown _ known)
    rcases maker makes with same | same <;> cases same

theorem form {expr : Value} (known : h.Admits expr c) :
    h.Safe c (h.Stepped c expr) (formWith (Call.apply m) m expr frame tail)
      (formWith (Call.apply m') m' expr frame tail) := by
  refine (engines.head known).bind fun head s later found => ?_
  refine (engines.cdr (later.wider.admits known)).bind fun rest t further restKnown => ?_
  refine (engines.arguments restKnown).bind fun args u latest argsKnown => ?_
  have soFar := (later.trans further).trans latest
  have frameShown := soFar.wider.frame shown
  have headFound := found.2.later (further.trans latest)
  refine Safe.mono (Q := h.Stepped u expr) ?_ fun step x _ stepped => stepped.since soFar
  split
  · next form special => exact .steppedForm engines tail frameShown headFound special argsKnown
  · next special =>
    refine .stepped headFound ?_ ?_
    · intro makes
      rcases special_of_isMaker makes with same | same <;> cases special.symm.trans same
    · have headKnown := (further.trans latest).wider.admits found.1
      refine (engines.value headKnown frameShown none).bind fun f x more fKnown => ?_
      exact .application engines tail (more.wider.frame frameShown) fKnown
        (more.wider.all argsKnown)

theorem step {expr : Value} (known : h.Admits expr c) :
    h.Safe c (h.Stepped c expr) (LazyLisp.step m expr frame tail)
      (LazyLisp.step m' expr frame tail) := by
  unfold LazyLisp.step stepWith
  split
  · refine (Safe.lookup shown _).map fun v s later vKnown => ⟨vKnown, ?_⟩
    rintro u head further ⟨⟩
  · exact .form engines tail shown known
  · exact .form engines tail shown known
  · next noSymbol noPair noLazyPair =>
    refine .pure fun t later => ⟨later.wider.admits known, ?_⟩
    intro u head further found
    cases found with
    | eager => exact (noPair _ _ _ rfl).elim
    | lazy => exact (noLazyPair _ rfl).elim

end Steps

end Safe

end Hidden

end LazyLisp
