import LazyLisp.Proofs.Running
import LazyLisp.Proofs.SafeSteps
import LazyLisp.Session

/-!
Evaluation is safe, and so are sessions.

`evaluateGuarded` puts a guard around every evaluation, also around those inside another one. A
guard that interferes only where the store would not evolve as it should never does.
-/

namespace LazyLisp

/-- Evaluate with a guard around each evaluation. -/
def evaluateGuarded (guard : Value → FrameId → Run Value → Run Value) (w : World) :
    (fuel : Nat) → (room : Option Nat) → Value → FrameId → Option String → Run Value
  | 0, _, expr, frame, _ => guard expr frame (throw .outOfFuel)
  | fuel + 1, room, expr, frame, name =>
    guard expr frame
      (match descend room with
      | none => throw .overflow
      | some inner =>
        proceed w.traceLimit (evaluateGuarded guard w fuel room) expr name
          (step (.ofEval w fuel inner (evaluateGuarded guard w fuel inner)) expr frame true))

theorem forceWith_of_ready (eval : Value → FrameId → Option String → Run Value) {k : Half}
    {v : Value} {s : Store} (held : k.slot? s.lazyPairs = some (.ready v)) :
    Engine.forceWith eval k.side k.ref s = .ok v s := by
  obtain ⟨pair, found, slot⟩ := Option.map_eq_some_iff.mp held
  change ((Run.held s.lazyPairs[k.ref]? : Run LazyPair) >>= _) s = _
  rw [found, Run.held, pure_bind, slot]
  rfl

theorem forceWith_of_pending (eval : Value → FrameId → Option String → Run Value) {k : Half}
    {expr : Value} {frame : FrameId} {s : Store}
    (held : k.slot? s.lazyPairs = some (.pending expr frame)) :
    Engine.forceWith eval k.side k.ref s = (do
      let v ← eval expr frame none
      Run.settle k.ref k.side v
      return v : Run Value) s := by
  obtain ⟨pair, found, slot⟩ := Option.map_eq_some_iff.mp held
  change ((Run.held s.lazyPairs[k.ref]? : Run LazyPair) >>= _) s = _
  rw [found, Run.held, pure_bind, slot]

theorem forceWith_of_none (eval : Value → FrameId → Option String → Run Value) {k : Half}
    {s : Store} (missing : k.slot? s.lazyPairs = none) :
    Engine.forceWith eval k.side k.ref s = .error .dangling s := by
  have missing : s.lazyPairs[k.ref]? = none := by simpa [Half.slot?] using missing
  change ((Run.held s.lazyPairs[k.ref]? : Run LazyPair) >>= _) s = _
  rw [missing]
  rfl

namespace Hidden

variable {h : Hidden} {c s t : Store} {α : Type} {Q : α → Store → Prop} {x y : Run α}

theorem Fine.after {r : EStateM.Result Interrupt Store α} (fine : h.Fine s Q r) :
    h.Later s (after r) := by
  cases r with
  | ok a t => exact fine.1
  | error e t => exact fine.1

theorem Safe.later (safe : h.Safe c Q x y) (later : h.Later c s) : h.Later s (after (x s)) :=
  (safe s later).2.after

theorem Later.settle (later : h.Later s t) {k : Half} {expr v : Value} {frame : FrameId}
    (pending : k.slot? s.lazyPairs = some (.pending expr frame)) (known : h.Admits v t) :
    h.Later s (t.settle k v) := by
  refine ⟨later.lawful.settle known k, later.grows.frames, later.grows.procedures, ?_⟩
  refine later.grows.slots.settle k v ?_
  intro u ready
  cases pending.symm.trans ready

theorem Safe.forceWith {eval eval' : Value → FrameId → Option String → Run Value}
    (evals : ∀ {c expr frame}, h.Admits expr c → h.AdmitsFrame frame c → ∀ name,
      h.Safe c (h.Evaluated c expr) (eval expr frame name) (eval' expr frame name))
    (side : Side) (ref : Nat) :
    h.Safe c
      (fun v t => h.Admits v t ∧ (⟨side, ref⟩ : Half).slot? t.lazyPairs = some (.ready v))
      (Engine.forceWith eval side ref) (Engine.forceWith eval' side ref) := by
  intro s later
  cases held : (⟨side, ref⟩ : Half).slot? s.lazyPairs with
  | none =>
    rw [forceWith_of_none eval held, forceWith_of_none eval' held]
    exact ⟨rfl, later.lawful.refl, trivial⟩
  | some slot =>
    have slotKnown := later.lawful.slots _ slot held
    cases slot with
    | ready v =>
      rw [forceWith_of_ready eval held, forceWith_of_ready eval' held]
      exact ⟨rfl, later.lawful.refl, slotKnown, held⟩
    | pending expr frame =>
      rw [forceWith_of_pending eval held, forceWith_of_pending eval' held]
      refine Fine.bind (evals slotKnown.1 slotKnown.2 none s later.lawful.refl) ?_
      intro v t further evaluated
      refine ⟨rfl, further.settle held evaluated.admitted, ?_, ?_⟩
      · have wider : Wider t (t.settle ⟨side, ref⟩ v) := ⟨Nat.le_refl _, Nat.le_refl _⟩
        exact wider.admits evaluated.admitted
      · obtain ⟨slot, held, -⟩ := further.grows.slots _ _ held
        exact Half.slot?_settle_self held v

theorem AdmitsFault.leave {f : Fault} (known : h.AdmitsFault f s) {form : Value}
    (formKnown : h.Admits form s) (name : Option String) (limit : Int) :
    h.AdmitsFault (f.leave form name limit) s := by
  have source (v : Value) (held : (f.source <|> some form) = some v) : h.Admits v s := by
    cases old : f.source with
    | none =>
      rw [old] at held
      cases held
      exact formKnown
    | some w =>
      rw [old] at held
      cases held
      exact known.source v old
  unfold Fault.leave
  dsimp only
  split
  · refine ⟨known.value, source, ?_⟩
    intro entry member
    rcases Array.mem_push.mp member with old | rfl
    · exact known.trace entry old
    · exact formKnown
  · exact ⟨known.value, source, known.trace⟩

theorem Safe.leaving {expr : Value} (known : h.Admits expr c) {e : Interrupt}
    (interruptKnown : h.AdmitsInterrupt e c) (limit : Int) (name : Option String)
    {Q : Value → Store → Prop} :
    h.Safe c Q (LazyLisp.leaving limit expr name e) (LazyLisp.leaving limit expr name e) := by
  cases e with
  | fault f => exact .throw (AdmitsFault.leave interruptKnown known name limit)
  | _ => exact .throw trivial

/-- The guard lets an evaluation be that starts from a lawful store and leaves one. -/
def Lenient (h : Hidden) (guard : Value → FrameId → Run Value → Run Value) : Prop :=
  ∀ expr frame (x : Run Value) s, h.AdmitsFrame frame s → h.Later s (after (x s)) →
    h.Lawful s → guard expr frame x s = x s

theorem Lenient.safe {guard : Value → FrameId → Run Value → Run Value} (lenient : h.Lenient guard)
    {expr : Value} {frame : FrameId} (shown : h.AdmitsFrame frame c) {Q : Value → Store → Prop}
    {x y : Run Value} (safe : h.Safe c Q x y) : h.Safe c Q x (guard expr frame y) := by
  intro s later
  obtain ⟨same, fine⟩ := safe s later
  refine ⟨?_, fine⟩
  rw [lenient expr frame y s (later.wider.frame shown) ?_ later.lawful, same]
  rw [same]
  exact fine.after

theorem Safe.evaluate {guard : Value → FrameId → Run Value → Run Value}
    (lenient : h.Lenient guard) (w : World) (fuel : Nat) (room : Option Nat) {expr : Value}
    {frame : FrameId} (known : h.Admits expr c) (shown : h.AdmitsFrame frame c)
    (name : Option String) :
    h.Safe c (h.Evaluated c expr) (evaluate w fuel room expr frame name)
      (evaluateGuarded guard w fuel room expr frame name) := by
  induction fuel generalizing c room expr frame name with
  | zero => exact lenient.safe shown (.throw trivial)
  | succ fuel ih =>
    unfold evaluateGuarded
    refine lenient.safe shown ?_
    cases deeper : descend room with
    | none =>
      have full : LazyLisp.evaluate w (fuel + 1) room expr frame name =
          MonadExcept.throw .overflow := by
        funext s
        rw [LazyLisp.evaluate, deeper]
        rfl
      rw [full]
      exact .throw trivial
    | some inner =>
      have engines : h.Engines (.evaluating w fuel inner)
          (.ofEval w fuel inner (evaluateGuarded guard w fuel inner)) :=
        ⟨rfl, rfl, rfl, ih inner, .forceWith (ih inner)⟩
      dsimp only
      rw [evaluate_eq_proceed w fuel deeper, proceed_eq_either, proceed_eq_either]
      refine (Safe.step engines true shown known).either ?_ ?_
      · intro step s later stepped
        cases step with
        | value v =>
          refine .pure fun t further => ⟨further.wider.admits stepped.admitted, ?_⟩
          intro u head latest found maker
          obtain ⟨ref, same, fresh⟩ := stepped.fresh u head (further.trans latest) found maker
          cases same
          exact ⟨ref, rfl, fresh⟩
        | tail next frame' name' =>
          refine (ih room stepped.admitted.1 stepped.admitted.2 name').mono ?_
          intro v t further evaluated
          refine ⟨evaluated.admitted, ?_⟩
          intro u head latest found maker
          obtain ⟨_, same, _⟩ := stepped.fresh u head (further.trans latest) found maker
          cases same
      · intro e s later interruptKnown
        exact .leaving (later.wider.admits known) interruptKnown w.traceLimit name

theorem lenient_id (h : Hidden) : h.Lenient fun _ _ x => x := fun _ _ _ _ _ _ _ => rfl

theorem Safe.evaluateOnly (w : World) (fuel : Nat) (room : Option Nat) {expr : Value}
    {frame : FrameId} (known : h.Admits expr c) (shown : h.AdmitsFrame frame c)
    (name : Option String) :
    h.Safe c h.Admits (LazyLisp.evaluate w fuel room expr frame name)
      (LazyLisp.evaluate w fuel room expr frame name) := by
  intro s later
  refine ⟨rfl, ?_⟩
  have safe := Safe.evaluate h.lenient_id w fuel room known shown name
  exact ((safe.mono fun _ _ _ evaluated => evaluated.admitted) s later).2

theorem evaluates (h : Hidden) (w : World) (fuel : Nat) : h.simulation.Evaluates
    (LazyLisp.evaluate w fuel w.room) (LazyLisp.evaluate w fuel w.room) where
  eval := by
    rintro c v _ frame ⟨rfl, known⟩ shown name
    exact agrees_value fun s wider _ =>
      .evaluateOnly w fuel w.room (wider.admits known) (wider.frame shown) name
  globally follows s wider lawful := follows s wider lawful.admitsGlobal s (.refl s) lawful
  recursion := by
    intro c v w message same
    obtain rfl : v = w := by
      cases same with
      | some same => rw [same.1]
      | none => rfl
    refine ⟨rfl, ?_, ?_, fun entry member => absurd member (Array.not_mem_empty entry)⟩
    · rintro _ ⟨⟩
      exact admits_atom _
    · rintro w held
      cases same with
      | some same =>
        cases held
        exact same.2
      | none => cases held

theorem Safe.readInput (room : Option Nat) (ref : Nat) :
    h.Safe c h.Admits (Run.readInput room ref) (Run.readInput room ref) :=
  .of_values (Simulation.readInput room ref)

/-- Files are loaded at top level, wherever they are loaded from. -/
theorem Safe.loadFile (w : World) (fuel : Nat) (room : Option Nat) {frame : FrameId}
    (inside : frame < c.frames.size) (path : Path) (shown : String) :
    h.Safe c h.Admits (Load.file w room (LazyLisp.evaluate w fuel room · · none) path shown frame)
      (Load.file w room (LazyLisp.evaluate w fuel room · · none) path shown frame) := by
  refine .of_values (Simulation.loadFile w room ?_ inside path shown)
  rintro d _ v _ frame ⟨rfl, known⟩ frameShown
  exact agrees_value fun s wider _ =>
    .evaluateOnly w fuel room (wider.admits known) (wider.frame frameShown) none

theorem Safe.session (w : World) (fuel : Nat) (code : String) :
    h.Safe c h.Admits (Session.eval w fuel code) (Session.eval w fuel code) :=
  .of_values (Simulation.evalWith (h.evaluates w fuel) w code)

theorem Safe.load (w : World) (fuel : Nat) (path : Path) (shown : String) :
    h.Safe c h.Admits (Session.load w fuel path shown) (Session.load w fuel path shown) :=
  .of_values (Simulation.load (h.evaluates w fuel) path shown)

theorem Safe.start (w : World) (fuel : Nat) (settings : Settings) (prelude : PreludeChoice)
    (input : String) :
    h.Safe c Any (Session.start w fuel settings prelude input)
      (Session.start w fuel settings prelude input) := by
  have follows := Simulation.start (c := c) (h.evaluates w fuel) (fun _ _ => trivial) settings
    prelude input
  exact Agrees.safe follows fun _ _ _ same => ⟨same, trivial⟩

end Hidden

end LazyLisp
