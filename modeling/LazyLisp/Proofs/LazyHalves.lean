import LazyLisp.Proofs.AlikeRuns
import LazyLisp.Proofs.SimulatedSessions

/-!
The halves of lazy pairs.

A half that has a value keeps it from one evaluation to the next, and one that is pending keeps its
expression until it gets a value. Inside an evaluation a half may get a value twice: its expression
may access the half again before the value is kept, and the outer value then takes the place of the
inner one. That is the only way: a half gets its value once, and a failure leaves it pending,
exactly in the runs in which no half gets a value inside its own evaluation.
-/

namespace LazyLisp

/-- A pending half may get a value, and nothing else changes. -/
inductive Slot.Evolves : Slot → Slot → Prop where
  | same {slot} : Evolves slot slot
  | settled {expr frame v} : Evolves (.pending expr frame) (.ready v)

theorem Slot.Evolves.trans {a b c : Slot} (first : a.Evolves b) (second : b.Evolves c) :
    a.Evolves c := by
  cases first with
  | same => exact second
  | settled =>
    cases second with
    | same => exact .settled

/-- Every half evolves. -/
def Evolves (pairs later : Array LazyPair) : Prop :=
  ∀ (h : Half) slot, h.slot? pairs = some slot →
    ∃ next, h.slot? later = some next ∧ slot.Evolves next

namespace Half

variable {h : Half} {pairs : Array LazyPair} {slot : Slot}

theorem slot?_push (held : h.slot? pairs = some slot) (p : LazyPair) :
    h.slot? (pairs.push p) = some slot := by
  unfold slot? at held ⊢
  obtain ⟨pair, found, same⟩ := Option.map_eq_some_iff.mp held
  obtain ⟨bound, -⟩ := Array.getElem?_eq_some_iff.mp found
  rw [Array.getElem?_push_lt bound, ← Array.getElem?_eq_getElem bound, found, Option.map_some, same]

theorem slot?_settle_self (held : h.slot? pairs = some slot) (v : Value) :
    h.slot? (pairs.modify h.ref (·.settle v h.side)) = some (.ready v) := by
  unfold slot? at held ⊢
  obtain ⟨pair, found, -⟩ := Option.map_eq_some_iff.mp held
  rw [Array.getElem?_modify, if_pos rfl, found]
  obtain ⟨side, ref⟩ := h
  cases side <;> rfl

theorem slot?_settle_of_ne {k : Half} (other : k ≠ h) (v : Value) :
    h.slot? (pairs.modify k.ref (·.settle v k.side)) = h.slot? pairs := by
  obtain ⟨side, ref⟩ := h
  obtain ⟨side', ref'⟩ := k
  unfold slot?
  rw [Array.getElem?_modify]
  split
  · next same =>
    subst same
    cases pairs[ref']? with
    | none => rfl
    | some pair => cases side <;> cases side' <;> first | rfl | exact absurd rfl other
  · rfl

end Half

namespace Evolves

variable {pairs mid later : Array LazyPair}

theorem refl (pairs : Array LazyPair) : Evolves pairs pairs := by
  intro h slot held
  exact ⟨slot, held, .same⟩

theorem trans (first : Evolves pairs mid) (second : Evolves mid later) : Evolves pairs later := by
  intro h slot held
  obtain ⟨next, found, evolved⟩ := first h slot held
  obtain ⟨last, found, evolvedOn⟩ := second h next found
  exact ⟨last, found, evolved.trans evolvedOn⟩

theorem push (first : Evolves pairs later) (p : LazyPair) : Evolves pairs (later.push p) := by
  intro h slot held
  obtain ⟨next, found, evolved⟩ := first h slot held
  exact ⟨next, h.slot?_push found p, evolved⟩

/-- A half that has been pending may get a value, even if it has one by now. -/
theorem settle (first : Evolves pairs later) (k : Half) (v : Value)
    (pending : ∀ u, k.slot? pairs ≠ some (.ready u)) :
    Evolves pairs (later.modify k.ref (·.settle v k.side)) := by
  intro h slot held
  obtain ⟨next, found, evolved⟩ := first h slot held
  by_cases same : k = h
  · subst same
    refine ⟨.ready v, k.slot?_settle_self found v, ?_⟩
    cases slot with
    | ready u => exact absurd held (pending u)
    | pending expr frame => exact .settled
  · exact ⟨next, (Half.slot?_settle_of_ne same v).trans found, evolved⟩

end Evolves

def evolving (pairs : Array LazyPair) : Likeness :=
  { Likeness.exactly with
    keeps := Evolves pairs
    keeps_push _ p known := known.push p }

theorem maySettle_evolving {pairs later : Array LazyPair} {h : Half} {expr : Value}
    {frame : FrameId} (known : Evolves pairs later)
    (held : h.slot? later = some (.pending expr frame)) : (evolving pairs).MaySettle h := by
  refine ⟨?_, fun _ _ _ _ lost => lost⟩
  intro latest v evolved
  refine evolved.settle h v ?_
  -- A half that had a value at first would not be pending now.
  intro u ready
  obtain ⟨slot, found, same⟩ := known h _ ready
  cases same
  rw [held] at found
  cases found

theorem evolving_evaluate (pairs : Array LazyPair) (w : World) (fuel : Nat) (room : Option Nat)
    (busy : List Half) (expr : Value) (frame : FrameId) (name : Option String) :
    (evolving pairs).Steady (Observer.silent.evaluate true w fuel room busy expr frame name) := by
  induction fuel generalizing room busy expr frame name with
  | zero => exact .throw rfl
  | succ fuel ih =>
    refine Likeness.evaluateSucc ?_ (.of_eq rfl _) (.inl rfl) ?_ ?_ room expr frame name
    · intro p
      exact .pure (.inl fun _ _ same => same)
    · exact fun room => ih room busy
    · intro room side ref
      rw [Observer.force_silent]
      refine Likeness.forceWith (ih room _) ?_ side ref
      rintro h later expr frame (known | lost) held
      · exact maySettle_evolving known held
      · exact lost.elim fun _ lost => lost.elim fun _ lost => lost.elim

def after {α : Type} : EStateM.Result Interrupt Store α → Store
  | .ok _ s => s
  | .error _ s => s

/-- Where something is asked in any case, the stores that are left are alike. -/
theorem Likeness.Outcomes.stores {L : Likeness} {α β : Type} {R : α → β → Prop}
    {r : EStateM.Result Interrupt Store α} {r' : EStateM.Result Interrupt Store β}
    (ended : L.Outcomes R r r') (none : ∀ errors pairs n, ¬ L.lost errors pairs n)
    (never : ∀ e, ¬ L.aborts e) : L.Stores (after r) (after r') := by
  cases ended with
  | ok _ later => exact later
  | error _ later => exact later
  | lost lost => exact (lost.false none never).elim

theorem evolves_of_steady {α : Type} {x : Run α} {s : Store}
    (steady : (evolving s.lazyPairs).Steady x) : Evolves s.lazyPairs (after (x s)).lazyPairs :=
  have ended := steady.outcomes s s (.refl (fun _ => rfl) (.refl _))
  (ended.stores (fun _ _ _ => id) fun _ => id).keeps

theorem evolves_evaluate (w : World) (fuel : Nat) (room : Option Nat) (expr : Value)
    (frame : FrameId) (name : Option String) (s : Store) :
    Evolves s.lazyPairs (after (evaluate w fuel room expr frame name s)).lazyPairs := by
  rw [← Observer.evaluate_silent w fuel room []]
  exact evolves_of_steady (evolving_evaluate s.lazyPairs w fuel room [] expr frame name)

theorem Likeness.catchOverflow {L : Likeness} {x y : Run Value} (tried : L.Alike Eq x y)
    {fault : Fault} (same : L.faults fault fault) :
    L.Alike Eq (Session.catchOverflow x fault) (Session.catchOverflow y fault) :=
  Simulation.catchOverflow (T := L.simulation) (c := ()) tried same

theorem Likeness.evalWith {L : Likeness} {w : World}
    {evaluate evaluate' : Value → FrameId → Option String → Run Value}
    (evals : ∀ expr frame name, L.Alike Eq (evaluate expr frame name) (evaluate' expr frame name))
    (same : ∀ f, L.faults f f) (code : String) : L.Alike Eq (Session.evalWith w evaluate code)
      (Session.evalWith w evaluate' code) := by
  refine Simulation.evalWith (T := L.simulation) (c := ()) ⟨?_, fun follows => ?_, ?_⟩ w code
  · rintro _ v _ frame rfl - name
    exact evals v frame name
  · exact follows () trivial trivial
  · rintro _ v w message source
    cases source with
    | some source => rw [show _ = _ from source]; exact same _
    | none => exact same _

def Observer.eval (o : Observer) (w : World) (fuel : Nat) (code : String) : Run Value :=
  Session.evalWith w (o.evaluate true w fuel w.room []) code

theorem Observer.eval_silent (w : World) (fuel : Nat) (code : String) :
    silent.eval w fuel code = Session.eval w fuel code := by
  rw [Observer.eval, Observer.evaluate_silent, Session.eval]

theorem evolves_eval (w : World) (fuel : Nat) (code : String) (s : Store) :
    Evolves s.lazyPairs (after (Session.eval w fuel code s)).lazyPairs := by
  rw [← Observer.eval_silent]
  apply evolves_of_steady
  exact Likeness.evalWith (evolving_evaluate s.lazyPairs w fuel w.room []) (fun _ => rfl) code

/-- The outcomes of texts that are evaluated one after another. What a text did before it failed
stays done. -/
def outcomes (eval : String → Run Value) :
    List String → Store → List (EStateM.Result Interrupt Store Value)
  | [], _ => []
  | code :: codes, s => eval code s :: outcomes eval codes (after (eval code s))

def Observer.atEnd (act : Half → Run Unit) : Observer := { silent with ends := act }

/-- The observer that acts when a half gets a value inside its own evaluation. -/
def Observer.inside (act : Half → Run Unit) : Observer := { silent with settlesInside := act }

def Half.isReady (h : Half) (pairs : Array LazyPair) : Bool := (h.slot? pairs).any Slot.isReady

/-- Throughout the texts a half has no value yet whenever an evaluation of it ends, with a value or
without. Since a half gets a value only from an evaluation of it that has ended, none gets a value
twice; and an evaluation that fails leaves its half pending. -/
def SettlesOnce (w : World) (fuel : Nat) (codes : List String) (s : Store) : Prop :=
  ∀ act : Half → Run Unit, (∀ h t, h.isReady t.lazyPairs = false → act h t = .ok () t) →
    outcomes ((Observer.atEnd act).eval w fuel) codes s =
      outcomes (Session.eval w fuel) codes s

/-- Throughout the texts no half gets a value inside its own evaluation. -/
def NeverSettlesInside (w : World) (fuel : Nat) (codes : List String) (s : Store) : Prop :=
  ∀ act : Half → Run Unit,
    outcomes ((Observer.inside act).eval w fuel) codes s =
      outcomes (Session.eval w fuel) codes s

/-- All counts, and the halves that are being evaluated are pending. The first run may end in an
interrupt that nothing catches; where it is `doomed` by a value for such a half, nothing is asked of
the second run from then on. -/
def settling (e : Interrupt) (uncaught : e.Uncaught) (doomed : Bool) (busy : List Half) :
    Likeness :=
  { Likeness.exactly with
    aborts d := d = e
    keeps pairs := ∀ h ∈ busy, ∃ expr frame, h.slot? pairs = some (.pending expr frame)
    lost _ pairs _ := doomed = true ∧ ∃ h ∈ busy, ∃ v, h.slot? pairs = some (.ready v)
    uncaught _ same := uncaught.of_eq same
    keeps_push := by
      intro pairs p known h isBusy
      obtain ⟨expr, frame, held⟩ := known h isBusy
      exact ⟨expr, frame, h.slot?_push held p⟩
    lost_push := by
      rintro _ pairs _ p ⟨doomed, h, isBusy, v, held⟩
      exact ⟨doomed, h, isBusy, v, h.slot?_push held p⟩
    lost_error _ _ _ _ lost := lost
    lost_symbol _ _ _ lost := lost
    lost_faults _ _ _ _ _ := rfl }

def Store.settle (s : Store) (h : Half) (v : Value) : Store :=
  { s with lazyPairs := s.lazyPairs.modify h.ref (·.settle v h.side) }

/-- The observer that ends the run where a half gets a value inside its own evaluation: at once, or,
where that is left to `doomed` runs, when the evaluation ends. -/
def stopping (e : Interrupt) (doomed : Bool) : Observer where
  calls _ := pure ()
  ends h s := if doomed && h.isReady s.lazyPairs then .error e s else .ok () s
  settlesInside _ := if doomed then pure () else throw e

namespace Observer

variable (o : Observer) (eval : List Half → Value → FrameId → Option String → Run Value)
  (busy : List Half) (h : Half) {s : Store}

def complete (v : Value) : Run Value := do
  o.ends h
  if h ∈ busy then o.settlesInside h
  Run.settle h.ref h.side v
  return v

def giveUp (e : Interrupt) : Run Value := do
  o.ends h
  throw e

def access : Slot → Run Value
  | .ready v => pure v
  | .pending expr frame =>
    (eval (h :: busy) expr frame none).either (o.complete busy h) (o.giveUp h)

theorem force_of_slot {slot : Slot} (held : h.slot? s.lazyPairs = some slot) :
    o.force eval busy h.side h.ref s = o.access eval busy h slot s := by
  obtain ⟨pair, found, rfl⟩ := Option.map_eq_some_iff.mp held
  have watched (x : Run Value) : (do
      let v ← o.watch h x
      if h ∈ busy then o.settlesInside h
      Run.settle h.ref h.side v
      return v) = x.either (o.complete busy h) (o.giveUp h) := by
    funext s
    simp only [watch, Run.either, bind, EStateM.bind]
    cases x s with
    | ok v s =>
      change _ = EStateM.bind (o.ends h) _ s
      simp only [EStateM.bind]
      cases o.ends h s <;> rfl
    | error e s =>
      change _ = EStateM.bind (o.ends h) _ s
      simp only [EStateM.bind]
      cases o.ends h s <;> rfl
  change ((Run.held s.lazyPairs[h.ref]? : Run LazyPair) >>= _) s = _
  rw [found]
  change (match pair.slot h.side with
    | .ready v => pure v
    | .pending expr frame => _ : Run Value) s = _
  cases pair.slot h.side with
  | ready v => rfl
  | pending expr frame => exact congrFun (watched (eval (h :: busy) expr frame none)) s

theorem force_of_none (held : h.slot? s.lazyPairs = none) :
    o.force eval busy h.side h.ref s = .error .dangling s := by
  have missing : s.lazyPairs[h.ref]? = none := by simpa [Half.slot?] using held
  change ((Run.held s.lazyPairs[h.ref]? : Run LazyPair) >>= _) s = _
  rw [missing]
  rfl

end Observer

section Simulation

variable {e : Interrupt} (uncaught : e.Uncaught) {doomed : Bool} {busy : List Half} {h : Half}

theorem isReady_of_pending {pairs : Array LazyPair} {expr : Value} {frame : FrameId}
    (held : h.slot? pairs = some (.pending expr frame)) : h.isReady pairs = false := by
  rw [Half.isReady, held]
  rfl

theorem isReady_of_ready {pairs : Array LazyPair} {v : Value}
    (held : h.slot? pairs = some (.ready v)) : h.isReady pairs = true := by
  rw [Half.isReady, held]
  rfl

theorem ends_stopping (e : Interrupt) (doomed : Bool) (h : Half) (s : Store) :
    (stopping e doomed).ends h s = .ok () s ∨ (stopping e doomed).ends h s = .error e s := by
  dsimp only [stopping]
  split
  · exact .inr rfl
  · exact .inl rfl

theorem ends_stopping_of_pending (e : Interrupt) (doomed : Bool) {s : Store}
    (pending : h.isReady s.lazyPairs = false) : (stopping e doomed).ends h s = .ok () s := by
  simp [stopping, pending]

theorem ends_stopping_of_ready {s : Store} (ready : h.isReady s.lazyPairs = true) :
    (stopping e true).ends h s = .error e s := by
  simp [stopping, ready]

/-- After an evaluation of a half that nothing objects to, the half gets its value. -/
theorem complete_of_silent {o : Observer} {s : Store} (ends : o.ends h s = .ok () s)
    (inside : h ∈ busy → o.settlesInside h = pure ()) (v : Value) :
    o.complete busy h v s = .ok v (s.settle h v) := by
  change EStateM.bind (o.ends h) _ s = _
  simp only [EStateM.bind, ends]
  by_cases isBusy : h ∈ busy
  · rw [if_pos isBusy, inside isBusy]
    rfl
  · rw [if_neg isBusy]
    rfl

theorem complete_of_inside {o : Observer} {s : Store} (ends : o.ends h s = .ok () s)
    (isBusy : h ∈ busy) (inside : o.settlesInside h = throw e) (v : Value) :
    o.complete busy h v s = .error e s := by
  change EStateM.bind (o.ends h) _ s = _
  simp only [EStateM.bind, ends]
  rw [if_pos isBusy, inside]
  rfl

theorem complete_of_ends {o : Observer} {s : Store} (ends : o.ends h s = .error e s) (v : Value) :
    o.complete busy h v s = .error e s := by
  change EStateM.bind (o.ends h) _ s = _
  simp only [EStateM.bind, ends]

theorem giveUp_of_silent {o : Observer} {s : Store} (ends : o.ends h s = .ok () s) (d : Interrupt) :
    o.giveUp h d s = .error d s := by
  change EStateM.bind (o.ends h) _ s = _
  simp only [EStateM.bind, ends]
  rfl

theorem giveUp_of_ends {o : Observer} {s : Store} (ends : o.ends h s = .error e s) (d : Interrupt) :
    o.giveUp h d s = .error e s := by
  change EStateM.bind (o.ends h) _ s = _
  simp only [EStateM.bind, ends]

/-- The other halves that are being evaluated stay pending when one gets its value. -/
theorem keeps_settle {pairs : Array LazyPair} (other : h ∉ busy)
    (known : (settling e uncaught doomed busy).keeps pairs) (v : Value) :
    (settling e uncaught doomed busy).keeps (pairs.modify h.ref (·.settle v h.side)) := by
  intro k isBusy
  have ne : h ≠ k := by
    rintro rfl
    exact other isBusy
  obtain ⟨expr, frame, held⟩ := known k isBusy
  exact ⟨expr, frame, (Half.slot?_settle_of_ne ne v).trans held⟩

theorem settling_complete {o : Observer} {s : Store} (ends : o.ends h s = .ok () s)
    (known : (settling e uncaught doomed (h :: busy)).keeps s.lazyPairs) (v : Value) :
    (settling e uncaught doomed busy).Outcomes Eq ((stopping e doomed).complete busy h v s)
      (o.complete busy h v s) := by
  obtain ⟨expr, frame, held⟩ := known h List.mem_cons_self
  have silent := ends_stopping_of_pending e doomed (isReady_of_pending held)
  have others : (settling e uncaught doomed busy).keeps s.lazyPairs := by
    intro k isBusy
    exact known k (List.mem_cons_of_mem h isBusy)
  by_cases isBusy : h ∈ busy
  · refine .lost ?_
    cases doomed with
    | false =>
      rw [complete_of_inside silent isBusy rfl]
      exact .aborted rfl
    | true =>
      rw [complete_of_silent silent fun _ => rfl]
      exact .ok rfl ⟨rfl, h, isBusy, v, h.slot?_settle_self held v⟩
  · rw [complete_of_silent silent fun isBusy' => absurd isBusy' isBusy,
      complete_of_silent ends fun isBusy' => absurd isBusy' isBusy]
    exact .ok rfl (.refl (fun _ => rfl) (keeps_settle uncaught isBusy others v))

/-- Once a half that is being evaluated has a value, the run is ended by that half, or the half
stays as it is. -/
theorem settling_lost {r : EStateM.Result Interrupt Store Value}
    (lost : (settling e uncaught doomed (h :: busy)).Lost Eq r) :
    (settling e uncaught doomed busy).Lost Eq (Run.either (fun _ => r)
      ((stopping e doomed).complete busy h) ((stopping e doomed).giveUp h) .empty) := by
  have other {k : Half} {s : Store} {v : Value} (isBusy : k ∈ h :: busy)
      (held : k.slot? s.lazyPairs = some (.ready v)) (pending : h.isReady s.lazyPairs = false) :
      h ≠ k ∧ k ∈ busy := by
    have ne : h ≠ k := by
      rintro rfl
      simp [isReady_of_ready held] at pending
    exact ⟨ne, (List.mem_cons.mp isBusy).resolve_left ne.symm⟩
  cases lost with
  | @ok v _ s _ lost =>
    obtain ⟨rfl, k, isBusy, u, held⟩ := lost
    change Likeness.Lost _ _ ((stopping e true).complete busy h v s)
    cases ready : h.isReady s.lazyPairs with
    | true =>
      rw [complete_of_ends (ends_stopping_of_ready ready)]
      exact .aborted rfl
    | false =>
      obtain ⟨ne, isBusy⟩ := other isBusy held ready
      rw [complete_of_silent (ends_stopping_of_pending e true ready) fun _ => rfl]
      exact .ok rfl ⟨rfl, k, isBusy, u, (Half.slot?_settle_of_ne ne v).trans held⟩
  | @error d _ s same lost =>
    obtain ⟨rfl, k, isBusy, u, held⟩ := lost
    change Likeness.Lost _ _ ((stopping e true).giveUp h d s)
    cases ready : h.isReady s.lazyPairs with
    | true =>
      rw [giveUp_of_ends (ends_stopping_of_ready ready)]
      exact .aborted rfl
    | false =>
      rw [giveUp_of_silent (ends_stopping_of_pending e true ready)]
      exact .error (.refl (fun _ => rfl) d) ⟨rfl, k, (other isBusy held ready).2, u, held⟩
  | @aborted d s aborts =>
    change Likeness.Lost _ _ ((stopping e doomed).giveUp h d s)
    -- Whether its end is silent or not, the run ends in the same interrupt.
    obtain rfl := show d = e from aborts
    rcases ends_stopping d doomed h s with silent | stops
    · rw [giveUp_of_silent silent]
      exact .aborted rfl
    · rw [giveUp_of_ends stops]
      exact .aborted rfl

variable {o : Observer} (ends : ∀ h t, h.isReady t.lazyPairs = false → o.ends h t = .ok () t)

include ends

theorem settling_ended {r r' : EStateM.Result Interrupt Store Value}
    (ended : (settling e uncaught doomed (h :: busy)).Outcomes Eq r r') :
    (settling e uncaught doomed busy).Outcomes Eq
      (Run.either (fun _ => r) ((stopping e doomed).complete busy h)
        ((stopping e doomed).giveUp h) .empty)
      (Run.either (fun _ => r') (o.complete busy h) (o.giveUp h) .empty) := by
  cases ended with
  | @ok v _ s _ same later =>
    subst same
    have known := later.keeps
    obtain rfl := later.eq_of_whole fun _ _ same => same
    obtain ⟨expr, frame, held⟩ := known h List.mem_cons_self
    exact settling_complete uncaught (ends h s (isReady_of_pending held)) known v
  | @error d d' s _ same later =>
    have known := later.keeps
    obtain rfl := later.eq_of_whole fun _ _ same => same
    obtain ⟨expr, frame, held⟩ := known h List.mem_cons_self
    have pending := isReady_of_pending held
    change Likeness.Outcomes _ _ ((stopping e doomed).giveUp h d s) (o.giveUp h d' s)
    rw [giveUp_of_silent (ends_stopping_of_pending e doomed pending),
      giveUp_of_silent (ends h s pending)]
    refine .error ?_ (.refl (fun _ => rfl) fun k isBusy => known k (List.mem_cons_of_mem h isBusy))
    cases same with
    | fault same => exact .fault same
    | same plain => exact .same plain
  | lost lost => exact .lost (settling_lost uncaught lost)

/-- Accesses go alike if evaluation does, whichever halves are being evaluated. -/
theorem settling_force {eval eval' : List Half → Value → FrameId → Option String → Run Value}
    (evals : ∀ busy expr frame name, (settling e uncaught doomed busy).Alike Eq
      (eval busy expr frame name) (eval' busy expr frame name))
    (busy : List Half) (side : Side) (ref : Nat) :
    (settling e uncaught doomed busy).Alike Eq ((stopping e doomed).force eval busy side ref)
      (o.force eval' busy side ref) := by
  let h : Half := ⟨side, ref⟩
  change Likeness.Alike _ _ ((stopping e doomed).force eval busy h.side h.ref)
    (o.force eval' busy h.side h.ref)
  refine ⟨?_, ?_⟩
  · intro s t stores
    have known := stores.keeps
    obtain rfl := stores.eq_of_whole fun _ _ same => same
    cases held : h.slot? s.lazyPairs with
    | none =>
      rw [Observer.force_of_none _ _ _ h held, Observer.force_of_none _ _ _ h held]
      exact .error (.same rfl) stores
    | some slot =>
      rw [Observer.force_of_slot _ _ _ h held, Observer.force_of_slot _ _ _ h held]
      cases slot with
      | ready v => exact .ok rfl stores
      | pending expr frame =>
        have all : (settling e uncaught doomed (h :: busy)).keeps s.lazyPairs := by
          intro k isBusy
          rcases List.mem_cons.mp isBusy with rfl | isBusy
          · exact ⟨expr, frame, held⟩
          · exact known k isBusy
        have ended := (evals (h :: busy) expr frame none).outcomes s s (.refl (fun _ => rfl) all)
        change Likeness.Outcomes _ _
          (Run.either (fun _ => eval (h :: busy) expr frame none s) _ _ .empty)
          (Run.either (fun _ => eval' (h :: busy) expr frame none s) _ _ .empty)
        generalize eval (h :: busy) expr frame none s = r at ended
        generalize eval' (h :: busy) expr frame none s = r' at ended
        exact settling_ended uncaught ends ended
  · intro s lost
    cases held : h.slot? s.lazyPairs with
    | none =>
      rw [Observer.force_of_none _ _ _ h held]
      exact .error (.same rfl) lost
    | some slot =>
      rw [Observer.force_of_slot _ _ _ h held]
      cases slot with
      | ready v => exact .ok rfl lost
      | pending expr frame =>
        obtain ⟨dooms, k, isBusy, v, ready⟩ := lost
        refine settling_lost uncaught ((evals (h :: busy) expr frame none).lost s ?_)
        exact ⟨dooms, k, List.mem_cons_of_mem h isBusy, v, ready⟩

theorem settling_evaluate (calls : o.calls = Observer.silent.calls) (w : World) (fuel : Nat)
    (room : Option Nat) (busy : List Half) (expr : Value) (frame : FrameId) (name : Option String) :
    (settling e uncaught doomed busy).Alike Eq
      ((stopping e doomed).evaluate true w fuel room busy expr frame name)
      (o.evaluate true w fuel room busy expr frame name) := by
  induction fuel generalizing room busy expr frame name with
  | zero => exact .throw rfl
  | succ fuel ih =>
    refine Likeness.evaluateSucc ?_ (.of_eq rfl _) (.inl rfl) ?_ ?_ room expr frame name
    · intro p
      rw [calls]
      exact .pure (.inl fun _ _ same => same)
    · exact fun room => ih room busy
    · exact fun room => settling_force uncaught ends (ih room) busy

include uncaught in
/-- A text that is evaluated without being stopped is evaluated in the same way under an observer
that is silent while halves are pending. -/
theorem eval_of_stopping (calls : o.calls = Observer.silent.calls) {w : World} {fuel : Nat}
    {code : String} {s : Store} {r : EStateM.Result Interrupt Store Value}
    (unstopped : (stopping e doomed).eval w fuel code s = r) (other : ∀ t, r ≠ .error e t) :
    o.eval w fuel code s = r := by
  have alike : (settling e uncaught doomed []).Alike Eq ((stopping e doomed).eval w fuel code)
      (o.eval w fuel code) :=
    Likeness.evalWith (settling_evaluate uncaught ends calls w fuel w.room []) (fun _ => rfl) code
  have ended := alike.outcomes s s (.refl (fun _ => rfl) (by rintro k ⟨⟩))
  rw [unstopped] at ended
  rcases ended.eq_of_whole (fun _ _ same => same) with same | lost
  · exact same.symm
  · obtain ⟨d, t, gaveUp, aborts⟩ := lost.aborts (by rintro _ pairs _ ⟨-, k, ⟨⟩, -⟩)
    rw [show d = e from aborts] at gaveUp
    exact absurd gaveUp (other t)

end Simulation

section Texts

variable {w : World} {fuel : Nat}

theorem outcomes_cons_eq_iff {eval eval' : String → Run Value} {code : String} {codes : List String}
    {s : Store} : outcomes eval (code :: codes) s = outcomes eval' (code :: codes) s ↔
      eval code s = eval' code s ∧
        outcomes eval codes (after (eval' code s)) =
          outcomes eval' codes (after (eval' code s)) := by
  rw [outcomes, outcomes, List.cons.injEq]
  constructor
  · rintro ⟨first, rest⟩
    rw [first] at rest
    exact ⟨first, rest⟩
  · rintro ⟨first, rest⟩
    rw [first]
    exact ⟨rfl, rest⟩

/-- Where evaluations end while their halves are pending, no half gets a value inside its own
evaluation. -/
theorem eval_settlesInside {code : String} {s : Store}
    (once : ∀ act : Half → Run Unit, (∀ h t, h.isReady t.lazyPairs = false → act h t = .ok () t) →
      (Observer.atEnd act).eval w fuel code s = Session.eval w fuel code s)
    (act : Half → Run Unit) :
    (Observer.inside act).eval w fuel code s =
      Session.eval w fuel code s := by
  obtain ⟨e, uncaught, other⟩ := exists_uncaught (Session.eval w fuel code s)
  have unstopped : (stopping e true).eval w fuel code s = Session.eval w fuel code s := by
    refine once _ fun h t pending => ?_
    exact ends_stopping_of_pending e true pending
  exact eval_of_stopping uncaught (o := .inside act) (fun _ _ _ => rfl) rfl unstopped other

theorem eval_ends {code : String} {s : Store}
    (never : ∀ act : Half → Run Unit,
      (Observer.inside act).eval w fuel code s =
        Session.eval w fuel code s)
    {act : Half → Run Unit} (silent : ∀ h t, h.isReady t.lazyPairs = false → act h t = .ok () t) :
    (Observer.atEnd act).eval w fuel code s = Session.eval w fuel code s := by
  obtain ⟨e, uncaught, other⟩ := exists_uncaught (Session.eval w fuel code s)
  have unstopped : (stopping e false).eval w fuel code s = Session.eval w fuel code s :=
    never fun _ => throw e
  exact eval_of_stopping uncaught (o := .atEnd act) silent rfl unstopped other

theorem settlesOnce_iff_neverSettlesInside (codes : List String) (s : Store) :
    SettlesOnce w fuel codes s ↔ NeverSettlesInside w fuel codes s := by
  induction codes generalizing s with
  | nil => exact ⟨fun _ _ => rfl, fun _ _ _ => rfl⟩
  | cons code codes ih =>
    constructor
    · intro once act
      rw [outcomes_cons_eq_iff]
      constructor
      · refine eval_settlesInside ?_ act
        intro act silent
        exact (outcomes_cons_eq_iff.mp (once act silent)).1
      · refine (ih _).mp ?_ act
        intro act silent
        exact (outcomes_cons_eq_iff.mp (once act silent)).2
    · intro never act silent
      rw [outcomes_cons_eq_iff]
      constructor
      · refine eval_ends ?_ silent
        intro act
        exact (outcomes_cons_eq_iff.mp (never act)).1
      · refine (ih _).mpr ?_ act silent
        intro act
        exact (outcomes_cons_eq_iff.mp (never act)).2

theorem pairwise_evolves (codes : List String) (s : Store) :
    (s :: (outcomes (Session.eval w fuel) codes s).map after).Pairwise fun s t =>
      Evolves s.lazyPairs t.lazyPairs := by
  induction codes generalizing s with
  | nil => exact List.pairwise_singleton _ _
  | cons code codes ih =>
    have rest := ih (after (Session.eval w fuel code s))
    have first := evolves_eval w fuel code s
    refine List.Pairwise.cons ?_ rest
    intro t among
    rcases List.mem_cons.mp among with rfl | later
    · exact first
    · exact first.trans (List.rel_of_pairwise_cons rest later)

end Texts

theorem slot?_of_forceWith {w : World} {fuel : Nat} {room : Option Nat} {h : Half} {s t : Store}
    {v : Value} (accessed : Engine.forceWith (evaluate w fuel room) h.side h.ref s = .ok v t) :
    h.slot? t.lazyPairs = some (.ready v) := by
  have silent : Engine.forceWith (evaluate w fuel room) h.side h.ref =
      Observer.silent.force (Observer.silent.evaluate true w fuel room) [] h.side h.ref := by
    rw [Observer.force_silent, Observer.evaluate_silent]
  rw [silent] at accessed
  cases held : h.slot? s.lazyPairs with
  | none =>
    rw [Observer.force_of_none _ _ _ h held] at accessed
    cases accessed
  | some slot =>
    rw [Observer.force_of_slot _ _ _ h held] at accessed
    cases slot with
    | ready u =>
      cases accessed
      exact held
    | pending expr frame =>
      have evolved := evolves_of_steady
        (evolving_evaluate s.lazyPairs w fuel room [h] expr frame none)
      simp only [Observer.access, Run.either] at accessed
      cases ended : Observer.silent.evaluate true w fuel room [h] expr frame none s with
      | error d s' =>
        rw [ended] at accessed
        cases accessed
      | ok u s' =>
        rw [ended] at accessed evolved
        obtain ⟨slot, found, -⟩ := evolved h _ held
        change Observer.silent.complete [] h u s' = _ at accessed
        rw [complete_of_silent rfl fun _ => rfl] at accessed
        cases accessed
        exact h.slot?_settle_self found v

/-- Throughout any texts, a half gets a value at most once and a failure leaves it pending if and
only if no half gets a value inside its own evaluation. In any case the halves that have values keep
them, from text to text and from the start of an evaluation to its end, while the others stay
pending or get values; and what an access returns is what the half then holds. -/
theorem halves_settle_once_iff (w : World) (fuel : Nat) (codes : List String) (s : Store) :
    (SettlesOnce w fuel codes s ↔ NeverSettlesInside w fuel codes s) ∧
    ((s :: (outcomes (Session.eval w fuel) codes s).map after).Pairwise fun s t =>
      Evolves s.lazyPairs t.lazyPairs) ∧
    (∀ room expr frame name (t : Store),
      Evolves t.lazyPairs (after (evaluate w fuel room expr frame name t)).lazyPairs) ∧
    ∀ room (h : Half) t v t', Engine.forceWith (evaluate w fuel room) h.side h.ref t = .ok v t' →
      h.slot? t'.lazyPairs = some (.ready v) := by
  refine ⟨settlesOnce_iff_neverSettlesInside codes s, pairwise_evolves codes s, ?_, ?_⟩
  · intro room expr frame name t
    exact evolves_evaluate w fuel room expr frame name t
  · intro room h t v t' accessed
    exact slot?_of_forceWith accessed

def shown : EStateM.Result Interrupt Store Value → Option String
  | .ok v s => (s.readable none v).toOption
  | .error _ _ => none

/-- A lazy pair whose first half accesses itself where it is evaluated for the first time, and what
the inner access and a later one return. -/
def selfAccess : List String :=
  ["(define n 0)", "(define inner 0)",
    "(define p (lazy-cons (begin (set! n (+ n 1)) (if (= n 1) (begin (set! inner (car p)) 1) 2)) 0))",
    "(begin (car p) (list inner (car p)))"]

/-- The half gets the inner value, and then the outer one in its place. -/
theorem not_settlesOnce_selfAccess :
    ¬ SettlesOnce bareWorld 20 selfAccess (after (Session.bindPrimitives "" .empty)) ∧
    (outcomes (Session.eval bareWorld 20) selfAccess
      (after (Session.bindPrimitives "" .empty))).map shown =
        [some "n", some "inner", some "p", some "(2 1)"] := by
  constructor
  · intro once
    have stopped := once (stopping .dangling true).ends fun h t pending =>
      ends_stopping_of_pending .dangling true pending
    have texts := congrArg (List.map shown) stopped
    revert texts
    decide +kernel
  · decide +kernel

end LazyLisp
