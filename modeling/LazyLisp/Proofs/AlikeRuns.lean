import LazyLisp.Proofs.AlikeSteps
import LazyLisp.Proofs.Observation

/-!
Whole runs go alike if their steps do. The steps are alike if calls, evaluation inside a step and
the forcing of lazy pairs are.
-/

namespace LazyLisp

namespace Likeness

variable {L : Likeness} {m m' : Engine} {o o' : Observer}

def Leaves (L : Likeness) (limit : Int) : Prop :=
  ∀ f g form name, L.faults f g → L.faults (f.leave form name limit) (g.leave form name limit)

theorem Leaves.of_eq (same : L.faults = Eq) (limit : Int) : L.Leaves limit := by
  intro f g form name
  rw [same]
  rintro rfl
  rfl

/-- Computations whose faults leave the same form. -/
theorem Alike.leave {α β : Type} {R : α → β → Prop} {x : Run α} {y : Run β} {f : α → Run Value}
    {g : β → Run Value} (first : L.Alike R x y) (rest : ∀ a b, R a b → L.Alike Eq (f a) (g b))
    {limit : Int} (leaves : L.Leaves limit) (expr : Value) (name : Option String) :
    L.Alike Eq (x.either f (leaving limit expr name)) (y.either g (leaving limit expr name)) := by
  refine first.either rest (fun f g same => .throwFault (leaves f g _ _ same)) ?_ ?_
  · intro e plain
    cases e with
    | fault f => cases plain
    | _ => exact .throw rfl
  · intro e s aborts
    cases e with
    | fault f => exact absurd rfl ((L.uncaught _ aborts).fault f)
    | _ => exact .aborted aborts

theorem proceed {next next' : Value → FrameId → Option String → Run Value}
    (nexts : ∀ expr frame name, L.Alike Eq (next expr frame name) (next' expr frame name))
    {x y : Run Step} (steps : L.Alike Eq x y) {limit : Int} (leaves : L.Leaves limit) (expr : Value)
    (name : Option String) :
    L.Alike Eq (LazyLisp.proceed limit next expr name x)
      (LazyLisp.proceed limit next' expr name y) := by
  rw [proceed_eq_either, proceed_eq_either]
  refine steps.leave ?_ leaves expr name
  rintro step _ rfl
  cases step with
  | value v => exact .same
  | tail expr frame name => exact nexts expr frame name

def Calls (L : Likeness) (o o' : Observer) : Prop :=
  ∀ p, L.Alike (fun _ _ => L.Whole ∨ p.showsTrace = false) (o.calls p) (o'.calls p)

theorem applyWithin (alike : L.Engines m m') (watched : L.Calls o o') {fuel fuel' : Nat}
    (fuels : L.Fuel fuel fuel') (room : Option Nat) (tail : Bool) (f : Value) (args : List Value)
    (frame : FrameId) :
    L.Alike Eq (o.applyWithin m fuel room tail f args frame)
      (o'.applyWithin m' fuel' room tail f args frame) := by
  induction fuel generalizing fuel' room tail f args frame with
  | zero => exact fuels.out (by rintro rfl; rfl)
  | succ fuel ih =>
    obtain ⟨fuel', rfl, less⟩ := fuels.of_succ
    unfold Observer.applyWithin
    cases descend room with
    | none => exact .throw rfl
    | some room =>
      cases f with
      | procedure ref =>
        refine (procedure ref).andThen fun p => (watched p).bind fun _ _ shown => ?_
        exact runWith alike (ih less room true) tail args frame p shown
      | _ => exact (alike.inMessage _).andThen fun _ => fail _ _

theorem apply (alike : L.Engines m m') (watched : L.Calls o o') (tail : Bool) (f : Value)
    (args : List Value) (frame : FrameId) :
    L.Alike Eq (o.apply m tail f args frame) (o'.apply m' tail f args frame) := by
  unfold Observer.apply
  rw [alike.room]
  exact applyWithin alike watched alike.fuel.succ _ tail f args frame

/-- What follows the look at a lazy pair need only go alike on pairs of which something is known. -/
theorem lazyPair {α β : Type} {R : α → β → Prop} {f : LazyPair → Run α} {g : LazyPair → Run β}
    (ref : Nat) (rest : ∀ pairs pair, L.keeps pairs ∨ (∃ errors n, L.lost errors pairs n) →
      pairs[ref]? = some pair → L.Alike R (f pair) (g pair)) :
    L.Alike R (Run.lazyPair ref >>= f) (Run.lazyPair ref >>= g) where
  outcomes := by
    rintro s _ ⟨errors, known⟩
    rename_i es
    change L.Outcomes R ((Run.held s.lazyPairs[ref]? >>= f) s)
      ((Run.held s.lazyPairs[ref]? >>= g) { s with errors := es })
    cases found : s.lazyPairs[ref]? with
    | none => exact .error (.same rfl) (.intro errors known)
    | some pair => exact (rest _ pair (.inl known) found).outcomes _ _ (.intro errors known)
  lost s lost := by
    change L.Lost R ((Run.held s.lazyPairs[ref]? >>= f) s)
    cases found : s.lazyPairs[ref]? with
    | none => exact .error (.same rfl) lost
    | some pair => exact (rest _ pair (.inr ⟨_, _, lost⟩) found).lost s lost

structure MaySettle (L : Likeness) (h : Half) : Prop where
  keeps : ∀ pairs v, L.keeps pairs → L.keeps (pairs.modify h.ref (·.settle v h.side))
  lost : ∀ errors pairs n v, L.lost errors pairs n →
    L.lost errors (pairs.modify h.ref (·.settle v h.side)) n

theorem settle {h : Half} (may : L.MaySettle h) (v : Value) :
    L.Steady (Run.settle h.ref h.side v) :=
  .change (fun _ _ => rfl) (fun _ => rfl) (fun _ => may.keeps _ v) fun _ => may.lost _ _ _ v

/-- Forcing by evaluation, where the halves that are pending may get values. -/
theorem forceWith {eval eval' : Value → FrameId → Option String → Run Value}
    (evals : ∀ expr frame name, L.Alike Eq (eval expr frame name) (eval' expr frame name))
    (may : ∀ (h : Half) pairs expr frame, L.keeps pairs ∨ (∃ errors n, L.lost errors pairs n) →
      h.slot? pairs = some (.pending expr frame) → L.MaySettle h)
    (side : Side) (ref : Nat) :
    L.Alike Eq (Engine.forceWith eval side ref) (Engine.forceWith eval' side ref) := by
  refine lazyPair ref fun pairs pair known found => ?_
  cases slot : pair.slot side with
  | ready v => exact .same
  | pending expr frame =>
    have held : (⟨side, ref⟩ : Half).slot? pairs = some (.pending expr frame) := by
      rw [Half.slot?, found, Option.map_some, slot]
    refine (evals _ _ _).andThen fun v => ?_
    exact (settle (may ⟨side, ref⟩ pairs expr frame known held) v).andThen fun _ => .same

theorem evaluateSucc {tail : Bool} {w : World} {fuel fuel' : Nat} {busy : List Half}
    (watched : L.Calls o o') (leaves : L.Leaves w.traceLimit) (fuels : L.Fuel fuel fuel')
    (evals : ∀ room expr frame name, L.Alike Eq (o.evaluate tail w fuel room busy expr frame name)
      (o'.evaluate tail w fuel' room busy expr frame name))
    (forces : ∀ room side ref, L.Alike Eq (o.force (o.evaluate tail w fuel room) busy side ref)
      (o'.force (o'.evaluate tail w fuel' room) busy side ref))
    (room : Option Nat) (expr : Value) (frame : FrameId) (name : Option String) :
    L.Alike Eq (o.evaluate tail w (fuel + 1) room busy expr frame name)
      (o'.evaluate tail w (fuel' + 1) room busy expr frame name) := by
  cases deeper : descend room with
  | none =>
    rw [o.evaluate_full tail w fuel deeper, o'.evaluate_full tail w fuel' deeper]
    exact .throw rfl
  | some inner =>
    have alike : L.Engines (o.engine w fuel inner (o.evaluate tail w fuel inner) busy)
        (o'.engine w fuel' inner (o'.evaluate tail w fuel' inner) busy) := by
      refine ⟨by simp, by simp, ?_, ?_, ?_⟩
      · simpa using fuels
      · simpa using evals inner
      · simpa using forces inner
    rw [o.evaluate_succ tail w fuel deeper, o'.evaluate_succ tail w fuel' deeper]
    exact proceed (evals room) (stepWith alike (fun _ _ => apply alike watched _ _ _ _) expr)
      leaves _ _

end Likeness

/-- All counts, and the first run may run out of fuel. -/
def moreFuel : Likeness :=
  { Likeness.exactly with
    aborts e := e = .outOfFuel
    uncaught := by
      rintro _ rfl
      exact ⟨by simp, by simp, by simp⟩ }

theorem whole_moreFuel : moreFuel.Whole := fun _ _ same => same

theorem moreFuel_evaluate (tail : Bool) (w : World) {fuel fuel' : Nat} (less : fuel ≤ fuel')
    (room : Option Nat) (busy : List Half) (expr : Value) (frame : FrameId) (name : Option String) :
    moreFuel.Alike Eq (Observer.silent.evaluate tail w fuel room busy expr frame name)
      (Observer.silent.evaluate tail w fuel' room busy expr frame name) := by
  induction fuel generalizing fuel' room busy expr frame name with
  | zero => exact .aborting rfl
  | succ fuel ih =>
    obtain ⟨fuel', rfl⟩ : ∃ k, fuel' = k + 1 := ⟨fuel' - 1, by omega⟩
    have less : fuel ≤ fuel' := by omega
    refine Likeness.evaluateSucc ?_ (.of_eq rfl _) (.inr ⟨less, rfl⟩) ?_ ?_ room expr frame name
    · intro p
      exact .pure (.inl whole_moreFuel)
    · exact fun room => ih less room busy
    · intro room side ref
      rw [Observer.force_silent, Observer.force_silent]
      refine Likeness.forceWith (ih less room _) ?_ side ref
      intro h pairs expr frame _ _
      exact ⟨fun _ _ _ => trivial, fun _ _ _ _ lost => lost⟩

def Finished {α : Type} (r : EStateM.Result Interrupt Store α) : Prop :=
  ∀ s, r ≠ .error .outOfFuel s

theorem silent_evaluate_of_le (tail : Bool) {w : World} {fuel fuel' : Nat} {room : Option Nat}
    {expr : Value} {frame : FrameId} {name : Option String} {s : Store}
    (finished : Finished (Observer.silent.evaluate tail w fuel room [] expr frame name s))
    (less : fuel ≤ fuel') :
    Observer.silent.evaluate tail w fuel' room [] expr frame name s =
      Observer.silent.evaluate tail w fuel room [] expr frame name s := by
  have ended := (moreFuel_evaluate tail w less room [] expr frame name).outcomes s s
    (.refl (fun _ => rfl) trivial)
  rcases ended.eq_of_whole whole_moreFuel with same | lost
  · exact same.symm
  · obtain ⟨e, t, gaveUp, rfl⟩ := lost.aborts fun _ _ _ => id
    exact absurd gaveUp (finished t)

section MoreFuel

variable {w : World} {fuel fuel' : Nat} {room : Option Nat} {expr : Value} {frame : FrameId}
  {name : Option String} {s : Store}

theorem evaluate_of_le (finished : Finished (evaluate w fuel room expr frame name s))
    (less : fuel ≤ fuel') :
    evaluate w fuel' room expr frame name s = evaluate w fuel room expr frame name s := by
  rw [← Observer.evaluate_silent w fuel room []] at finished ⊢
  rw [← Observer.evaluate_silent w fuel' room []]
  exact silent_evaluate_of_le true finished less

theorem evaluatePlain_of_le (finished : Finished (evaluatePlain w fuel room expr frame name s))
    (less : fuel ≤ fuel') :
    evaluatePlain w fuel' room expr frame name s = evaluatePlain w fuel room expr frame name s := by
  rw [← Observer.evaluate_silent_false w fuel room []] at finished ⊢
  rw [← Observer.evaluate_silent_false w fuel' room []]
  exact silent_evaluate_of_le false finished less

end MoreFuel

end LazyLisp
