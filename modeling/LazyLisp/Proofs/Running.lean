import LazyLisp.Proofs.AlikeRuns

/-!
How runs go on, in single equations: a computation behind one that has ended, and evaluation from one
step to the next. The engine inside an evaluation may be given more fuel.
-/

namespace LazyLisp

namespace Run

variable {α β : Type} {x : Run α} {f : α → Run β} {s t : Store}

theorem bind_of_ok {a : α} (ended : x s = .ok a t) : (x >>= f) s = f a t := by
  change EStateM.bind x f s = _
  rw [EStateM.bind, ended]

theorem bind_of_error {e : Interrupt} (ended : x s = .error e t) : (x >>= f) s = .error e t := by
  change EStateM.bind x f s = _
  rw [EStateM.bind, ended]

theorem map_of_ok {f : α → β} {a : α} (ended : x s = .ok a t) : (f <$> x) s = .ok (f a) t := by
  change EStateM.map f x s = _
  rw [EStateM.map, ended]

theorem map_of_error {f : α → β} {e : Interrupt} (ended : x s = .error e t) :
    (f <$> x) s = .error e t := by
  change EStateM.map f x s = _
  rw [EStateM.map, ended]

theorem of_bind_ok {b : β} {u : Store} (ended : (x >>= f) s = .ok b u) :
    ∃ a t, x s = .ok a t ∧ f a t = .ok b u := by
  change EStateM.bind x f s = _ at ended
  unfold EStateM.bind at ended
  split at ended
  · rename_i a t first
    exact ⟨a, t, first, ended⟩
  · contradiction

theorem of_bind_error {e : Interrupt} {u : Store} (failed : (x >>= f) s = .error e u) :
    x s = .error e u ∨ ∃ a t, x s = .ok a t ∧ f a t = .error e u := by
  change EStateM.bind x f s = _ at failed
  unfold EStateM.bind at failed
  split at failed
  · rename_i a t first
    exact .inr ⟨a, t, first, failed⟩
  · rename_i first
    cases failed
    exact .inl first

end Run

abbrev Engine.evaluating (w : World) (fuel : Nat) (room : Option Nat) : Engine :=
  .ofEval w fuel room (evaluate w fuel room)

theorem evaluate_eq_proceed (w : World) (fuel : Nat) {room inner : Option Nat}
    (deeper : descend room = some inner) (expr : Value) (frame : FrameId) (name : Option String) :
    evaluate w (fuel + 1) room expr frame name = proceed w.traceLimit (evaluate w fuel room) expr name
      (step (.evaluating w fuel inner) expr frame true) := by
  funext s
  rw [evaluate, deeper]
  rfl

/-- A step at a pair: its arguments come first, then the special form or the value of its head. -/
theorem step_pair (m : Engine) (mark : Nat) (head rest : Value) (frame : FrameId) (tail : Bool) :
    step m (.pair mark head rest) frame tail = m.arguments rest >>= fun args =>
      match head.symbol?.bind SpecialForm.ofName? with
      | some form => form.run m args frame tail
      | none => m.eval head frame none >>= fun f =>
        applicationWith (Call.apply m) m f args frame tail := rfl

section Steps

variable {w : World} {fuel : Nat} {room inner : Option Nat} (deeper : descend room = some inner)
  {expr : Value} {frame : FrameId} {name : Option String} {s t : Store}

include deeper

theorem evaluate_of_value {v : Value}
    (done : step (.evaluating w fuel inner) expr frame true s = .ok (.value v) t) :
    evaluate w (fuel + 1) room expr frame name s = .ok v t := by
  rw [evaluate_eq_proceed w fuel deeper, proceed, done]

theorem evaluate_of_tail {next : Value} {frame' : FrameId} {name' : Option String}
    (goesOn : step (.evaluating w fuel inner) expr frame true s = .ok (.tail next frame' name') t) :
    evaluate w (fuel + 1) room expr frame name s = evaluate w fuel room next frame' name' t := by
  rw [evaluate_eq_proceed w fuel deeper, proceed, goesOn]

theorem evaluate_of_error {e : Interrupt}
    (failed : step (.evaluating w fuel inner) expr frame true s = .error e t) :
    evaluate w (fuel + 1) room expr frame name s = leaving w.traceLimit expr name e t := by
  rw [evaluate_eq_proceed w fuel deeper, proceed, failed]
  cases e <;> rfl

end Steps

theorem lookup_of_find? {frame owner : FrameId} {name : String} {v : Value} {s : Store}
    (bound : Frame.find? s.frames name frame = some (owner, v)) :
    Run.lookup frame name s = .ok v s := by
  have found : Run.find? frame name s = .ok (some (owner, v)) s := by
    rw [← bound]
    rfl
  exact Run.bind_of_ok found

theorem evaluate_symbol (w : World) (fuel : Nat) {room inner : Option Nat}
    (deeper : descend room = some inner) {frame owner : FrameId} {symbol : String} {v : Value}
    {s : Store} (bound : Frame.find? s.frames symbol frame = some (owner, v))
    (name : Option String) :
    evaluate w (fuel + 1) room (.symbol symbol) frame name s = .ok v s :=
  evaluate_of_value deeper (Run.map_of_ok (lookup_of_find? bound))

/-- With more fuel the engine does the same, as long as it did not run out of fuel. -/
theorem moreFuel_engines (w : World) {fuel more : Nat} (less : fuel ≤ more) (room : Option Nat) :
    moreFuel.Engines (.evaluating w fuel room) (.evaluating w more room) := by
  have evals (expr : Value) (frame : FrameId) (name : Option String) :
      moreFuel.Alike Eq (evaluate w fuel room expr frame name)
        (evaluate w more room expr frame name) := by
    rw [← Observer.evaluate_silent w fuel room [], ← Observer.evaluate_silent w more room []]
    exact moreFuel_evaluate true w less room [] expr frame name
  refine ⟨rfl, rfl, .inr ⟨less, rfl⟩, evals, ?_⟩
  refine Likeness.forceWith evals ?_
  intro h pairs expr frame _ _
  exact ⟨fun _ _ _ => trivial, fun _ _ _ _ lost => lost⟩

theorem finished_ok {α : Type} (a : α) (s : Store) : Finished (.ok a s) := by
  intro t same
  cases same

theorem finished_error {α : Type} {e : Interrupt} (finished : e ≠ .outOfFuel) (s : Store) :
    Finished (.error e s : EStateM.Result Interrupt Store α) := by
  rintro t ⟨⟩
  exact finished rfl

/-- Computations that differ in their fuel only end in the same way, unless the first one runs out
of fuel. -/
theorem eq_of_moreFuel {α : Type} {x y : Run α} (alike : moreFuel.Alike Eq x y) {s : Store}
    (finished : Finished (x s)) : y s = x s := by
  have ended := alike.outcomes s s (.refl (fun _ => rfl) trivial)
  rcases ended.eq_of_whole whole_moreFuel with same | lost
  · exact same.symm
  · obtain ⟨e, t, gaveUp, rfl⟩ := lost.aborts fun _ _ _ => id
    exact absurd gaveUp (finished t)

end LazyLisp
