import LazyLisp.Disk.Tree
import LazyLisp.Eval.Evaluate

/-!
Observed evaluation.

An observer is told when a procedure is run, when the evaluation of a half of a lazy pair has ended,
and when a half gets a value inside its own evaluation. It may look at the store, change it, or end
the run. An observer that does nothing leaves evaluation as it is; that a run never does something
is said by observers that act on nothing else and make no difference.
-/

namespace LazyLisp

/-- One half of a lazy pair that the store holds. -/
structure Half where
  side : Side
  ref : Nat
  deriving DecidableEq

def Half.slot? (h : Half) (pairs : Array LazyPair) : Option Slot :=
  pairs[h.ref]?.map (·.slot h.side)

/-- What follows a step: the value, or whatever is left open; and a fault of the step itself takes
the expression along. -/
def proceed (limit : Int) (next : Value → FrameId → Option String → Run Value) (expr : Value)
    (name : Option String) (x : Run Step) : Run Value := fun s =>
  match x s with
  | .ok (.value v) s => .ok v s
  | .ok (.tail expr frame name) s => next expr frame name s
  | .error (.fault f) s => .error (.fault (f.leave expr name limit)) s
  | .error e s => .error e s

structure Observer where
  /-- A procedure is about to be run. -/
  calls : Procedure → Run Unit
  /-- The evaluation of a half has ended, with a value or without. -/
  ends : Half → Run Unit
  /-- A half is about to get a value inside its own evaluation. -/
  settlesInside : Half → Run Unit

namespace Observer

def silent : Observer := ⟨fun _ => pure (), fun _ => pure (), fun _ => pure ()⟩

variable (o : Observer)

def applyWithin (m : Engine) :
    (fuel : Nat) → (room : Option Nat) → (tail : Bool) → Value → List Value → FrameId → Run Step
  | 0, _, _, _, _, _ => throw .outOfFuel
  | fuel + 1, room, tail, f, args, frame =>
    match descend room with
    | none => throw .overflow
    | some room =>
      match f with
      | .procedure ref => do
        let p ← Run.procedure ref
        o.calls p
        Call.runWith m (applyWithin m fuel room true) tail args frame p
      | v => Call.applyWith m (applyWithin m fuel room true) tail v args frame

def apply (m : Engine) (tail : Bool) (f : Value) (args : List Value) (frame : FrameId) : Run Step :=
  o.applyWithin m (m.fuel + 1) m.room tail f args frame

/-- Evaluate the expression of a half and tell the observer when that has ended. -/
def watch (h : Half) (x : Run Value) : Run Value := fun s =>
  match x s with
  | .ok v s => (do o.ends h; return v : Run Value) s
  | .error e s => (do o.ends h; throw e : Run Value) s

def force (eval : List Half → Value → FrameId → Option String → Run Value) (busy : List Half)
    (side : Side) (ref : Nat) : Run Value := do
  match (← Run.lazyPair ref).slot side with
  | .ready v => return v
  | .pending expr frame =>
    let v ← o.watch ⟨side, ref⟩ (eval (⟨side, ref⟩ :: busy) expr frame none)
    if ⟨side, ref⟩ ∈ busy then o.settlesInside ⟨side, ref⟩
    Run.settle ref side v
    return v

def engine (w : World) (fuel : Nat) (room : Option Nat)
    (eval : List Half → Value → FrameId → Option String → Run Value) (busy : List Half) : Engine :=
  ⟨w, fuel, room, eval busy, o.force eval busy⟩

/-- Evaluate an expression under observation. Tail positions are left to the next step, or they are
evaluated where they stand. -/
def evaluate (tail : Bool) (w : World) : (fuel : Nat) → (room : Option Nat) → (busy : List Half) →
    Value → FrameId → Option String → Run Value
  | 0, _, _, _, _, _ => throw .outOfFuel
  | fuel + 1, room, busy, expr, frame, name =>
    match descend room with
    | none => throw .overflow
    | some inner =>
      let m := o.engine w fuel inner (evaluate tail w fuel inner) busy
      proceed w.traceLimit (evaluate tail w fuel room busy) expr name
        (stepWith (o.apply m) m expr frame tail)

end Observer

/-- Evaluate an expression by nested evaluation throughout: every tail position is evaluated where
it stands. -/
def evaluatePlain (w : World) :
    (fuel : Nat) → (room : Option Nat) → Value → FrameId → Option String → Run Value
  | 0, _, _, _, _ => throw .outOfFuel
  | fuel + 1, room, expr, frame, name =>
    match descend room with
    | none => throw .overflow
    | some inner =>
      -- A step that is not in tail position leaves nothing open.
      proceed w.traceLimit (evaluatePlain w fuel room) expr name
        (step (.ofEval w fuel inner (evaluatePlain w fuel inner)) expr frame false)

theorem evaluatePlain_succ (w : World) (fuel : Nat) {room inner : Option Nat}
    (deeper : descend room = some inner) (expr : Value) (frame : FrameId) (name : Option String) :
    evaluatePlain w (fuel + 1) room expr frame name =
      proceed w.traceLimit (evaluatePlain w fuel room) expr name
        (step (.ofEval w fuel inner (evaluatePlain w fuel inner)) expr frame false) := by
  rw [evaluatePlain, deeper]

namespace Observer

variable (o : Observer)

section Engine

variable (w : World) (fuel : Nat) (room : Option Nat)
  (eval : List Half → Value → FrameId → Option String → Run Value) (busy : List Half)

@[simp]
theorem engine_world : (o.engine w fuel room eval busy).world = w := rfl

@[simp]
theorem engine_fuel : (o.engine w fuel room eval busy).fuel = fuel := rfl

@[simp]
theorem engine_room : (o.engine w fuel room eval busy).room = room := rfl

@[simp]
theorem engine_eval : (o.engine w fuel room eval busy).eval = eval busy := rfl

@[simp]
theorem engine_force : (o.engine w fuel room eval busy).force = o.force eval busy := rfl

end Engine

theorem evaluate_succ (tail : Bool) (w : World) (fuel : Nat) {room inner : Option Nat}
    (deeper : descend room = some inner) (busy : List Half) (expr : Value) (frame : FrameId)
    (name : Option String) :
    o.evaluate tail w (fuel + 1) room busy expr frame name =
      proceed w.traceLimit (o.evaluate tail w fuel room busy) expr name
        (stepWith (o.apply (o.engine w fuel inner (o.evaluate tail w fuel inner) busy))
          (o.engine w fuel inner (o.evaluate tail w fuel inner) busy) expr frame tail) := by
  rw [evaluate, deeper]

theorem evaluate_full (tail : Bool) (w : World) (fuel : Nat) {room : Option Nat}
    (full : descend room = none) (busy : List Half) (expr : Value) (frame : FrameId)
    (name : Option String) :
    o.evaluate tail w (fuel + 1) room busy expr frame name = throw .overflow := by
  rw [evaluate, full]

end Observer

namespace Observer

theorem apply_silent (m : Engine) : silent.apply m = Call.apply m := by
  have within (fuel : Nat) : silent.applyWithin m fuel = Call.applyWithin m fuel := by
    induction fuel with
    | zero => rfl
    | succ fuel ih =>
      funext room tail f args frame
      rw [applyWithin, Call.applyWithin]
      cases descend room with
      | none => rfl
      | some room =>
        rw [ih]
        cases f <;> rfl
  funext tail f args frame
  rw [apply, within, Call.apply]

theorem watch_silent (h : Half) (x : Run Value) : silent.watch h x = x := by
  funext s
  rw [watch]
  cases x s <;> rfl

theorem force_silent (eval : List Half → Value → FrameId → Option String → Run Value)
    (busy : List Half) (side : Side) (ref : Nat) :
    silent.force eval busy side ref = Engine.forceWith (eval (⟨side, ref⟩ :: busy)) side ref := by
  unfold force Engine.forceWith
  congr 1
  funext pair
  cases pair.slot side with
  | ready v => rfl
  | pending expr frame =>
    simp only [watch_silent]
    congr 1
    funext v
    split <;> rfl

theorem engine_silent (w : World) (fuel : Nat) (room : Option Nat)
    {eval : List Half → Value → FrameId → Option String → Run Value}
    {plain : Value → FrameId → Option String → Run Value} (same : ∀ busy, eval busy = plain)
    (busy : List Half) : silent.engine w fuel room eval busy = .ofEval w fuel room plain := by
  have force : silent.force eval busy = Engine.forceWith plain := by
    funext side ref
    rw [force_silent, same]
  rw [engine, force, same, Engine.ofEval]

/-- What goes on in the same way as an observer that does nothing, step by step, is the same. -/
theorem evaluate_silent_of_succ (tail : Bool) (w : World)
    (plain : Nat → Option Nat → Value → FrameId → Option String → Run Value)
    (zero : ∀ room expr frame name, plain 0 room expr frame name = throw .outOfFuel)
    (full : ∀ fuel room expr frame name, descend room = none →
      plain (fuel + 1) room expr frame name = throw .overflow)
    (succ : ∀ fuel room inner expr frame name, descend room = some inner →
      plain (fuel + 1) room expr frame name = proceed w.traceLimit (plain fuel room) expr name
        (step (.ofEval w fuel inner (plain fuel inner)) expr frame tail))
    (fuel : Nat) (room : Option Nat) (busy : List Half) :
    silent.evaluate tail w fuel room busy = plain fuel room := by
  induction fuel generalizing room busy with
  | zero =>
    funext expr frame name
    rw [zero]
    rfl
  | succ fuel ih =>
    funext expr frame name
    cases deeper : descend room with
    | none => rw [silent.evaluate_full tail w fuel deeper, full fuel room expr frame name deeper]
    | some inner =>
      rw [silent.evaluate_succ tail w fuel deeper, succ fuel room inner expr frame name deeper,
        engine_silent w fuel inner (ih inner), apply_silent, ih, step]

theorem evaluate_silent (w : World) (fuel : Nat) (room : Option Nat) (busy : List Half) :
    silent.evaluate true w fuel room busy = LazyLisp.evaluate w fuel room := by
  refine evaluate_silent_of_succ true w (LazyLisp.evaluate w) ?_ ?_ ?_ fuel room busy
  · intro room expr frame name
    rfl
  · intro fuel room expr frame name full
    funext s
    rw [LazyLisp.evaluate, full]
    rfl
  · intro fuel room inner expr frame name deeper
    funext s
    rw [LazyLisp.evaluate, deeper]
    rfl

theorem evaluate_silent_false (w : World) (fuel : Nat) (room : Option Nat) (busy : List Half) :
    silent.evaluate false w fuel room busy = evaluatePlain w fuel room := by
  refine evaluate_silent_of_succ false w (evaluatePlain w) ?_ ?_ ?_ fuel room busy
  · intro room expr frame name
    rfl
  · intro fuel room expr frame name full
    rw [evaluatePlain, full]
  · intro fuel room inner expr frame name deeper
    exact evaluatePlain_succ w fuel deeper expr frame name

end Observer

/-- Surroundings without files and without limits. -/
def bareWorld : World where
  disk := .ofTree .empty
  searchPath := []
  traceLimit := 64
  room := none
  logging := .standard

end LazyLisp
