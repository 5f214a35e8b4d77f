import LazyLisp.Proofs.LazyHalves
import LazyLisp.Proofs.Running

/-!
Evaluation that keeps records.

A recorder acts wherever an evaluation starts, has got its value, or is left by a fault; it says what
a fault notes of the forms that it leaves, and how the procedures are run that show these notes. Two
recorders can be compared: their runs go alike if their records do. A first use is that the errors
of the store are kept: whatever error a run comes to is still there, unchanged, where the run ends or
is ended.
-/

namespace LazyLisp

structure Recorder where
  /-- An evaluation starts, has got its value, or is about to be left by a fault. -/
  passes : Run Unit
  /-- A fault that has left a form, which is the body of the named procedure if there is a name. -/
  leaves : Fault → Value → Option String → Fault
  /-- A procedure is run that shows what faults have noted. -/
  shows : Run Step → Run Step

namespace Recorder

def watching (limit : Int) (watch : Run Unit) : Recorder where
  passes := watch
  leaves f form name := f.leave form name limit
  shows x := x

variable (k : Recorder)

def applyWithin (m : Engine) :
    (fuel : Nat) → (room : Option Nat) → (tail : Bool) → Value → List Value → FrameId → Run Step
  | 0, _, _, _, _, _ => throw .outOfFuel
  | fuel + 1, room, tail, f, args, frame =>
    match descend room with
    | none => throw .overflow
    | some room =>
      match f with
      | .procedure ref => do
        let p ← Run.procedure ref
        if p.showsTrace then k.shows (Call.runWith m (applyWithin m fuel room true) tail args frame p)
        else Call.runWith m (applyWithin m fuel room true) tail args frame p
      | v => Call.applyWith m (applyWithin m fuel room true) tail v args frame

def apply (m : Engine) (tail : Bool) (f : Value) (args : List Value) (frame : FrameId) : Run Step :=
  k.applyWithin m (m.fuel + 1) m.room tail f args frame

/-- What follows a step: the value, or whatever is left open; and a fault of the step itself leaves
the expression. -/
def proceed (next : Value → FrameId → Option String → Run Value) (expr : Value)
    (name : Option String) (x : Run Step) : Run Value :=
  x.either
    (fun
      | .value v => do
        k.passes
        return v
      | .tail expr frame name => next expr frame name)
    fun
      | .fault f => do
        k.passes
        throw (.fault (k.leaves f expr name))
      | e => throw e

/-- Evaluate an expression and keep records. -/
def evaluate (w : World) :
    (fuel : Nat) → (room : Option Nat) → Value → FrameId → Option String → Run Value
  | 0, _, _, _, _ => throw .outOfFuel
  | fuel + 1, room, expr, frame, name => do
    k.passes
    match descend room with
    | none => throw .overflow
    | some inner =>
      let m := Engine.ofEval w fuel inner (evaluate w fuel inner)
      k.proceed (evaluate w fuel room) expr name (stepWith (k.apply m) m expr frame true)

theorem evaluate_succ (w : World) (fuel : Nat) {room inner : Option Nat}
    (deeper : descend room = some inner) (expr : Value) (frame : FrameId) (name : Option String) :
    k.evaluate w (fuel + 1) room expr frame name = k.passes >>= fun _ =>
      k.proceed (k.evaluate w fuel room) expr name
        (stepWith (k.apply (.ofEval w fuel inner (k.evaluate w fuel inner)))
          (.ofEval w fuel inner (k.evaluate w fuel inner)) expr frame true) := by
  rw [evaluate, deeper]

theorem evaluate_full (w : World) (fuel : Nat) {room : Option Nat} (full : descend room = none)
    (expr : Value) (frame : FrameId) (name : Option String) :
    k.evaluate w (fuel + 1) room expr frame name = k.passes >>= fun _ => throw .overflow := by
  rw [evaluate, full]

theorem apply_watching (limit : Int) (watch : Run Unit) (m : Engine) :
    (watching limit watch).apply m = Call.apply m := by
  have within (fuel : Nat) : (watching limit watch).applyWithin m fuel = Call.applyWithin m fuel := by
    induction fuel with
    | zero => rfl
    | succ fuel ih =>
      funext room tail f args frame
      rw [applyWithin, Call.applyWithin]
      cases descend room with
      | none => rfl
      | some room =>
        rw [ih]
        cases f with
        | procedure ref =>
          simp only [watching, ite_self]
          rfl
        | _ => rfl
  funext tail f args frame
  rw [apply, within, Call.apply]

theorem proceed_watching (limit : Int) (next : Value → FrameId → Option String → Run Value)
    (expr : Value) (name : Option String) (x : Run Step) :
    (watching limit (pure ())).proceed next expr name x =
      LazyLisp.proceed limit next expr name x := by
  rw [proceed_eq_either]
  funext s
  unfold proceed Run.either
  cases x s with
  | ok step s => cases step <;> rfl
  | error e s => cases e <;> rfl

theorem evaluate_watching (w : World) (fuel : Nat) (room : Option Nat) :
    (watching w.traceLimit (pure ())).evaluate w fuel room = LazyLisp.evaluate w fuel room := by
  induction fuel generalizing room with
  | zero => rfl
  | succ fuel ih =>
    funext expr frame name
    cases deeper : descend room with
    | none =>
      funext s
      rw [evaluate_full _ w fuel deeper, LazyLisp.evaluate, deeper]
      rfl
    | some inner =>
      rw [evaluate_eq_proceed w fuel deeper, evaluate_succ _ w fuel deeper]
      change (watching w.traceLimit (pure ())).proceed _ expr name _ = _
      rw [proceed_watching, apply_watching, ih, ih, step]

end Recorder

namespace Likeness

variable {L : Likeness} {k k' : Recorder} {m m' : Engine}

/-- Recorders that keep records that are alike, where every half of a lazy pair may get a value. -/
structure Recorders (L : Likeness) (k k' : Recorder) : Prop where
  passes : L.Alike Eq k.passes k'.passes
  leaves : ∀ f g form name, L.faults f g → L.faults (k.leaves f form name) (k'.leaves g form name)
  shows : ∀ {m m' : Engine} {again again' : Primitive.Caller}, L.Engines m m' →
    (∀ f args frame, L.Alike Eq (again f args frame) (again' f args frame)) →
    ∀ tail args frame (p : Procedure), p.showsTrace = true →
      L.Alike Eq (k.shows (Call.runWith m again tail args frame p))
        (k'.shows (Call.runWith m' again' tail args frame p))
  settles : ∀ h, L.MaySettle h

namespace Recorders

variable (same : L.Recorders k k')

include same

theorem applyWithin (alike : L.Engines m m') (fuel : Nat) (room : Option Nat) (tail : Bool)
    (f : Value) (args : List Value) (frame : FrameId) :
    L.Alike Eq (k.applyWithin m fuel room tail f args frame)
      (k'.applyWithin m' fuel room tail f args frame) := by
  induction fuel generalizing room tail f args frame with
  | zero => exact .throw rfl
  | succ fuel ih =>
    unfold Recorder.applyWithin
    cases descend room with
    | none => exact .throw rfl
    | some room =>
      cases f with
      | procedure ref =>
        refine (procedure ref).andThen fun p => ?_
        cases shows : p.showsTrace with
        | true => exact same.shows alike (ih room true) tail args frame p shows
        | false => exact runWith alike (ih room true) tail args frame p (.inr shows)
      | _ => exact (alike.inMessage _).andThen fun _ => fail _ _

theorem apply (alike : L.Engines m m') (fuel : m.fuel = m'.fuel) (tail : Bool) (f : Value)
    (args : List Value) (frame : FrameId) :
    L.Alike Eq (k.apply m tail f args frame) (k'.apply m' tail f args frame) := by
  unfold Recorder.apply
  rw [alike.room, fuel]
  exact same.applyWithin alike _ _ _ f args frame

theorem proceed {next next' : Value → FrameId → Option String → Run Value}
    (nexts : ∀ expr frame name, L.Alike Eq (next expr frame name) (next' expr frame name))
    {x y : Run Step} (steps : L.Alike Eq x y) (expr : Value) (name : Option String) :
    L.Alike Eq (k.proceed next expr name x) (k'.proceed next' expr name y) := by
  refine steps.either ?_ ?_ ?_ ?_
  · rintro step _ rfl
    cases step with
    | value v => exact same.passes.andThen fun _ => .same
    | tail expr frame name => exact nexts expr frame name
  · intro f g faults
    exact same.passes.andThen fun _ => .throwFault (same.leaves f g _ _ faults)
  · intro e plain
    cases e with
    | fault f => cases plain
    | _ => exact .throw rfl
  · intro e s aborts
    cases e with
    | fault f => exact absurd rfl ((L.uncaught _ aborts).fault f)
    | _ => exact .aborted aborts

theorem evaluate (w : World) (fuel : Nat) (room : Option Nat) (expr : Value) (frame : FrameId)
    (name : Option String) :
    L.Alike Eq (k.evaluate w fuel room expr frame name)
      (k'.evaluate w fuel room expr frame name) := by
  induction fuel generalizing room expr frame name with
  | zero => exact .throw rfl
  | succ fuel ih =>
    cases deeper : descend room with
    | none =>
      rw [k.evaluate_full w fuel deeper, k'.evaluate_full w fuel deeper]
      exact same.passes.andThen fun _ => .throw rfl
    | some inner =>
      rw [k.evaluate_succ w fuel deeper, k'.evaluate_succ w fuel deeper]
      have alike : L.Engines (.ofEval w fuel inner (k.evaluate w fuel inner))
          (.ofEval w fuel inner (k'.evaluate w fuel inner)) :=
        ⟨(rfl : w = w), (rfl : inner = inner), .inl (rfl : fuel = fuel), ih inner,
          forceWith (ih inner) fun h _ _ _ _ _ => same.settles h⟩
      refine same.passes.andThen fun _ => same.proceed (ih room) ?_ expr name
      exact stepWith alike (fun _ _ => same.apply alike (rfl : fuel = fuel) _ _ _ _) expr

end Recorders

end Likeness

/-- A run that is watched from store to store. -/
def evaluateWatched (w : World) (watch : Run Unit) :
    (fuel : Nat) → (room : Option Nat) → Value → FrameId → Option String → Run Value :=
  (Recorder.watching w.traceLimit watch).evaluate w

theorem evaluateWatched_pure (w : World) : evaluateWatched w (pure ()) = evaluate w := by
  funext fuel room
  exact Recorder.evaluate_watching w fuel room

/-- A watch leaves the store alone, and either lets the run go on or ends it. -/
def OnlyLooks (watch : Run Unit) : Prop :=
  ∀ s, watch s = .ok () s ∨ ∃ e : Interrupt, e.Uncaught ∧ watch s = .error e s

theorem onlyLooks_pure : OnlyLooks (pure ()) := fun _ => .inl rfl

/-- A run, which `stop` may end, comes to a store of which `p` holds, where it starts or an evaluation
inside it starts, has got its value, or is left by a fault: a watch that does anything else than
`stop` in such stores only may make a difference. -/
def ComesTo (p : Store → Prop) (stop : Run Unit) (w : World) (fuel : Nat) (room : Option Nat)
    (expr : Value) (frame : FrameId) (name : Option String) (s : Store) : Prop :=
  p s ∨ ∃ watch : Run Unit, (∀ t, ¬ p t → watch t = stop t) ∧
    evaluateWatched w watch fuel room expr frame name s ≠
      evaluateWatched w stop fuel room expr frame name s

namespace Likeness

variable {L : Likeness} {stop watch : Run Unit} {p : Store → Prop}

/-- The likeness differs from `exactly` at most in what is lost, and no value for a half of a lazy
pair makes good what is lost. -/
structure OnlyLoses (L : Likeness) : Prop where
  whole : L.Whole
  refl : ∀ f, L.faults f f
  keeps : ∀ pairs, L.keeps pairs
  never : ∀ e, ¬ L.aborts e
  settles : ∀ h, L.MaySettle h

/-- A run goes alike under watches that differ only where it is lost. -/
theorem OnlyLoses.recorders (only : L.OnlyLoses) (looks : OnlyLooks stop)
    (lost : ∀ s, p s → L.lost s.errors s.lazyPairs s.nextSymbol)
    (apart : ∀ t, ¬ p t → watch t = stop t) (limit : Int) :
    L.Recorders (.watching limit stop) (.watching limit watch) := by
  have ends (s : Store) (isLost : L.lost s.errors s.lazyPairs s.nextSymbol) :
      L.Lost Eq (stop s) := by
    rcases looks s with goesOn | ⟨e, -, ended⟩
    · rw [goesOn]
      exact .ok rfl isLost
    · rw [ended]
      exact .error (.refl only.refl e) isLost
  refine ⟨⟨?_, ends⟩, ?_, ?_, only.settles⟩
  · intro s t stores
    obtain rfl := stores.eq_of_whole only.whole
    by_cases holds : p s
    · exact .lost (ends s (lost s holds))
    · change L.Outcomes Eq (stop s) (watch s)
      rw [apart s holds]
      rcases looks s with goesOn | ⟨e, -, ended⟩
      · rw [goesOn]
        exact .ok rfl stores
      · rw [ended]
        exact .error (.refl only.refl e) stores
  · intro f g form name same
    rw [only.whole f g same]
    exact only.refl _
  · intro m m' again again' alike calls tail args frame p _
    exact Likeness.runWith alike calls tail args frame p (.inl only.whole)

/-- The store that a computation leaves is lost if it is asked nothing any more. -/
theorem OnlyLoses.after (only : L.OnlyLoses) {α β : Type} {R : α → β → Prop}
    {r : EStateM.Result Interrupt Store α} (lost : L.Lost R r) :
    L.lost (after r).errors (after r).lazyPairs (after r).nextSymbol := by
  cases lost with
  | ok _ lost => exact lost
  | error _ lost => exact lost
  | aborted aborts => exact absurd aborts (only.never _)

/-- What is lost where a run comes to is lost where the run ends or is ended. -/
theorem OnlyLoses.lost_of_comesTo (only : L.OnlyLoses) (looks : OnlyLooks stop)
    (lost : ∀ s, p s → L.lost s.errors s.lazyPairs s.nextSymbol) {w : World} {fuel : Nat}
    {room : Option Nat} {expr : Value} {frame : FrameId} {name : Option String} {s : Store}
    (comes : ComesTo p stop w fuel room expr frame name s) :
    let r := evaluateWatched w stop fuel room expr frame name s
    L.lost (LazyLisp.after r).errors (LazyLisp.after r).lazyPairs (LazyLisp.after r).nextSymbol := by
  rcases comes with holds | ⟨watch, apart, differs⟩
  · have alike : L.Recorders (.watching w.traceLimit stop) (.watching w.traceLimit stop) :=
      only.recorders looks lost (fun _ _ => rfl) w.traceLimit
    exact only.after ((alike.evaluate w fuel room expr frame name).lost s (lost s holds))
  · have alike := only.recorders looks lost apart w.traceLimit
    have ended := (alike.evaluate w fuel room expr frame name).outcomes s s
      (.refl only.refl (only.keeps _))
    rcases ended.eq_of_whole only.whole with same | isLost
    · exact absurd same.symm differs
    · exact only.after isLost

end Likeness

/-- The store keeps the error value. -/
def Store.Remembers (ref : Nat) (f : Fault) (s : Store) : Prop := s.errors[ref]? = some f

def remembering (ref : Nat) (f : Fault) : Likeness :=
  { Likeness.exactly with
    lost errors _ _ := errors[ref]? = some f
    lost_push _ _ _ _ lost := lost
    lost_symbol _ _ _ lost := lost
    lost_error errors _ _ g lost := by
      obtain ⟨bound, -⟩ := Array.getElem?_eq_some_iff.mp lost
      rw [Array.getElem?_push_lt bound, ← Array.getElem?_eq_getElem bound, lost]
    lost_faults _ _ _ _ _ := rfl }

theorem onlyLoses_remembering (ref : Nat) (f : Fault) : (remembering ref f).OnlyLoses where
  whole _ _ same := same
  refl _ := rfl
  keeps _ := trivial
  never _ := id
  settles _ := ⟨fun _ _ _ => trivial, fun _ _ _ _ lost => lost⟩

/-- An error value that a run comes to is still there, unchanged, where the run ends or is ended. -/
theorem remembers_of_comesTo {ref : Nat} {f : Fault} {stop : Run Unit} (looks : OnlyLooks stop)
    {w : World} {fuel : Nat} {room : Option Nat} {expr : Value} {frame : FrameId}
    {name : Option String} {s : Store}
    (comes : ComesTo (Store.Remembers ref f) stop w fuel room expr frame name s) :
    (after (evaluateWatched w stop fuel room expr frame name s)).Remembers ref f :=
  (onlyLoses_remembering ref f).lost_of_comesTo looks (fun _ remembers => remembers) comes

end LazyLisp
