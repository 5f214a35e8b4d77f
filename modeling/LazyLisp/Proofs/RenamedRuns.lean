import LazyLisp.Proofs.RenamedSteps
import LazyLisp.Proofs.Running
import LazyLisp.Proofs.StoreEvolution

/-!
Whole runs under a renaming. Evaluation takes no notice of names, and neither do sessions.

A store is closed if all that it holds has been made. Evaluation keeps it so: this is what it is to
follow oneself under the renaming that changes no name.
-/

namespace LazyLisp

namespace Renaming

variable {ρ : Renaming} {c : Store} {v w : Value}

theorem Faults.leave {σ : Renaming} {f g : Fault} (same : σ.Faults f g) (values : σ.Values v w)
    (name : Option String) (limit : Int) :
    σ.Faults (f.leave v name limit) (g.leave w name limit) := by
  have size : f.trace.size = g.trace.size := by
    rw [← Array.length_toList, ← Array.length_toList, same.trace.length_eq]
  have source : Option.Rel σ.Values (f.source <|> some v) (g.source <|> some w) := by
    have known := same.source
    generalize f.source = a at known
    generalize g.source = b at known
    cases known with
    | some known => exact .some known
    | none => exact .some values
  unfold Fault.leave
  simp only [size]
  by_cases kept : (g.trace.size : Int) < limit
  · rw [if_pos kept, if_pos kept]
    refine { same with source, trace := ?_ }
    rw [Array.toList_push, Array.toList_push]
    exact List.rel_append same.trace (.cons ⟨values, rfl⟩ .nil)
  · rw [if_neg kept, if_neg kept]
    exact { same with source, elided := congrArg (· + 1) same.elided }

theorem leaving (limit : Int) (same : (ρ.upTo c).Values v w) (name : Option String)
    {e e' : Interrupt} (interrupts : (ρ.upTo c).Interrupts e e') {R : Renaming → Value → Value → Prop} :
    ρ.Follows c R (LazyLisp.leaving limit v name e) (LazyLisp.leaving limit w name e') := by
  cases interrupts with
  | fault faults => exact .throwFault (faults.leave same name limit)
  | @same e plain =>
    cases e with
    | fault f => cases plain
    | _ => exact .throw rfl

theorem forceWith {eval : Value → FrameId → Option String → Run Value}
    (evals : ∀ {c v w}, (ρ.upTo c).Values v w → ∀ frame name,
      ρ.Follows c Values (eval v frame name) (eval w frame name)) (c : Store) (side : Side)
    (ref : Nat) :
    ρ.Follows c Values (Engine.forceWith eval side ref) (Engine.forceWith eval side ref) := by
  refine (lazyPair ref).bind fun d older p q known => ?_
  have slots := known.slot side
  generalize p.slot side = x at slots
  generalize q.slot side = y at slots
  cases slots with
  | ready v => exact .value v
  | pending frame expr =>
    refine (evals expr frame none).bind fun e later v w values => ?_
    exact (settle ref side values).andThen fun f last _ => .value (last.values values)

theorem blind_ofEval {eval : Value → FrameId → Option String → Run Value}
    (evals : ∀ {c v w}, (ρ.upTo c).Values v w → ∀ frame name,
      ρ.Follows c Values (eval v frame name) (eval w frame name)) (world : World) (fuel : Nat)
    (room : Option Nat) : ρ.Blind (.ofEval world fuel room eval) :=
  ⟨evals, forceWith evals⟩

theorem evaluate (world : World) (fuel : Nat) (room : Option Nat) (same : (ρ.upTo c).Values v w)
    (frame : FrameId) (name : Option String) :
    ρ.Follows c Values (LazyLisp.evaluate world fuel room v frame name)
      (LazyLisp.evaluate world fuel room w frame name) := by
  induction fuel generalizing c room v w frame name with
  | zero => exact .throw rfl
  | succ fuel ih =>
    cases deeper : descend room with
    | none =>
      intro s t older stores
      rw [LazyLisp.evaluate, LazyLisp.evaluate, deeper]
      exact .error (.refl s) (.same rfl) stores
    | some inner =>
      rw [evaluate_eq_proceed world fuel deeper, evaluate_eq_proceed world fuel deeper,
        proceed_eq_either, proceed_eq_either]
      have blind := blind_ofEval (fun same frame name => ih inner same frame name) world fuel inner
      refine (step blind true frame same).either (fun d older next next' steps => ?_) ?_
      · cases steps with
        | value values => exact .value values
        | tail frame name values => exact ih room values frame name
      · exact fun d older e e' known => leaving _ (older.values same) _ known

theorem blind_evaluating (ρ : Renaming) (world : World) (fuel : Nat) (room : Option Nat) :
    ρ.Blind (.evaluating world fuel room) :=
  blind_ofEval (fun same => evaluate world fuel room same) world fuel room

theorem evaluates (ρ : Renaming) (world : World) (fuel : Nat) : ρ.simulation.Evaluates
    (LazyLisp.evaluate world fuel world.room) (LazyLisp.evaluate world fuel world.room) where
  eval same _ name _ le := evaluate world fuel world.room (le.values same) _ name
  globally follows := follows _ (.refl _) trivial
  recursion _ same := ⟨rfl, .some (.atom _), rfl, same, .nil, rfl, rfl, rfl⟩

theorem eval (world : World) (fuel : Nat) (code : String) :
    ρ.Follows c Values (Session.eval world fuel code) (Session.eval world fuel code) :=
  Simulation.evalWith (ρ.evaluates world fuel) world code c (.refl _)

theorem load (world : World) (fuel : Nat) (path : Path) (shown : String) :
    ρ.Follows c Values (Session.load world fuel path shown)
      (Session.load world fuel path shown) :=
  Simulation.load (ρ.evaluates world fuel) path shown c (.refl _)

theorem start (world : World) (fuel : Nat) (settings : Settings) (prelude : PreludeChoice)
    (input : String) :
    ρ.Follows c Same (Session.start world fuel settings prelude input)
      (Session.start world fuel settings prelude input) :=
  Simulation.start (ρ.evaluates world fuel) (fun _ _ => trivial) settings prelude input c (.refl _)

def unchanged : Renaming where
  marks m n := m = n
  procedures p q := p = q
  spare _ := none
  marks_iff := by
    rintro m _ m' _ rfl rfl
    rfl
  procedures_iff := by
    rintro p _ p' _ rfl rfl
    rfl
  not_spare _ := rfl

end Renaming

namespace Store

/-- All that the value leads to without a look at the store has been made. -/
def Owns (s : Store) (v : Value) : Prop := (Renaming.unchanged.upTo s).Values v v

/-- All that the store holds has been made. -/
def Closed (s : Store) : Prop := Renaming.unchanged.Stores s s

variable {s : Store}

theorem Closed.after {α : Type} (closed : s.Closed) {x : Run α} {R : Renaming → α → α → Prop}
    (follows : Renaming.unchanged.Follows s R x x) : (after (x s)).Closed := by
  have ended := follows s s (.refl s) closed
  generalize x s = r at ended
  cases ended with
  | ok _ _ stores => exact stores
  | error _ _ stores => exact stores

theorem closed_empty : Store.empty.Closed where
  frames i := by
    change Option.Rel _ #[Frame.empty none][i]? #[Frame.empty none][i]?
    cases i with
    | zero => exact .some ⟨rfl, .nil⟩
    | succ i => exact .none
  lazyPairs _ := .none
  errors _ := .none
  procedures := fun known => absurd known.1 (Nat.not_lt_zero _)
  spare := nofun
  nextMarks _ := rfl
  nextProcedures _ := rfl
  inputs := rfl
  nextSymbol := rfl
  out := rfl
  err := rfl

theorem closed_start (world : World) (fuel : Nat) (settings : Settings) (prelude : PreludeChoice)
    (input : String) : (LazyLisp.after (Session.start world fuel settings prelude input .empty)).Closed :=
  closed_empty.after (Renaming.start world fuel settings prelude input)

theorem Closed.eval (closed : s.Closed) (world : World) (fuel : Nat) (code : String) :
    (LazyLisp.after (Session.eval world fuel code s)).Closed :=
  closed.after (Renaming.eval world fuel code)

theorem Closed.load (closed : s.Closed) (world : World) (fuel : Nat) (path : Path) (shown : String) :
    (LazyLisp.after (Session.load world fuel path shown s)).Closed :=
  closed.after (Renaming.load world fuel path shown)

theorem Closed.evaluate (closed : s.Closed) {v : Value} (owned : s.Owns v) (world : World)
    (fuel : Nat) (room : Option Nat) (frame : FrameId) (name : Option String) :
    (LazyLisp.after (LazyLisp.evaluate world fuel room v frame name s)).Closed :=
  closed.after (Renaming.evaluate world fuel room owned frame name)

end Store

end LazyLisp
