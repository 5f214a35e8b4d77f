import LazyLisp.Proofs.SafeEvaluation

/-!
What evaluation does to the store, with a value or with a failure.

Every frame keeps the frame around it and the names that it binds. Whatever holds a frame, and
whatever is evaluated in one, finds the global frame by going outward. A half that has a value keeps
it, and a procedure stays as it is: only a procedure that a definition has just made gets its name.
-/

namespace LazyLisp

inductive Frame.Rooted (frames : Array Frame) : FrameId → Prop where
  | global {f} : frames[Store.globalFrame]? = some f → f.outer = none →
      Rooted frames Store.globalFrame
  | inside {i f outer} : frames[i]? = some f → f.outer = some outer → Rooted frames outer →
      Rooted frames i

def Procedure.closures : Procedure → List Closure
  | closure c | expander c => [c]
  | cases clauses _ _ => clauses
  | primitive _ => []

namespace Store

/-- From the frame one gets to the global frame, which is the top level. -/
structure Anchors (s : Store) (frame : FrameId) : Prop where
  rooted : Frame.Rooted s.frames frame
  topLevel : Frame.topLevel s.frames frame = globalFrame

/-- Whatever holds a frame holds one from which one gets to the global frame. -/
structure Anchored (s : Store) : Prop where
  frames : ∀ i, i < s.frames.size → s.Anchors i
  procedures : ∀ (ref : Nat) p, s.procedures[ref]? = some p → ∀ c ∈ p.closures, s.Anchors c.frame
  pending : ∀ (k : Half) expr frame, k.slot? s.lazyPairs = some (.pending expr frame) →
    s.Anchors frame

/-- What becomes of a store. -/
structure Evolves (s t : Store) : Prop where
  frames : ∀ (i : Nat) f, s.frames[i]? = some f → ∃ g, t.frames[i]? = some g ∧ f.Evolves g
  anchored : t.Anchored
  forced : ∀ (k : Half) v, k.slot? s.lazyPairs = some (.ready v) →
    k.slot? t.lazyPairs = some (.ready v)
  procedures : ∀ (ref : Nat) p, s.procedures[ref]? = some p → t.procedures[ref]? = some p

end Store

def Hidden.nothing : Hidden := ⟨fun _ => False, fun _ => False⟩

/-- The store holds the procedures that a value refers to. -/
def Store.Knows (s : Store) (v : Value) : Prop := Hidden.nothing.Admits v s

/-- The stores that a session comes to: a new one, and whatever evaluation leaves, with a value or
with a failure. -/
inductive Reachable : Store → Prop where
  | start (w fuel settings prelude input) :
      Reachable (after (Session.start w fuel settings prelude input .empty))
  | eval {s} (w fuel code) : Reachable s → Reachable (after (Session.eval w fuel code s))
  | load {s} (w fuel path shown) : Reachable s →
      Reachable (after (Session.load w fuel path shown s))
  | evaluate {s expr frame} (w fuel room name) : Reachable s → s.Knows expr →
      frame < s.frames.size → Reachable (after (evaluate w fuel room expr frame name s))

namespace Hidden

variable {h : Hidden} {s t : Store}

theorem Lawful.rooted (lawful : h.Lawful s) {i : FrameId} (inside : i < s.frames.size) :
    Frame.Rooted s.frames i := by
  induction i using Nat.strongRecOn with
  | _ i ih =>
    by_cases outermost : i = 0
    · subst outermost
      obtain ⟨f, found, none⟩ := lawful.global
      exact .global found none
    · have held := Array.getElem?_eq_getElem inside
      obtain ⟨outer, less, around, -⟩ := lawful.outer i _ held outermost
      exact .inside held around (ih outer less (Nat.lt_trans less inside))

theorem Lawful.anchors (lawful : h.Lawful s) {i : FrameId} (inside : i < s.frames.size) :
    s.Anchors i := ⟨lawful.rooted inside, lawful.topLevel inside⟩

theorem AdmitsProcedure.closures {p : Procedure} (known : h.AdmitsProcedure p s) {c : Closure}
    (member : c ∈ p.closures) : h.AdmitsClosure c s := by
  cases p with
  | closure _ | expander _ =>
    obtain rfl := List.mem_singleton.mp member
    exact known
  | cases clauses name doc => exact known c member
  | primitive p => cases member

theorem Lawful.anchored (lawful : nothing.Lawful s) : s.Anchored where
  frames i inside := lawful.anchors inside
  procedures ref p held c member := by
    have known := lawful.procedures ref p held id
    exact lawful.anchors (known.closures member).frame.1
  pending k expr frame held := lawful.anchors (lawful.slots k _ held).2.1

theorem Later.evolves (later : nothing.Later s t) : s.Evolves t where
  frames i f found := by
    obtain ⟨g, found, evolves, -⟩ := later.grows.frames i f found
    exact ⟨g, found, evolves⟩
  anchored := later.lawful.anchored
  forced k v held := by
    obtain ⟨slot, held, same⟩ := later.grows.slots k _ held
    cases same
    exact held
  procedures := later.grows.procedures

theorem lawful_empty : nothing.Lawful .empty where
  global := ⟨.empty none, rfl, rfl⟩
  globalShown := id
  outer i f found inner := by
    have bound : i < 1 := old_of_getElem? found
    omega
  bindings i f name v found _ bound := by
    have only : i < 1 := old_of_getElem? found
    obtain rfl : i = 0 := by omega
    cases found
    cases bound
  procedures ref p found := by cases found
  hiddenFrames _ := False.elim
  hiddenProcedures _ := False.elim
  slots k slot held := by cases held
  errors ref f found := by cases found

end Hidden

theorem Reachable.lawful {s : Store} (reachable : Reachable s) : Hidden.nothing.Lawful s := by
  induction reachable with
  | start w fuel settings prelude input =>
    exact ((Hidden.Safe.start w fuel settings prelude input).later Hidden.lawful_empty.refl).lawful
  | eval w fuel code _ lawful => exact ((Hidden.Safe.session w fuel code).later lawful.refl).lawful
  | load w fuel path shown _ lawful =>
    exact ((Hidden.Safe.load w fuel path shown).later lawful.refl).lawful
  | evaluate w fuel room name _ known inside lawful =>
    have safe := Hidden.Safe.evaluateOnly w fuel room known ⟨inside, id⟩ name
    exact (safe.later lawful.refl).lawful

/-- The guard lets every evaluation be that goes on in an anchored frame of an anchored store and
after which the store has evolved. -/
def ToleratesEvolution (guard : Value → FrameId → Run Value → Run Value) : Prop :=
  ∀ expr frame (x : Run Value) s, s.Anchored → s.Anchors frame → s.Evolves (after (x s)) →
    guard expr frame x s = x s

/-- Evaluation lets the store evolve, and so does every evaluation inside it. -/
theorem evaluate_evolves {s : Store} (reachable : Reachable s) {expr : Value} {frame : FrameId}
    (known : s.Knows expr) (inside : frame < s.frames.size) (w : World) (fuel : Nat)
    (room : Option Nat) (name : Option String) :
    s.Evolves (after (evaluate w fuel room expr frame name s)) ∧
    s.Anchored ∧ s.Anchors frame ∧
    ∀ guard, ToleratesEvolution guard →
      evaluateGuarded guard w fuel room expr frame name s =
        evaluate w fuel room expr frame name s := by
  have lawful := reachable.lawful
  have safe {guard : Value → FrameId → Run Value → Run Value}
      (lenient : Hidden.nothing.Lenient guard) :=
    Hidden.Safe.evaluate lenient w fuel room known ⟨inside, id⟩ name
  refine ⟨?_, lawful.anchored, lawful.anchors inside, ?_⟩
  · exact ((safe (Hidden.lenient_id _)).later lawful.refl).evolves
  · intro guard tolerates
    refine (safe ?_ s lawful.refl).1
    intro expr frame x t shown later started
    exact tolerates expr frame x t started.anchored (started.anchors shown.1) later.evolves

def bareStore : Store := after (Session.start bareWorld 0 .unset .none "" .empty)

def selfDefinition : Value :=
  .pair 0 (.symbol "define") (.pair 1 (.symbol "f") (.pair 2 (.pair 3 (.symbol "lambda")
    (.pair 4 .nil (.pair 5 (.symbol "f") .nil))) .nil))

theorem evaluate_evolves_selfDefinition :
    Reachable bareStore ∧ bareStore.Knows selfDefinition ∧
    Store.globalFrame < bareStore.frames.size ∧
    bareStore.Evolves
      (after (evaluate bareWorld 3 none selfDefinition Store.globalFrame none bareStore)) := by
  have reachable : Reachable bareStore := .start bareWorld 0 .unset .none ""
  have known : bareStore.Knows selfDefinition := by
    simp [Store.Knows, selfDefinition, Hidden.Admits]
  have inside : Store.globalFrame < bareStore.frames.size := reachable.lawful.admitsGlobal.1
  have evolves := evaluate_evolves reachable known inside bareWorld 3 none none
  exact ⟨reachable, known, inside, evolves.1⟩

end LazyLisp
