import LazyLisp.Proofs.Interruption

/-!
Runs that go alike.

Two computations go alike if, from stores that are alike, both end in the same way and leave stores
that are alike. What counts is fixed by a `Likeness`: faults may differ in the forms they have left;
the first computation may end in an interrupt, or come to errors or lazy pairs, behind which nothing
is asked of the second one; and something may be known of the lazy pairs that the first one works on.
-/

namespace LazyLisp

/-- A fault without the forms that it has left. -/
def Fault.untraced (f : Fault) : Fault := { f with trace := #[], elided := 0 }

/-- A fault that has left no form yet: it is raised anew, or it is made where evaluation ran out of
room. -/
inductive Fault.Fresh : Fault → Prop where
  | raised {f} : f.source = none → f.trace = #[] → f.elided = 0 → Fresh f
  | rescue {mark rest} : Fresh (rescue (.pair mark (.symbol "catch-error") rest))

/-- There is always an interrupt left that a computation has not ended in. -/
theorem exists_uncaught {α : Type} (r : EStateM.Result Interrupt Store α) :
    ∃ e : Interrupt, e.Uncaught ∧ ∀ t, r ≠ .error e t := by
  by_cases dangling : ∃ t, r = .error .dangling t
  · obtain ⟨t, rfl⟩ := dangling
    exact ⟨.breakdown .emptyWord, ⟨by simp, by simp, by simp⟩, by simp⟩
  · refine ⟨.dangling, ⟨by simp, by simp, by simp⟩, ?_⟩
    intro t same
    exact dangling ⟨t, same⟩

/-- What makes two computations count as alike. -/
structure Likeness where
  /-- Faults that count as the same. -/
  faults : Fault → Fault → Prop
  /-- Ends of the first computation behind which nothing is asked of the second one. -/
  aborts : Interrupt → Prop
  /-- What is known of the lazy pairs of the first computation. -/
  keeps : Array LazyPair → Prop
  /-- Errors, lazy pairs and a number for the next symbol with which nothing is asked of the second
  computation any more. -/
  lost : Array Fault → Array LazyPair → Nat → Prop
  fresh : ∀ f, f.Fresh → faults f f
  untraced : ∀ f g, faults f g → f.untraced = g.untraced
  again : ∀ f g summary, faults f g → f.ShownAs summary →
    faults (f.again summary) (g.again summary)
  uncaught : ∀ e, aborts e → e.Uncaught
  keeps_push : ∀ pairs p, keeps pairs → keeps (pairs.push p)
  lost_push : ∀ errors pairs n p, lost errors pairs n → lost errors (pairs.push p) n
  lost_error : ∀ errors pairs n f, lost errors pairs n → lost (errors.push f) pairs n
  lost_symbol : ∀ errors pairs n, lost errors pairs n → lost errors pairs (n + 1)
  lost_faults : ∀ errors pairs n f, lost errors pairs n → faults f f

namespace Likeness

def exactly : Likeness where
  faults f g := f = g
  aborts _ := False
  keeps _ := True
  lost _ _ _ := False
  fresh _ _ := rfl
  untraced _ _ := congrArg Fault.untraced
  again _ _ summary same _ := congrArg (·.again summary) same
  uncaught _ := False.elim
  keeps_push _ _ _ := trivial
  lost_push _ _ _ _ lost := lost
  lost_error _ _ _ _ lost := lost
  lost_symbol _ _ _ lost := lost
  lost_faults _ _ _ _ _ := rfl

variable {L : Likeness} {α β γ δ : Type}

structure Errors (L : Likeness) (errors errors' : Array Fault) : Prop where
  size : errors.size = errors'.size
  faults : ∀ (ref : Nat) f g, errors[ref]? = some f → errors'[ref]? = some g → L.faults f g

inductive Stores (L : Likeness) (s : Store) : Store → Prop where
  | intro {errors} : L.Errors s.errors errors → L.keeps s.lazyPairs → Stores L s { s with errors }

inductive Interrupts (L : Likeness) : Interrupt → Interrupt → Prop where
  | fault {f g} : L.faults f g → Interrupts L (.fault f) (.fault g)
  | same {e} : e.isFault = false → Interrupts L e e

theorem Interrupts.refl (same : ∀ f, L.faults f f) (e : Interrupt) : L.Interrupts e e := by
  cases e with
  | fault f => exact .fault (same f)
  | _ => exact .same rfl

/-- A computation has ended so that nothing is asked of the other one. If it goes on, then with a
result or an interrupt that the other one could have had. -/
inductive Lost (L : Likeness) (R : α → β → Prop) : EStateM.Result Interrupt Store α → Prop where
  | ok {a b s} : R a b → L.lost s.errors s.lazyPairs s.nextSymbol → Lost L R (.ok a s)
  | error {e e' s} : L.Interrupts e e' → L.lost s.errors s.lazyPairs s.nextSymbol → Lost L R (.error e s)
  | aborted {e s} : L.aborts e → Lost L R (.error e s)

inductive Outcomes (L : Likeness) (R : α → β → Prop) :
    EStateM.Result Interrupt Store α → EStateM.Result Interrupt Store β → Prop where
  | ok {a b s t} : R a b → L.Stores s t → Outcomes L R (.ok a s) (.ok b t)
  | error {e e' s t} : L.Interrupts e e' → L.Stores s t →
      Outcomes L R (.error e s) (.error e' t)
  | lost {r r'} : L.Lost R r → Outcomes L R r r'

/-- From stores that are alike the computations end alike, with results that are related; and the
first one goes on to be lost where it is. -/
structure Alike (L : Likeness) (R : α → β → Prop) (x : Run α) (y : Run β) : Prop where
  outcomes : ∀ s t, L.Stores s t → L.Outcomes R (x s) (y t)
  lost : ∀ s, L.lost s.errors s.lazyPairs s.nextSymbol → L.Lost R (x s)

theorem Stores.keeps {s t : Store} (alike : L.Stores s t) : L.keeps s.lazyPairs := by
  cases alike with
  | intro _ keeps => exact keeps

section Faults

variable {f g : Fault} (same : L.faults f g)

include same

theorem kind_eq : f.kind = g.kind := by
  simpa [Fault.untraced] using congrArg Fault.kind (L.untraced f g same)

theorem value_eq : f.value = g.value := by
  simpa [Fault.untraced] using congrArg Fault.value (L.untraced f g same)

theorem summary_eq : f.summary = g.summary := by
  simpa [Fault.untraced] using congrArg Fault.summary (L.untraced f g same)

theorem source_eq : f.source = g.source := by
  simpa [Fault.untraced] using congrArg Fault.source (L.untraced f g same)

end Faults

namespace Errors

variable {errors errors' : Array Fault} (alike : L.Errors errors errors')

include alike

theorem push {f g : Fault} (same : L.faults f g) : L.Errors (errors.push f) (errors'.push g) where
  size := by rw [Array.size_push, Array.size_push, alike.size]
  faults ref d e first second := by
    rw [Array.getElem?_push] at first second
    rw [← alike.size] at second
    split at first
    · next last =>
      rw [if_pos last] at second
      cases first
      cases second
      exact same
    · next old =>
      rw [if_neg old] at second
      exact alike.faults ref d e first second

/-- Where one store has an error, so has the other. -/
theorem cases (ref : Nat) : errors[ref]? = none ∧ errors'[ref]? = none ∨
    ∃ f g, errors[ref]? = some f ∧ errors'[ref]? = some g ∧ L.faults f g := by
  rcases Nat.lt_or_ge ref errors.size with inside | outside
  · have inside' : ref < errors'.size := alike.size ▸ inside
    have first := Array.getElem?_eq_getElem inside
    have second := Array.getElem?_eq_getElem inside'
    exact .inr ⟨_, _, first, second, alike.faults ref _ _ first second⟩
  · have outside' : errors'.size ≤ ref := alike.size ▸ outside
    exact .inl ⟨Array.getElem?_eq_none outside, Array.getElem?_eq_none outside'⟩

theorem map (part : Fault → α) (same : ∀ f g, L.faults f g → part f = part g) (ref : Nat) :
    errors[ref]?.map part = errors'[ref]?.map part := by
  rcases alike.cases ref with ⟨first, second⟩ | ⟨f, g, first, second, faults⟩
  · rw [first, second]
  · rw [first, second, Option.map_some, Option.map_some, same f g faults]

end Errors

def Whole (L : Likeness) : Prop := ∀ f g, L.faults f g → f = g

theorem Errors.eq_of_whole {errors errors' : Array Fault} (alike : L.Errors errors errors')
    (whole : L.Whole) : errors = errors' := by
  refine Array.ext_getElem? fun ref => ?_
  rcases alike.cases ref with ⟨first, second⟩ | ⟨f, g, first, second, same⟩
  · rw [first, second]
  · rw [first, second, whole f g same]

/-- Where everything counts, stores that are alike are the same. -/
theorem Stores.eq_of_whole {s t : Store} (alike : L.Stores s t) (whole : L.Whole) : s = t := by
  cases alike with
  | intro errors _ => rw [← errors.eq_of_whole whole]

theorem Errors.refl (same : ∀ f, L.faults f f) (errors : Array Fault) : L.Errors errors errors where
  size := rfl
  faults ref f g first second := by
    cases first.symm.trans second
    exact same f

theorem Stores.refl {s : Store} (same : ∀ f, L.faults f f) (known : L.keeps s.lazyPairs) :
    L.Stores s s := .intro (.refl same _) known

/-- Where everything counts, outcomes that are alike are the same, or nothing is asked. -/
theorem Outcomes.eq_of_whole {r r' : EStateM.Result Interrupt Store α} (ended : L.Outcomes Eq r r')
    (whole : L.Whole) : r = r' ∨ L.Lost Eq r := by
  cases ended with
  | ok same later =>
    left
    rw [same, later.eq_of_whole whole]
  | error same later =>
    left
    cases same with
    | fault same => rw [whole _ _ same, later.eq_of_whole whole]
    | same => rw [later.eq_of_whole whole]
  | lost lost => exact .inr lost

/-- Where no lazy pairs are given up, only an interrupt ends what is asked. -/
theorem Lost.aborts {R : α → β → Prop} {r : EStateM.Result Interrupt Store α} (lost : L.Lost R r)
    (none : ∀ errors pairs n, ¬ L.lost errors pairs n) : ∃ e s, r = .error e s ∧ L.aborts e := by
  cases lost with
  | ok _ lost => exact absurd lost (none _ _ _)
  | error _ lost => exact absurd lost (none _ _ _)
  | aborted aborts => exact ⟨_, _, rfl, aborts⟩

/-- Where no interrupt ends it either, something is asked in any case. -/
theorem Lost.false {R : α → β → Prop} {r : EStateM.Result Interrupt Store α} (lost : L.Lost R r)
    (none : ∀ errors pairs n, ¬ L.lost errors pairs n) (never : ∀ e, ¬ L.aborts e) : False := by
  obtain ⟨e, _, _, aborts⟩ := lost.aborts none
  exact never e aborts

/-- The computation goes alike from any two stores that are alike. -/
abbrev Steady (L : Likeness) (x : Run α) : Prop := L.Alike Eq x x

namespace Alike

variable {R : α → β → Prop} {S : γ → δ → Prop} {x : Run α} {y : Run β} {f : α → Run γ}
  {g : β → Run δ}

theorem pure {a : α} {b : β} (same : R a b) : L.Alike R (pure a) (pure b) where
  outcomes _ _ alike := .ok same alike
  lost _ lost := .ok same lost

theorem throw {e : Interrupt} (plain : e.isFault = false) :
    L.Alike R (throw e : Run α) (throw e : Run β) where
  outcomes _ _ alike := .error (.same plain) alike
  lost _ lost := .error (.same plain) lost

theorem aborting {e : Interrupt} (aborts : L.aborts e) :
    L.Alike R (MonadExcept.throw e : Run α) y where
  outcomes _ _ _ := .lost (.aborted aborts)
  lost _ _ := .aborted aborts

theorem throwFault {e e' : Fault} (same : L.faults e e') :
    L.Alike R (MonadExcept.throw (.fault e) : Run α) (MonadExcept.throw (.fault e') : Run β) where
  outcomes _ _ stores := .error (.fault same) stores
  lost _ lost := .error (.fault same) lost

theorem throwFresh {f : Fault} (fresh : f.Fresh) :
    L.Alike R (MonadExcept.throw (.fault f) : Run α) (MonadExcept.throw (.fault f) : Run β) :=
  throwFault (L.fresh f fresh)

/-- Both computations go on, from a result or from an interrupt. -/
theorem either {handle : Interrupt → Run γ} {handle' : Interrupt → Run δ} (first : L.Alike R x y)
    (rest : ∀ a b, R a b → L.Alike S (f a) (g b))
    (faults : ∀ e e', L.faults e e' → L.Alike S (handle (.fault e)) (handle' (.fault e')))
    (others : ∀ e, e.isFault = false → L.Alike S (handle e) (handle' e))
    (aborted : ∀ e s, L.aborts e → L.Lost S (handle e s)) :
    L.Alike S (Run.either x f handle) (Run.either y g handle') := by
  have lost {r : EStateM.Result Interrupt Store α} (lost : L.Lost R r) :
      L.Lost S (Run.either (fun _ => r) f handle .empty) := by
    cases lost with
    | ok same lost => exact (rest _ _ same).lost _ lost
    | error same lost =>
      cases same with
      | fault same => exact (faults _ _ same).lost _ lost
      | same plain => exact (others _ plain).lost _ lost
    | aborted aborts => exact aborted _ _ aborts
  refine ⟨?_, fun s isLost => lost (first.lost s isLost)⟩
  intro s t stores
  have ended := first.outcomes s t stores
  change L.Outcomes S (Run.either (fun _ => x s) f handle .empty)
    (Run.either (fun _ => y t) g handle' .empty)
  generalize x s = p at ended
  generalize y t = q at ended
  cases ended with
  | ok same later => exact (rest _ _ same).outcomes _ _ later
  | error same later =>
    cases same with
    | fault same => exact (faults _ _ same).outcomes _ _ later
    | same plain => exact (others _ plain).outcomes _ _ later
  | lost isLost => exact .lost (lost isLost)

/-- Both computations are handled, and what nothing in a program catches is let through. -/
theorem handle {y : Run α} {R : α → α → Prop} {handle handle' : Interrupt → Run α}
    (tried : L.Alike R x y)
    (faults : ∀ e e', L.faults e e' → L.Alike R (handle (.fault e)) (handle' (.fault e')))
    (others : ∀ e, e.isFault = false → L.Alike R (handle e) (handle' e))
    (passes : ∀ e, e.Uncaught → handle e = MonadExcept.throw e) :
    L.Alike R (Run.either x Pure.pure handle) (Run.either y Pure.pure handle') := by
  refine tried.either (fun a b same => .pure same) faults others ?_
  intro e s aborts
  rw [passes e (L.uncaught e aborts)]
  exact .aborted aborts

theorem bind (first : L.Alike R x y) (rest : ∀ a b, R a b → L.Alike S (f a) (g b)) :
    L.Alike S (x >>= f) (y >>= g) := by
  rw [Run.bind_eq_either, Run.bind_eq_either]
  refine first.either rest ?_ ?_ ?_
  · intro e e' same
    exact .throwFault same
  · intro e plain
    exact .throw plain
  · intro e s aborts
    exact .aborted aborts

theorem map {f : α → γ} {g : β → δ} (first : L.Alike R x y) (rest : ∀ a b, R a b → S (f a) (g b)) :
    L.Alike S (f <$> x) (g <$> y) := by
  rw [map_eq_pure_bind, map_eq_pure_bind]
  exact first.bind fun a b same => .pure (rest a b same)

theorem mono {S : α → β → Prop} (alike : L.Alike R x y) (implies : ∀ a b, R a b → S a b) :
    L.Alike S x y := by
  rw [← bind_pure x, ← bind_pure y]
  exact alike.bind fun a b same => .pure (implies a b same)

/-- What is known of every result of the first computation. -/
theorem result (alike : L.Alike R x y) {P : α → Prop} (ends : ∀ s a t, x s = .ok a t → P a) :
    L.Alike (fun a b => R a b ∧ P a) x y where
  outcomes s t stores := by
    have ended := alike.outcomes s t stores
    have known := ends s
    generalize x s = r at ended known
    generalize y t = r' at ended
    cases ended with
    | ok same later => exact .ok ⟨same, known _ _ rfl⟩ later
    | error same later => exact .error same later
    | lost lost =>
      refine .lost ?_
      cases lost with
      | ok same lost => exact .ok ⟨same, known _ _ rfl⟩ lost
      | error same lost => exact .error same lost
      | aborted aborts => exact .aborted aborts
  lost s isLost := by
    have lost := alike.lost s isLost
    have known := ends s
    generalize x s = r at lost known
    cases lost with
    | ok same lost => exact .ok ⟨same, known _ _ rfl⟩ lost
    | error same lost => exact .error same lost
    | aborted aborts => exact .aborted aborts

end Alike

section SameResult

variable {x y : Run α} {f g : α → Run γ} {S : γ → γ → Prop}

/-- Where the results are the same, what follows need only go alike on equal results. -/
theorem Alike.andThen (first : L.Alike Eq x y) (rest : ∀ a, L.Alike S (f a) (g a)) :
    L.Alike S (x >>= f) (y >>= g) := by
  refine first.bind ?_
  rintro a _ rfl
  exact rest a

theorem Alike.mapSame {f : α → γ} (first : L.Alike Eq x y) : L.Alike Eq (f <$> x) (f <$> y) := by
  refine first.map ?_
  rintro a _ rfl
  rfl

theorem Alike.same {a : α} : L.Alike Eq (Pure.pure a : Run α) (Pure.pure a) := Alike.pure rfl

end SameResult

section Operations

/-- A change of the store that does not depend on the errors. -/
theorem Alike.change {f : Store → α × Store}
    (apart : ∀ s errors, f { s with errors } = ((f s).1, { (f s).2 with errors }))
    (errors : ∀ s, (f s).2.errors = s.errors)
    (keeps : ∀ s, L.keeps s.lazyPairs → L.keeps (f s).2.lazyPairs)
    (lost : ∀ s, L.lost s.errors s.lazyPairs s.nextSymbol → L.lost s.errors (f s).2.lazyPairs (f s).2.nextSymbol) :
    L.Alike Eq (modifyGet f : Run α) (modifyGet f) where
  outcomes s t alike := by
    cases alike with
    | @intro es same known =>
      have moved := apart s es
      change L.Outcomes Eq (.ok (f s).1 (f s).2)
        (.ok (f { s with errors := es }).1 (f { s with errors := es }).2)
      rw [moved]
      exact .ok rfl (.intro (by rw [errors]; exact same) (keeps s known))
  lost s isLost := by
    refine .ok rfl ?_
    rw [errors]
    exact lost s isLost

/-- The same for changes that leave the lazy pairs and the next symbol alone. -/
theorem Alike.modifyGet {f : Store → α × Store}
    (apart : ∀ s errors, f { s with errors } = ((f s).1, { (f s).2 with errors }))
    (errors : ∀ s, (f s).2.errors = s.errors)
    (rest : ∀ s, ((f s).2.lazyPairs, (f s).2.nextSymbol) = (s.lazyPairs, s.nextSymbol)) :
    L.Alike Eq (modifyGet f : Run α) (modifyGet f) := by
  refine .change apart errors ?_ ?_
  · intro s known
    rwa [(Prod.mk.inj (rest s)).1]
  · intro s lost
    rwa [(Prod.mk.inj (rest s)).1, (Prod.mk.inj (rest s)).2]

theorem Alike.modify {f : Store → Store}
    (apart : ∀ s errors, f { s with errors } = { f s with errors })
    (errors : ∀ s, (f s).errors = s.errors)
    (rest : ∀ s, ((f s).lazyPairs, (f s).nextSymbol) = (s.lazyPairs, s.nextSymbol)) :
    L.Alike Eq (modify f : Run Unit) (modify f) :=
  .modifyGet (fun s es => by rw [apart]) errors rest

/-- A look at the store that does not see what may differ. -/
theorem Alike.look {f : Store → Run α} {g : Store → Run β} {R : α → β → Prop}
    (same : ∀ s t, L.Stores s t → f s = f t) (alike : ∀ s, L.Alike R (f s) (g s)) :
    L.Alike R (get >>= f) (get >>= g) where
  outcomes s t stores := by
    change L.Outcomes R (f s s) (g t t)
    rw [same s t stores]
    exact (alike t).outcomes s t stores
  lost s lost := (alike s).lost s lost

/-- What is seen of the store, where it does not show what may differ. -/
theorem shown {f : Store → α} (same : ∀ s t, L.Stores s t → f s = f t) :
    L.Alike Eq (do return f (← get) : Run α) (do return f (← get)) :=
  .look (fun s t stores => by rw [same s t stores]) fun _ => .same

theorem freshMark : L.Steady Run.freshMark :=
  .modifyGet (fun _ _ => rfl) (fun _ => rfl) fun _ => rfl

theorem listReversed (items : List Value) (tail : Value) :
    L.Steady (Run.listReversed items tail) :=
  .modifyGet (fun _ _ => rfl) (fun _ => rfl) fun _ => rfl

theorem list (items : List Value) : L.Steady (Run.list items) :=
  listReversed _ _

theorem ofDatum (d : Datum) : L.Steady (Run.ofDatum d) :=
  .modifyGet (fun _ _ => rfl) (fun _ => rfl) fun _ => rfl

theorem cons (car cdr : Value) : L.Steady (Run.cons car cdr) :=
  freshMark.andThen fun _ => .same

theorem ofNumber (n : Number) : L.Steady (Run.ofNumber n) := by
  unfold Run.ofNumber
  split
  · exact .same
  · split
    · exact freshMark.andThen fun _ => .same
    · exact .same

theorem newFrame (outer : FrameId) : L.Steady (Run.newFrame outer) :=
  .modifyGet (fun _ _ => rfl) (fun _ => rfl) fun _ => rfl

theorem define (frame : FrameId) (name : String) (v : Value) :
    L.Steady (Run.define frame name v) :=
  .modify (fun _ _ => rfl) (fun _ => rfl) fun _ => rfl

theorem find? (frame : FrameId) (name : String) :
    L.Steady (Run.find? frame name) := by
  refine .look ?_ fun _ => .same
  rintro s _ ⟨-⟩
  rfl

theorem topLevel (frame : FrameId) : L.Steady (Run.topLevel frame) := by
  refine .look ?_ fun _ => .same
  rintro s _ ⟨-⟩
  rfl

theorem fail (kind message : String) {R : α → α → Prop} :
    L.Alike R (Run.fail kind message : Run α) (Run.fail kind message) :=
  .throwFresh (.raised rfl rfl rfl)

theorem held (found : Option α) : L.Steady (Run.held found) := by
  cases found with
  | some a => exact .same
  | none => exact .throw rfl

theorem newProcedure (p : Procedure) : L.Steady (Run.newProcedure p) :=
  .modifyGet (fun _ _ => rfl) (fun _ => rfl) fun _ => rfl

theorem procedure (ref : Nat) : L.Steady (Run.procedure ref) := by
  refine .look ?_ fun _ => held _
  rintro s _ ⟨-⟩
  rfl

theorem nameProcedure (ref : Nat) (name : String) :
    L.Steady (Run.nameProcedure ref name) :=
  .modify (fun _ _ => rfl) (fun _ => rfl) fun _ => rfl

theorem newLazyPair (p : LazyPair) : L.Steady (Run.newLazyPair p) :=
  .change (fun _ _ => rfl) (fun _ => rfl) (fun _ => L.keeps_push _ _) fun _ => L.lost_push _ _ _ _

theorem newInput (p : Input) : L.Steady (Run.newInput p) :=
  .modifyGet (fun _ _ => rfl) (fun _ => rfl) fun _ => rfl

theorem emit (text : String) : L.Steady (Run.emit text) :=
  .modify (fun _ _ => rfl) (fun _ => rfl) fun _ => rfl

theorem emitError (text : String) : L.Steady (Run.emitError text) :=
  .modify (fun _ _ => rfl) (fun _ => rfl) fun _ => rfl

theorem gensym (start : String) : L.Steady (Run.gensym start) :=
  .change (fun _ _ => rfl) (fun _ => rfl) (fun _ => id) fun _ => L.lost_symbol _ _ _

theorem newError {f g : Fault} (same : L.faults f g) :
    L.Alike Eq (Run.newError f) (Run.newError g) where
  outcomes := by
    rintro s _ ⟨errors, known⟩
    exact .ok errors.size (.intro (errors.push same) known)
  lost _ lost := .ok rfl (L.lost_error _ _ _ _ lost)

theorem errorFault (ref : Nat) : L.Alike L.faults (Run.errorFault ref) (Run.errorFault ref) where
  outcomes := by
    rintro s _ ⟨errors, known⟩
    rename_i es
    change L.Outcomes L.faults (Run.held s.errors[ref]? s) (Run.held es[ref]? _)
    rcases errors.cases ref with ⟨first, second⟩ | ⟨f, g, first, second, same⟩
    · rw [first, second]
      exact .error (.same rfl) (.intro errors known)
    · rw [first, second]
      exact .ok same (.intro errors known)
  lost s lost := by
    change L.Lost L.faults (Run.held s.errors[ref]? s)
    cases s.errors[ref]? with
    | none => exact .error (.same rfl) lost
    | some f => exact .ok (L.lost_faults _ _ _ f lost) lost

end Operations

end Likeness

namespace Store

variable {s : Store} {errors : Array Fault}

theorem writeWith_error
    (same : ∀ ref : Nat, s.errors[ref]?.map (fun f => (f.kind, f.value)) =
      errors[ref]?.map fun f => (f.kind, f.value))
    (hop : Writer) (readable : Bool) (room : Option Nat) (soFar : Option String) (ref : Nat) :
    s.writeWith hop readable room soFar (.error ref) =
      writeWith { s with errors } hop readable room soFar (.error ref) := by
  have entry := same ref
  simp only [writeWith]
  cases first : s.errors[ref]? with
  | none =>
    cases second : errors[ref]? with
    | none => rfl
    | some g => simp [first, second] at entry
  | some f =>
    cases second : errors[ref]? with
    | none => simp [first, second] at entry
    | some g =>
      simp only [first, second, Option.map_some, Option.some.injEq, Prod.mk.injEq] at entry
      cases descend room with
      | none => rfl
      | some room => simp only [entry.1, entry.2]

theorem writeWith_errors
    (same : ∀ ref : Nat, s.errors[ref]?.map (fun f => (f.kind, f.value)) =
      errors[ref]?.map fun f => (f.kind, f.value))
    (hop : Writer) (readable : Bool) (room : Option Nat) (soFar : Option String) (v : Value) :
    s.writeWith hop readable room soFar v = writeWith { s with errors } hop readable room soFar v := by
  match v with
  | .atom a => cases soFar <;> cases a <;> rfl
  | .nan _ => rfl
  | .lazyPair _ => rfl
  | .procedure _ => rfl
  | .input _ => rfl
  | .error ref => exact writeWith_error same hop readable room soFar ref
  | .pair _ car cdr =>
    cases soFar with
    | some items =>
      have head := writeWith_errors same hop readable room none car
      have rest := fun items => writeWith_errors same hop readable room (some items) cdr
      simp only [writeWith, head, rest]
    | none =>
      simp only [writeWith]
      split
      · rfl
      · next room _ =>
        have head := writeWith_errors same hop readable room none car
        have rest := fun items => writeWith_errors same hop readable room (some items) cdr
        split
        · next item _ _ => rw [writeWith_errors same hop readable room none item]
        · simp only [head, rest]

theorem writeWithin_errors
    (same : ∀ ref : Nat, s.errors[ref]?.map (fun f => (f.kind, f.value)) =
      errors[ref]?.map fun f => (f.kind, f.value)) (hops : Nat) :
    s.writeWithin hops = writeWithin { s with errors } hops := by
  induction hops with
  | zero => rfl
  | succ hops ih =>
    funext readable room soFar v
    rw [writeWithin, writeWithin, ih]
    exact writeWith_errors same _ readable room soFar v

end Store

namespace Likeness

variable {L : Likeness} {s t : Store}

theorem Stores.errors (alike : L.Stores s t) : L.Errors s.errors t.errors := by
  cases alike with
  | intro errors _ => exact errors

theorem Stores.write (alike : L.Stores s t) : s.write = t.write := by
  cases alike with
  | intro errors _ =>
    have same := errors.map (fun f => (f.kind, f.value)) fun f g same =>
      Prod.ext (kind_eq same) (value_eq same)
    funext room readable v
    rw [Store.write, Store.write, Store.enoughHops, Store.enoughHops,
      Store.writeWithin_errors same, errors.size]

theorem Stores.inMessage (alike : L.Stores s t) : s.inMessage = t.inMessage := by
  funext halves room v
  cases v <;> simp only [Store.inMessage, Store.readable, alike.write]

theorem Stores.summary (alike : L.Stores s t) : s.summary = t.summary := by
  funext room kind v
  match v with
  | none | some (.atom a) => rfl
  | some (.error ref) =>
    have entry := alike.errors.map Fault.summary (fun f g => summary_eq) ref
    simp only [Store.summary, entry]
  | some (.nan _) | some (.pair _ _ _) | some (.lazyPair _) | some (.procedure _)
  | some (.input _) => simp only [Store.summary, Store.readable, alike.write]

end Likeness

end LazyLisp
