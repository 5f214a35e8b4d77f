import LazyLisp.Proofs.Likeness
import Mathlib.Data.List.Forall2

/-!
Computations that differ in the names of objects.

The marks of pairs and the references to procedures are numbers that a program can only compare. A
renaming relates the numbers of one computation to those of another one, each number to at most one.
A second computation follows a first one if from stores that differ in these numbers it ends in the
same way, with a store that differs in nothing else.

Whatever the first computation gets at has been made before. So the numbers that count are those
below the next ones of its store, and more of them count as it goes on.
-/

namespace LazyLisp

/-- What the numbers of a first computation are called in a second one. -/
structure Renaming where
  marks : Nat → Nat → Prop
  procedures : Nat → Nat → Prop
  /-- Procedures of the second computation that the first one does not have. -/
  spare : Nat → Option Procedure
  marks_iff : ∀ {m n m' n'}, marks m n → marks m' n' → (m = m' ↔ n = n')
  procedures_iff : ∀ {p q p' q'}, procedures p q → procedures p' q' → (p = p' ↔ q = q')
  not_spare : ∀ {p q}, procedures p q → spare q = none

/-- A store has made no more objects than another one. -/
structure Older (c s : Store) : Prop where
  marks : c.nextMark ≤ s.nextMark
  procedures : c.procedures.size ≤ s.procedures.size

def Pointwise {α β : Type} (R : α → β → Prop) (xs : Array α) (ys : Array β) : Prop :=
  ∀ i : Nat, Option.Rel R xs[i]? ys[i]?

namespace Renaming

section Data

variable (ρ : Renaming)

/-- The names of what the store has made. -/
def upTo (s : Store) : Renaming where
  marks m n := m < s.nextMark ∧ ρ.marks m n
  procedures p q := p < s.procedures.size ∧ ρ.procedures p q
  spare := ρ.spare
  marks_iff first second := ρ.marks_iff first.2 second.2
  procedures_iff first second := ρ.procedures_iff first.2 second.2
  not_spare related := ρ.not_spare related.2

inductive Values : Value → Value → Prop where
  | atom (a : Atom) : Values (.atom a) (.atom a)
  | nan {m n} : ρ.marks m n → Values (.nan m) (.nan n)
  | pair {m n car car' cdr cdr'} : ρ.marks m n → Values car car' → Values cdr cdr' →
      Values (.pair m car cdr) (.pair n car' cdr')
  | lazyPair (ref : Nat) : Values (.lazyPair ref) (.lazyPair ref)
  | procedure {p q} : ρ.procedures p q → Values (.procedure p) (.procedure q)
  | error (ref : Nat) : Values (.error ref) (.error ref)
  | input (ref : Nat) : Values (.input ref) (.input ref)

def All : List Value → List Value → Prop := List.Forall₂ ρ.Values

def Bindings (a b : String × Value) : Prop := a.1 = b.1 ∧ ρ.Values a.2 b.2

structure Frames (f g : Frame) : Prop where
  outer : f.outer = g.outer
  bindings : List.Forall₂ ρ.Bindings f.bindings g.bindings

inductive Slots : Slot → Slot → Prop where
  | pending {expr expr'} (frame : FrameId) : ρ.Values expr expr' →
      Slots (.pending expr frame) (.pending expr' frame)
  | ready {v w} : ρ.Values v w → Slots (.ready v) (.ready w)

structure LazyPairs (p q : LazyPair) : Prop where
  car : ρ.Slots p.car q.car
  cdr : ρ.Slots p.cdr q.cdr

structure Closures (c d : Closure) : Prop where
  signature : c.signature = d.signature
  body : ρ.Values c.body d.body
  frame : c.frame = d.frame
  name : c.name = d.name
  doc : c.doc = d.doc

inductive Procedures : Procedure → Procedure → Prop where
  | closure {c d} : ρ.Closures c d → Procedures (.closure c) (.closure d)
  | cases {clauses clauses'} (name doc : Option String) :
      List.Forall₂ ρ.Closures clauses clauses' →
      Procedures (.cases clauses name doc) (.cases clauses' name doc)
  | expander {c d} : ρ.Closures c d → Procedures (.expander c) (.expander d)
  | primitive (p : Primitive) : Procedures (.primitive p) (.primitive p)

def Entries (a b : TraceEntry) : Prop := ρ.Values a.form b.form ∧ a.name = b.name

structure Faults (f g : Fault) : Prop where
  kind : f.kind = g.kind
  value : Option.Rel ρ.Values f.value g.value
  summary : f.summary = g.summary
  source : Option.Rel ρ.Values f.source g.source
  trace : List.Forall₂ ρ.Entries f.trace.toList g.trace.toList
  elided : f.elided = g.elided
  cause : f.cause = g.cause
  offset : f.offset = g.offset

inductive Interrupts : Interrupt → Interrupt → Prop where
  | fault {f g} : ρ.Faults f g → Interrupts (.fault f) (.fault g)
  | same {e} : e.isFault = false → Interrupts e e

inductive Steps : Step → Step → Prop where
  | value {v w} : ρ.Values v w → Steps (.value v) (.value w)
  | tail {expr expr'} (frame : FrameId) (name : Option String) : ρ.Values expr expr' →
      Steps (.tail expr frame name) (.tail expr' frame name)

/-- The stores differ in the names of what has been made, and what is made next gets names that
belong together. -/
structure Stores (s t : Store) : Prop where
  frames : Pointwise (ρ.upTo s).Frames s.frames t.frames
  lazyPairs : Pointwise (ρ.upTo s).LazyPairs s.lazyPairs t.lazyPairs
  errors : Pointwise (ρ.upTo s).Faults s.errors t.errors
  procedures : ∀ {p q}, (ρ.upTo s).procedures p q →
    Option.Rel (ρ.upTo s).Procedures s.procedures[p]? t.procedures[q]?
  spare : ∀ {q x}, ρ.spare q = some x → t.procedures[q]? = some x
  nextMarks : ∀ k, ρ.marks (s.nextMark + k) (t.nextMark + k)
  nextProcedures : ∀ k, ρ.procedures (s.procedures.size + k) (t.procedures.size + k)
  inputs : s.inputs = t.inputs
  nextSymbol : s.nextSymbol = t.nextSymbol
  out : s.out = t.out
  err : s.err = t.err

end Data

structure Le (ρ σ : Renaming) : Prop where
  marks : ∀ {m n}, ρ.marks m n → σ.marks m n
  procedures : ∀ {p q}, ρ.procedures p q → σ.procedures p q

end Renaming

theorem rel_imp {α β : Type} {R S : α → β → Prop} {a : Option α} {b : Option β}
    (related : Option.Rel R a b) (implies : ∀ a b, R a b → S a b) : Option.Rel S a b := by
  cases related with
  | some related => exact .some (implies _ _ related)
  | none => exact .none

namespace Pointwise

variable {α β : Type} {R S : α → β → Prop} {xs : Array α} {ys : Array β}

theorem mono (related : Pointwise R xs ys) (implies : ∀ a b, R a b → S a b) : Pointwise S xs ys :=
  fun i => rel_imp (related i) implies

theorem size_le (related : Pointwise R xs ys) : ys.size ≤ xs.size := by
  have entry := related xs.size
  rw [Array.getElem?_eq_none (Nat.le_refl _)] at entry
  generalize held : ys[xs.size]? = found at entry
  cases entry
  exact Array.getElem?_eq_none_iff.mp held

theorem size_eq (related : Pointwise R xs ys) : xs.size = ys.size := by
  refine Nat.le_antisymm ?_ related.size_le
  have entry := related ys.size
  rw [Array.getElem?_eq_none (Nat.le_refl _)] at entry
  generalize held : xs[ys.size]? = found at entry
  cases entry
  exact Array.getElem?_eq_none_iff.mp held

theorem push (related : Pointwise R xs ys) {a : α} {b : β} (last : R a b) :
    Pointwise R (xs.push a) (ys.push b) := by
  intro i
  rw [Array.getElem?_push, Array.getElem?_push, ← related.size_eq]
  by_cases here : i = xs.size
  · rw [if_pos here, if_pos here]
    exact .some last
  · rw [if_neg here, if_neg here]
    exact related i

theorem modify (related : Pointwise R xs ys) {f : α → α} {g : β → β} (i : Nat)
    (changed : ∀ a b, R a b → R (f a) (g b)) : Pointwise R (xs.modify i f) (ys.modify i g) := by
  intro j
  rw [Array.getElem?_modify, Array.getElem?_modify]
  by_cases here : i = j
  · rw [if_pos here, if_pos here]
    have entry := related j
    generalize xs[j]? = a at entry
    generalize ys[j]? = b at entry
    cases entry with
    | some held => exact .some (changed _ _ held)
    | none => exact .none
  · rw [if_neg here, if_neg here]
    exact related j

end Pointwise

namespace Renaming

namespace Le

variable {ρ σ : Renaming} (le : ρ.Le σ)

include le

theorem values {v w : Value} (same : ρ.Values v w) : σ.Values v w := by
  induction same with
  | atom a => exact .atom a
  | nan marks => exact .nan (le.marks marks)
  | pair marks _ _ car cdr => exact .pair (le.marks marks) car cdr
  | lazyPair ref => exact .lazyPair ref
  | procedure refs => exact .procedure (le.procedures refs)
  | error ref => exact .error ref
  | input ref => exact .input ref

theorem all {vs ws : List Value} (same : ρ.All vs ws) : σ.All vs ws :=
  same.imp fun _ _ => le.values

theorem bindings {a b : String × Value} (same : ρ.Bindings a b) : σ.Bindings a b :=
  ⟨same.1, le.values same.2⟩

theorem frames {f g : Frame} (same : ρ.Frames f g) : σ.Frames f g :=
  ⟨same.outer, same.bindings.imp fun _ _ => le.bindings⟩

theorem slots {x y : Slot} (same : ρ.Slots x y) : σ.Slots x y := by
  cases same with
  | pending frame expr => exact .pending frame (le.values expr)
  | ready v => exact .ready (le.values v)

theorem lazyPairs {p q : LazyPair} (same : ρ.LazyPairs p q) : σ.LazyPairs p q :=
  ⟨le.slots same.car, le.slots same.cdr⟩

theorem closures {c d : Closure} (same : ρ.Closures c d) : σ.Closures c d :=
  { same with body := le.values same.body }

theorem procedure {p q : Procedure} (same : ρ.Procedures p q) : σ.Procedures p q := by
  cases same with
  | closure c => exact .closure (le.closures c)
  | cases name doc clauses => exact .cases name doc (clauses.imp fun _ _ => le.closures)
  | expander c => exact .expander (le.closures c)
  | primitive p => exact .primitive p

theorem faults {f g : Fault} (same : ρ.Faults f g) : σ.Faults f g :=
  { same with
    value := rel_imp same.value fun _ _ => le.values
    source := rel_imp same.source fun _ _ => le.values
    trace := same.trace.imp fun _ _ entry => ⟨le.values entry.1, entry.2⟩ }

end Le

end Renaming

namespace Older

variable {c d s : Store}

theorem refl (s : Store) : Older s s := ⟨Nat.le_refl _, Nat.le_refl _⟩

theorem trans (first : Older c d) (second : Older d s) : Older c s :=
  ⟨Nat.le_trans first.marks second.marks, Nat.le_trans first.procedures second.procedures⟩

variable {ρ : Renaming} (older : Older c d)

include older

theorem le (ρ : Renaming) : (ρ.upTo c).Le (ρ.upTo d) where
  marks known := ⟨Nat.lt_of_lt_of_le known.1 older.marks, known.2⟩
  procedures known := ⟨Nat.lt_of_lt_of_le known.1 older.procedures, known.2⟩

theorem values {v w : Value} (same : (ρ.upTo c).Values v w) : (ρ.upTo d).Values v w :=
  (older.le ρ).values same

theorem all {vs ws : List Value} (same : (ρ.upTo c).All vs ws) : (ρ.upTo d).All vs ws :=
  (older.le ρ).all same

end Older

namespace Renaming

variable {ρ : Renaming} {s t : Store}

/-- Stores with other marks and procedures, where what has been related is still so. -/
theorem Stores.renumber (stores : ρ.Stores s t) {σ : Renaming} {procs procs' : Array Procedure}
    {mark mark' : Nat} (le : (ρ.upTo s).Le (σ.upTo { s with procedures := procs, nextMark := mark }))
    (procedures : ∀ {p q}, p < procs.size → σ.procedures p q →
      Option.Rel (σ.upTo { s with procedures := procs, nextMark := mark }).Procedures procs[p]?
        procs'[q]?)
    (spare : ∀ {q x}, σ.spare q = some x → procs'[q]? = some x)
    (nextMarks : ∀ k, σ.marks (mark + k) (mark' + k))
    (nextProcedures : ∀ k, σ.procedures (procs.size + k) (procs'.size + k)) :
    σ.Stores { s with procedures := procs, nextMark := mark }
      { t with procedures := procs', nextMark := mark' } where
  frames := stores.frames.mono fun _ _ => le.frames
  lazyPairs := stores.lazyPairs.mono fun _ _ => le.lazyPairs
  errors := stores.errors.mono fun _ _ => le.faults
  procedures known := procedures known.1 known.2
  spare := spare
  nextMarks := nextMarks
  nextProcedures := nextProcedures
  inputs := stores.inputs
  nextSymbol := stores.nextSymbol
  out := stores.out
  err := stores.err

/-- Both computations have made as many pairs, of which nothing is known yet. -/
theorem Stores.mark (stores : ρ.Stores s t) (count : Nat) :
    ρ.Stores { s with nextMark := s.nextMark + count }
      { t with nextMark := t.nextMark + count } := by
  have older : Older s { s with nextMark := s.nextMark + count } :=
    ⟨Nat.le_add_right _ _, Nat.le_refl _⟩
  have le := older.le ρ
  refine stores.renumber le ?_ stores.spare ?_ stores.nextProcedures
  · exact fun inside known => rel_imp (stores.procedures ⟨inside, known⟩) fun _ _ => le.procedure
  · intro k
    have next := stores.nextMarks (count + k)
    rwa [← Nat.add_assoc, ← Nat.add_assoc] at next

/-- The first computation has gone on from a store, and the second one has ended in the same way. -/
inductive Outcomes (ρ : Renaming) {α β : Type} (c : Store) (R : Renaming → α → β → Prop) :
    EStateM.Result Interrupt Store α → EStateM.Result Interrupt Store β → Prop where
  | ok {a b s t} : Older c s → R (ρ.upTo s) a b → ρ.Stores s t → Outcomes ρ c R (.ok a s) (.ok b t)
  | error {e e' s t} : Older c s → (ρ.upTo s).Interrupts e e' → ρ.Stores s t →
      Outcomes ρ c R (.error e s) (.error e' t)

/-- The second computation does what the first one does, from whatever has become of a store. -/
def Follows (ρ : Renaming) {α β : Type} (c : Store) (R : Renaming → α → β → Prop) (x : Run α)
    (y : Run β) : Prop :=
  ∀ s t, Older c s → ρ.Stores s t → ρ.Outcomes s R (x s) (y t)

abbrev Same {α : Type} : Renaming → α → α → Prop := fun _ a b => a = b

section Computations

variable {ρ : Renaming} {α β γ δ : Type} {c d : Store} {R : Renaming → α → β → Prop}
  {S : Renaming → γ → δ → Prop} {x : Run α} {y : Run β} {f : α → Run γ} {g : β → Run δ}

theorem Outcomes.since {r : EStateM.Result Interrupt Store α} {r' : EStateM.Result Interrupt Store β}
    (ended : ρ.Outcomes d R r r') (older : Older c d) : ρ.Outcomes c R r r' := by
  cases ended with
  | ok later same stores => exact .ok (older.trans later) same stores
  | error later same stores => exact .error (older.trans later) same stores

namespace Follows

theorem mono {R' : Renaming → α → β → Prop} (follows : ρ.Follows c R x y)
    (implies : ∀ d, Older c d → ∀ a b, R (ρ.upTo d) a b → R' (ρ.upTo d) a b) :
    ρ.Follows c R' x y := by
  intro s t older stores
  have ended := follows s t older stores
  generalize x s = r at ended
  generalize y t = r' at ended
  cases ended with
  | ok later same stores => exact .ok later (implies _ (older.trans later) _ _ same) stores
  | error later same stores => exact .error later same stores

theorem pure {a : α} {b : β} (same : ∀ d, Older c d → R (ρ.upTo d) a b) :
    ρ.Follows c R (pure a) (pure b) := by
  intro s t older stores
  exact .ok (.refl s) (same s older) stores

theorem same {a : α} : ρ.Follows c Same (Pure.pure a : Run α) (Pure.pure a) := pure fun _ _ => rfl

theorem value {v w : Value} (same : (ρ.upTo c).Values v w) :
    ρ.Follows c Values (Pure.pure v : Run Value) (Pure.pure w) := pure fun _ older => older.values same

theorem throw {e : Interrupt} (plain : e.isFault = false) :
    ρ.Follows c R (throw e : Run α) (throw e : Run β) := by
  intro s t older stores
  exact .error (.refl s) (.same plain) stores

theorem throwFault {e e' : Fault} (same : (ρ.upTo c).Faults e e') :
    ρ.Follows c R (MonadExcept.throw (.fault e) : Run α)
      (MonadExcept.throw (.fault e') : Run β) := by
  intro s t older stores
  exact .error (.refl s) (.fault ((older.le ρ).faults same)) stores

/-- Both computations go on, from a result or from an interrupt. -/
theorem either {handle : Interrupt → Run γ} {handle' : Interrupt → Run δ}
    (first : ρ.Follows c R x y)
    (rest : ∀ d, Older c d → ∀ a b, R (ρ.upTo d) a b → ρ.Follows d S (f a) (g b))
    (handled : ∀ d, Older c d → ∀ e e', (ρ.upTo d).Interrupts e e' →
      ρ.Follows d S (handle e) (handle' e')) :
    ρ.Follows c S (x.either f handle) (y.either g handle') := by
  intro s t older stores
  have ended := first s t older stores
  unfold Run.either
  generalize x s = r at ended
  generalize y t = r' at ended
  cases ended with
  | ok later same stores =>
    exact (rest _ (older.trans later) _ _ same _ _ (.refl _) stores).since later
  | error later same stores =>
    exact (handled _ (older.trans later) _ _ same _ _ (.refl _) stores).since later

theorem bind (first : ρ.Follows c R x y)
    (rest : ∀ d, Older c d → ∀ a b, R (ρ.upTo d) a b → ρ.Follows d S (f a) (g b)) :
    ρ.Follows c S (x >>= f) (y >>= g) := by
  rw [Run.bind_eq_either, Run.bind_eq_either]
  refine first.either rest fun d older e e' same => ?_
  cases same with
  | fault same => exact .throwFault same
  | same plain => exact .throw plain

theorem map {f : α → γ} {g : β → δ} (first : ρ.Follows c R x y)
    (rest : ∀ d, Older c d → ∀ a b, R (ρ.upTo d) a b → S (ρ.upTo d) (f a) (g b)) :
    ρ.Follows c S (f <$> x) (g <$> y) := by
  intro s t older stores
  change ρ.Outcomes s S (EStateM.map f x s) (EStateM.map g y t)
  unfold EStateM.map
  have ended := first s t older stores
  generalize x s = r at ended
  generalize y t = r' at ended
  cases ended with
  | ok later same stores => exact .ok later (rest _ (older.trans later) _ _ same) stores
  | error later same stores => exact .error later same stores

theorem ite {p : Prop} [Decidable p] {x' : Run α} {y' : Run β} (holds : p → ρ.Follows c R x y)
    (fails : ¬ p → ρ.Follows c R x' y') :
    ρ.Follows c R (if p then x else x') (if p then y else y') := by
  by_cases h : p
  · simpa [h] using holds h
  · simpa [h] using fails h

/-- Where the results are equal, what follows need only be looked at from equal results. -/
theorem andThen {x y : Run α} {g : α → Run δ} (first : ρ.Follows c Same x y)
    (rest : ∀ d, Older c d → ∀ a, ρ.Follows d S (f a) (g a)) :
    ρ.Follows c S (x >>= f) (y >>= g) := by
  refine first.bind ?_
  rintro d older a _ rfl
  exact rest d older a

theorem look {f : Store → Run γ} {g : Store → Run δ}
    (rest : ∀ s t, Older c s → ρ.Stores s t → ρ.Outcomes s S (f s s) (g t t)) :
    ρ.Follows c S (get >>= f) (get >>= g) := rest

/-- A look at the store that shows the same in both computations. -/
theorem lookSame {k k' : Store → α} {f : α → Run γ} {g : α → Run δ}
    (same : ∀ s t, Older c s → ρ.Stores s t → k s = k' t)
    (rest : ∀ a, ρ.Follows c S (f a) (g a)) :
    ρ.Follows c S (do f (k (← get))) (do g (k' (← get))) := by
  intro s t older stores
  change ρ.Outcomes s S (f (k s) s) (g (k' t) t)
  rw [same s t older stores]
  exact rest _ s t older stores

theorem change {k : Store → α × Store} {k' : Store → β × Store}
    (changes : ∀ s t, Older c s → ρ.Stores s t → Older s (k s).2 ∧
      R (ρ.upTo (k s).2) (k s).1 (k' t).1 ∧ ρ.Stores (k s).2 (k' t).2) :
    ρ.Follows c R (modifyGet k) (modifyGet k') := by
  intro s t older stores
  obtain ⟨later, same, stores⟩ := changes s t older stores
  exact .ok later same stores

end Follows

end Computations

end Renaming

end LazyLisp
