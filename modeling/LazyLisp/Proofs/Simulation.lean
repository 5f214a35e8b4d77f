import LazyLisp.Proofs.Interruption
import Mathlib.Data.List.Forall2

/-!
Computations that follow each other.

A simulation relates what two computations work on and says when the second one follows the first.
It has to know how computations are put together and that the operations on the store follow
themselves. Whatever is made of these then does so too: engines, primitives, calls, special forms
and steps.

What is related may change as the computations go on, but only so that more is. A statement is about
the moment from which on the computations go along with each other.
-/

namespace LazyLisp

/-- Two values with the same constructor and the same data in it. Marks and references to procedures
do not count, and the halves of eager pairs are related. -/
inductive Value.Matches (R : Value → Value → Prop) : Value → Value → Prop where
  | atom (a : Atom) : Matches R (.atom a) (.atom a)
  | nan (m n : Nat) : Matches R (.nan m) (.nan n)
  | pair {m n car car' cdr cdr'} : R car car' → R cdr cdr' →
      Matches R (.pair m car cdr) (.pair n car' cdr')
  | lazyPair (ref : Nat) : Matches R (.lazyPair ref) (.lazyPair ref)
  | procedure (p q : Nat) : Matches R (.procedure p) (.procedure q)
  | error (ref : Nat) : Matches R (.error ref) (.error ref)
  | input (ref : Nat) : Matches R (.input ref) (.input ref)

namespace Value.Matches

variable {R S : Value → Value → Prop} {v w : Value} (same : v.Matches R w)

include same

theorem mono (implies : ∀ v w, R v w → S v w) : v.Matches S w := by
  cases same with
  | atom a => exact .atom a
  | nan m n => exact .nan m n
  | pair car cdr => exact .pair (implies _ _ car) (implies _ _ cdr)
  | lazyPair ref => exact .lazyPair ref
  | procedure p q => exact .procedure p q
  | error ref => exact .error ref
  | input ref => exact .input ref

theorem isPair_eq : v.isPair = w.isPair := by cases same <;> rfl

theorem isNil_eq : v.isNil = w.isNil := by cases same <;> rfl

theorem isLazy_eq : v.isLazy = w.isLazy := by cases same <;> rfl

theorem isTruthy_eq : v.isTruthy = w.isTruthy := by cases same <;> rfl

theorem symbol?_eq : v.symbol? = w.symbol? := by cases same <;> rfl

theorem number?_eq : v.number? = w.number? := by cases same <;> rfl

theorem isSymbolNamed_eq (name : String) : v.isSymbolNamed name = w.isSymbolNamed name := by
  unfold Value.isSymbolNamed
  rw [same.symbol?_eq]

theorem isErrorValue_eq : Primitive.isErrorValue v = Primitive.isErrorValue w := by
  cases same <;> rfl

theorem isKind_eq (holds : Atom → Bool) : Primitive.isKind v holds = Primitive.isKind w holds := by
  cases same <;> rfl

end Value.Matches

theorem Value.matches_self {R : Value → Value → Prop} (refl : ∀ v, R v v) (v : Value) :
    v.Matches R v := by
  cases v with
  | atom a => exact .atom a
  | nan m => exact .nan m m
  | pair m car cdr => exact .pair (refl car) (refl cdr)
  | lazyPair ref => exact .lazyPair ref
  | procedure p => exact .procedure p p
  | error ref => exact .error ref
  | input ref => exact .input ref

theorem rel_self {α : Type} {R : α → α → Prop} {a : Option α} (known : ∀ x, a = some x → R x x) :
    Option.Rel R a a := by
  cases a with
  | some x => exact .some (known x rfl)
  | none => exact .none

theorem eq_of_rel {α : Type} {R : α → α → Prop} (same : ∀ x y, R x y → x = y) {a b : Option α}
    (related : Option.Rel R a b) : a = b := by
  cases related with
  | some related => rw [same _ _ related]
  | none => rfl

/-- How what two computations work on is related. -/
structure Relations where
  Moment : Type
  Later : Moment → Moment → Prop
  /-- Values that programs compute with. -/
  values : Moment → Value → Value → Prop
  /-- Values that programs get to see. -/
  looks : Moment → Value → Value → Prop
  /-- Frames in which expressions are evaluated. -/
  frames : Moment → FrameId → Prop
  /-- Frames from which primitives are called. -/
  callers : Moment → FrameId → Prop
  faults : Moment → Fault → Fault → Prop
  /-- The forms that faults have left are related. -/
  Traced : Prop
  refl : ∀ c, Later c c
  trans : ∀ {c d e}, Later c d → Later d e → Later c e
  values_later : ∀ {c d v w}, Later c d → values c v w → values d v w
  looks_later : ∀ {c d v w}, Later c d → looks c v w → looks d v w
  frames_later : ∀ {c d i}, Later c d → frames c i → frames d i
  callers_later : ∀ {c d i}, Later c d → callers c i → callers d i
  faults_later : ∀ {c d f g}, Later c d → faults c f g → faults d f g
  looks_of_values : ∀ {c v w}, values c v w → looks c v w
  callers_of_frames : ∀ {c i}, frames c i → callers c i
  matches_of_looks : ∀ {c v w}, looks c v w → v.Matches (fun _ _ => True) w
  matches_of_values : ∀ {c v w}, values c v w → v.Matches (values c) w
  values_atom : ∀ c a, values c (.atom a) (.atom a)
  values_error : ∀ c ref, values c (.error ref) (.error ref)
  isSame_eq : ∀ {c v w v' w'}, values c v w → values c v' w' → v.isSame v' = w.isSame w'
  kind_eq : ∀ {c f g}, faults c f g → f.kind = g.kind
  value_rel : ∀ {c f g}, faults c f g → Option.Rel (values c) f.value g.value
  source_rel : ∀ {c f g}, faults c f g → Option.Rel (values c) f.source g.source
  trace_rel : ∀ {c f g}, Traced → faults c f g →
    List.Forall₂ (fun a b => values c a.form b.form) f.trace.toList g.trace.toList
  faults_again : ∀ {c f g summary}, faults c f g → f.ShownAs summary →
    faults c (f.again summary) (g.again summary)

namespace Relations

variable (T : Relations) {α : Type}

def Stable {β : Type} (R : T.Moment → α → β → Prop) : Prop :=
  ∀ ⦃c d a b⦄, T.Later c d → R c a b → R d a b

abbrev Same : T.Moment → α → α → Prop := fun _ a b => a = b

def Inside (c : T.Moment) (i j : FrameId) : Prop := i = j ∧ T.frames c i

def All (c : T.Moment) : List Value → List Value → Prop := List.Forall₂ (T.values c)

def Bindings (c : T.Moment) (a b : String × Value) : Prop := a.1 = b.1 ∧ T.values c a.2 b.2

structure Closures (c : T.Moment) (x y : Closure) : Prop where
  signature : x.signature = y.signature
  body : T.values c x.body y.body
  frame : T.Inside c x.frame y.frame
  name : x.name = y.name
  doc : x.doc = y.doc

inductive Procedures (c : T.Moment) : Procedure → Procedure → Prop where
  | closure {x y} : T.Closures c x y → Procedures c (.closure x) (.closure y)
  | cases {xs ys} (name doc : Option String) : List.Forall₂ (T.Closures c) xs ys →
      Procedures c (.cases xs name doc) (.cases ys name doc)
  | expander {x y} : T.Closures c x y → Procedures c (.expander x) (.expander y)
  | primitive (p : Primitive) : Procedures c (.primitive p) (.primitive p)

inductive Glimpses (c : T.Moment) : Procedure → Procedure → Prop where
  | expander {x y} : T.Closures c x y → Glimpses c (.expander x) (.expander y)
  | other {p q} : p.isExpander = false → q.isExpander = false → Glimpses c p q

inductive Steps (c : T.Moment) : Step → Step → Prop where
  | value {v w} : T.values c v w → Steps c (.value v) (.value w)
  | tail {expr expr' frame} (name : Option String) : T.frames c frame → T.values c expr expr' →
      Steps c (.tail expr frame name) (.tail expr' frame name)

structure Raised (c : T.Moment) (f g : Fault) : Prop where
  kind : f.kind = g.kind
  value : Option.Rel (T.values c) f.value g.value
  summary : f.summary = g.summary
  source : f.source = none ∧ g.source = none
  trace : f.trace = #[] ∧ g.trace = #[]
  elided : f.elided = 0 ∧ g.elided = 0
  cause : f.cause = g.cause
  offset : f.offset = g.offset

/-- A value of a fault that is no object is related to itself. -/
theorem rel_atom (c : T.Moment) (a : Atom) :
    Option.Rel (T.values c) (some (.atom a)) (some (.atom a)) := .some (T.values_atom c a)

theorem raised_ofMessage (c : T.Moment) (kind message : String) :
    T.Raised c (.ofMessage kind message) (.ofMessage kind message) :=
  ⟨rfl, T.rel_atom c _, rfl, ⟨rfl, rfl⟩, ⟨rfl, rfl⟩, ⟨rfl, rfl⟩, rfl, rfl⟩

theorem stable_values : T.Stable T.values := fun _ _ _ _ => T.values_later

section Later

variable {T}

theorem all_later : T.Stable T.All :=
  fun _ _ _ _ later same => same.imp fun _ _ => T.values_later later

theorem inside_later : T.Stable T.Inside :=
  fun _ _ _ _ later same => ⟨same.1, T.frames_later later same.2⟩

theorem bindings_later : T.Stable T.Bindings :=
  fun _ _ _ _ later same => ⟨same.1, T.values_later later same.2⟩

theorem closures_later : T.Stable T.Closures := fun _ _ _ _ later same =>
  { same with body := T.values_later later same.body, frame := inside_later later same.frame }

theorem steps_later : T.Stable T.Steps := by
  intro c d p q later same
  cases same with
  | value known => exact .value (T.values_later later known)
  | tail name shown known => exact .tail name (T.frames_later later shown) (T.values_later later known)

end Later

theorem Glimpses.isExpander_eq {T : Relations} {c : T.Moment} {p q : Procedure}
    (same : T.Glimpses c p q) : p.isExpander = q.isExpander := by
  cases same with
  | expander => rfl
  | other first second => rw [first, second]

section Equality

variable {T : Relations} {c : T.Moment} (same : ∀ v w, T.values c v w → v = w)

include same

theorem eq_of_all {vs ws : List Value} (known : T.All c vs ws) : vs = ws :=
  Eq.mp (congrFun (congrFun List.forall₂_eq_eq_eq vs) ws) (known.imp same)

theorem Closures.eq {x y : Closure} (known : T.Closures c x y) : x = y := by
  obtain ⟨signature, body, frame, name, doc⟩ := known
  cases x
  cases y
  cases signature
  cases same _ _ body
  cases frame.1
  cases name
  cases doc
  rfl

theorem Procedures.eq {p q : Procedure} (known : T.Procedures c p q) : p = q := by
  cases known with
  | closure known => rw [known.eq same]
  | @cases xs ys name doc known =>
    have same : xs = ys := Eq.mp (congrFun (congrFun List.forall₂_eq_eq_eq xs) ys)
      (known.imp fun _ _ => Closures.eq same)
    rw [same]
  | expander known => rw [known.eq same]
  | primitive p => rfl

theorem Steps.eq {p q : Step} (known : T.Steps c p q) : p = q := by
  cases known with
  | value known => rw [same _ _ known]
  | tail name _ known => rw [same _ _ known]

theorem Raised.eq {f g : Fault} (raised : T.Raised c f g) : f = g := by
  obtain ⟨kind, value, summary, source, trace, elided, cause, offset⟩ := raised
  cases f
  cases g
  simp only at *
  cases value with
  | none => simp_all
  | some known => simp_all [same _ _ known]

end Equality

section Reflexivity

variable {T : Relations} {c : T.Moment} (refl : ∀ v, T.values c v v)

include refl

theorem all_self (vs : List Value) : T.All c vs vs := List.forall₂_same.mpr fun v _ => refl v

variable (inside : ∀ i, T.frames c i)

include inside

theorem closures_self (x : Closure) : T.Closures c x x :=
  ⟨rfl, refl _, ⟨rfl, inside _⟩, rfl, rfl⟩

theorem procedures_self (p : Procedure) : T.Procedures c p p := by
  cases p with
  | closure x => exact .closure (closures_self refl inside x)
  | cases xs name doc =>
    exact .cases name doc (List.forall₂_same.mpr fun x _ => closures_self refl inside x)
  | expander x => exact .expander (closures_self refl inside x)
  | primitive p => exact .primitive p

theorem steps_self (p : Step) : T.Steps c p p := by
  cases p with
  | value v => exact .value (refl v)
  | tail expr frame name => exact .tail name (inside frame) (refl expr)

end Reflexivity

end Relations

structure Fuels where
  Related : Nat → Nat → Prop
  succ : ∀ {n k}, Related n k → Related (n + 1) (k + 1)
  of_succ : ∀ {n k}, Related (n + 1) k → ∃ j, k = j + 1 ∧ Related n j

def Fuels.same : Fuels where
  Related := Eq
  succ := congrArg (· + 1)
  of_succ same := ⟨_, same.symm, rfl⟩

/-- When one computation follows another, and how such computations are put together. -/
structure Following extends Relations where
  /-- From a moment on the second computation does what the first one does, with results that are
  related. -/
  Follows : {α β : Type} → Moment → (Moment → α → β → Prop) → Run α → Run β → Prop
  /-- Interrupts that may end computations, apart from faults. -/
  possible : Moment → Interrupt → Prop
  /-- The moment for a primitive, whose arithmetic may have no result. -/
  calculating : Moment → Moment
  fuels : Fuels
  possible_overflow : ∀ c, possible c .overflow
  possible_outOfFuel : ∀ c, possible c .outOfFuel
  possible_dangling : ∀ c, possible c .dangling
  possible_tooManyDigits : ∀ c, possible c (.breakdown .tooManyDigits)
  possible_fileNotText : ∀ c, possible c (.breakdown .fileNotText)
  possible_pathRefused : ∀ c, possible c (.breakdown .pathRefused)
  possible_unencodable : ∀ c, possible c (.breakdown .unencodable)
  possible_arithmetic : ∀ c e, possible (calculating c) (.breakdown (.arithmetic e))
  calculating_later : ∀ c, Later c (calculating c)
  faults_raised : ∀ {c f g}, toRelations.Raised c f g → faults c f g
  follows_later : ∀ {α β : Type} {c d R} {x : Run α} {y : Run β}, Later c d → Follows c R x y →
    Follows d R x y
  follows_pure : ∀ {α β : Type} {c} {R : Moment → α → β → Prop} {a b},
    (∀ d, Later c d → R d a b) → Follows c R (pure a) (pure b)
  follows_throw : ∀ {α β : Type} {c} {R : Moment → α → β → Prop} {e}, e.isFault = false →
    possible c e → Follows c R (throw e) (throw e)
  follows_throwFault : ∀ {α β : Type} {c} {R : Moment → α → β → Prop} {f g}, faults c f g →
    Follows c R (throw (.fault f)) (throw (.fault g))
  follows_bind : ∀ {α β γ δ : Type} {c R S} {x : Run α} {y : Run β} {f : α → Run γ} {g : β → Run δ},
    Follows c R x y → (∀ d, Later c d → ∀ a b, R d a b → Follows d S (f a) (g b)) →
    Follows c S (x >>= f) (y >>= g)
  /-- Interrupts are handled, but those that nothing in a program catches are let through. -/
  follows_handle : ∀ {α : Type} {c R} {x y : Run α} {handle handle' : Interrupt → Run α},
    toRelations.Stable R → Follows c R x y →
    (∀ d, Later c d → ∀ f g, faults d f g → Follows d R (handle (.fault f)) (handle' (.fault g))) →
    (∀ d, Later c d → ∀ e, e.isFault = false → possible d e → Follows d R (handle e) (handle' e)) →
    (∀ e, e.Uncaught → handle e = throw e) →
    Follows c R (x.either pure handle) (y.either pure handle')
  follows_calculation : ∀ {c x y} (name : String),
    Follows (calculating c) toRelations.Steps x y →
    Follows c toRelations.Steps (Call.catchArithmetic name x) (Call.catchArithmetic name y)
  follows_outOfFuel : ∀ {α β : Type} {c} {R : Moment → α → β → Prop} {y : Run β} {n},
    fuels.Related 0 n → (n = 0 → y = throw .outOfFuel) → Follows c R (throw .outOfFuel) y

/-- The operations on the store follow themselves. -/
structure Simulation extends Following where
  cons : ∀ {c car car' cdr cdr'}, values c car car' → values c cdr cdr' →
    Follows c values (Run.cons car cdr) (Run.cons car' cdr')
  listReversed : ∀ {c items items' tail tail'}, toRelations.All c items items' →
    values c tail tail' → Follows c values (Run.listReversed items tail) (Run.listReversed items' tail')
  /-- Running out of room in a form that catches errors. -/
  rescue : ∀ {c args args'}, toRelations.All c args args' → Follows c faults
    (Fault.rescue <$> Run.list (.symbol "catch-error" :: args))
    (Fault.rescue <$> Run.list (.symbol "catch-error" :: args'))
  ofDatum : ∀ c d, Follows c values (Run.ofDatum d) (Run.ofDatum d)
  ofNumber : ∀ c n, Follows c values (Run.ofNumber n) (Run.ofNumber n)
  newFrame : ∀ {c frame}, frames c frame →
    Follows c toRelations.Inside (Run.newFrame frame) (Run.newFrame frame)
  define : ∀ {c frame v w}, frames c frame → ∀ name, values c v w →
    Follows c toRelations.Same (Run.define frame name v) (Run.define frame name w)
  find? : ∀ {c frame}, frames c frame → ∀ name, Follows c
    (fun d => Option.Rel fun p q => toRelations.Inside d p.1 q.1 ∧ values d p.2 q.2)
    (Run.find? frame name) (Run.find? frame name)
  /-- A search from any frame, for what is only looked at. -/
  glance? : ∀ c frame name, Follows c (fun d => Option.Rel fun p q => looks d p.2 q.2)
    (Run.find? frame name) (Run.find? frame name)
  topLevel : ∀ {c frame}, callers c frame →
    Follows c toRelations.Inside (Run.topLevel frame) (Run.topLevel frame)
  newProcedure : ∀ {c p q}, toRelations.Procedures c p q →
    Follows c values (Run.newProcedure p) (Run.newProcedure q)
  procedure : ∀ {c p q}, values c (.procedure p) (.procedure q) →
    Follows c toRelations.Procedures (Run.procedure p) (Run.procedure q)
  glimpse : ∀ {c p q}, looks c (.procedure p) (.procedure q) →
    Follows c toRelations.Glimpses (Run.procedure p) (Run.procedure q)
  newLazyPair : ∀ {c car car' cdr cdr' frame}, values c car car' → values c cdr cdr' →
    frames c frame → Follows c values
      (Run.newLazyPair ⟨.pending car frame, .pending cdr frame⟩)
      (Run.newLazyPair ⟨.pending car' frame, .pending cdr' frame⟩)
  newError : ∀ {c f g}, faults c f g →
    Follows c toRelations.Same (Run.newError f) (Run.newError g)
  errorFault : ∀ c ref, Follows c faults (Run.errorFault ref) (Run.errorFault ref)
  newInput : ∀ c p, Follows c values (Run.newInput p) (Run.newInput p)
  input : ∀ c (ref : Nat), Follows c toRelations.Same (do return (← get).inputs[ref]?)
    (do return (← get).inputs[ref]?)
  setInput : ∀ c ref p, Follows c toRelations.Same
    (modify fun s => { s with inputs := s.inputs.setIfInBounds ref p } : Run PUnit)
    (modify fun s => { s with inputs := s.inputs.setIfInBounds ref p })
  emit : ∀ c text, Follows c toRelations.Same (Run.emit text) (Run.emit text)
  emitError : ∀ c text, Follows c toRelations.Same (Run.emitError text) (Run.emitError text)
  gensym : ∀ c start, Follows c values (Run.gensym start) (Run.gensym start)
  write : ∀ {c v w}, looks c v w → ∀ room readable, Follows c toRelations.Same
    (do return (← get).write room readable v) (do return (← get).write room readable w)
  inMessage : ∀ {c v w}, looks c v w → ∀ halves room, Follows c toRelations.Same
    (do return (← get).inMessage halves room v) (do return (← get).inMessage halves room w)
  summary : ∀ {c v w}, Option.Rel (values c) v w → ∀ room kind, Follows c toRelations.Same
    (do return (← get).summary room kind v) (do return (← get).summary room kind w)
  report : ∀ {c f g}, Traced → faults c f g → ∀ room, Follows c toRelations.Same
    (do return (← get).report room f) (do return (← get).report room g)

namespace Following

variable {T : Following} {α β γ δ : Type} {c d : T.Moment} {R : T.Moment → α → β → Prop}
  {S : T.Moment → γ → δ → Prop} {x : Run α} {y : Run β} {f : α → Run γ} {g : β → Run δ}

theorem looks_matches {v w : Value} (same : T.values c v w) :
    v.Matches (fun _ _ => True) w := T.matches_of_looks (T.looks_of_values same)

namespace Follows

theorem later (follows : T.Follows c R x y) (later : T.Later c d) : T.Follows d R x y :=
  T.follows_later later follows

theorem pure {a : α} {b : β} (same : ∀ d, T.Later c d → R d a b) :
    T.Follows c R (pure a) (pure b) := T.follows_pure same

theorem same {a : α} : T.Follows c T.Same (Pure.pure a : Run α) (Pure.pure a) :=
  .pure fun _ _ => rfl

theorem value {v w : Value} (same : T.values c v w) :
    T.Follows c T.values (Pure.pure v : Run Value) (Pure.pure w) :=
  .pure fun _ later => T.values_later later same

theorem atom (a : Atom) :
    T.Follows c T.values (Pure.pure (.atom a) : Run Value) (Pure.pure (.atom a)) :=
  .value (T.values_atom c a)

theorem overflow : T.Follows c R (throw .overflow : Run α) (throw .overflow : Run β) :=
  T.follows_throw rfl (T.possible_overflow c)

theorem dangling : T.Follows c R (throw .dangling : Run α) (throw .dangling : Run β) :=
  T.follows_throw rfl (T.possible_dangling c)

theorem bind (first : T.Follows c R x y)
    (rest : ∀ d, T.Later c d → ∀ a b, R d a b → T.Follows d S (f a) (g b)) :
    T.Follows c S (x >>= f) (y >>= g) := T.follows_bind first rest

/-- Where the results are equal, what follows need only be looked at from equal results. -/
theorem andThen {x y : Run α} {g : α → Run δ} (first : T.Follows c T.Same x y)
    (rest : ∀ d, T.Later c d → ∀ a, T.Follows d S (f a) (g a)) :
    T.Follows c S (x >>= f) (y >>= g) := by
  refine first.bind ?_
  rintro d later a _ rfl
  exact rest d later a

theorem map {f : α → γ} {g : β → δ} (first : T.Follows c R x y)
    (rest : ∀ d, T.Later c d → ∀ a b, R d a b → ∀ e, T.Later d e → S e (f a) (g b)) :
    T.Follows c S (f <$> x) (g <$> y) := by
  rw [map_eq_pure_bind, map_eq_pure_bind]
  exact first.bind fun d later a b same => .pure (rest d later a b same)

theorem mapSame {f : α → γ} {g : β → γ} (first : T.Follows c R x y)
    (same : ∀ d a b, R d a b → f a = g b) : T.Follows c T.Same (f <$> x) (g <$> y) :=
  first.map fun d _ a b known _ _ => same d a b known

theorem mono {S : T.Moment → α → β → Prop} (stable : T.Stable S) (first : T.Follows c R x y)
    (implies : ∀ d, T.Later c d → ∀ a b, R d a b → S d a b) : T.Follows c S x y := by
  rw [← bind_pure x, ← bind_pure y]
  exact first.bind fun d later a b same =>
    .pure fun _ further => stable further (implies d later a b same)

theorem ite {p : Prop} [Decidable p] {x' : Run α} {y' : Run β} (holds : p → T.Follows c R x y)
    (fails : ¬ p → T.Follows c R x' y') :
    T.Follows c R (if p then x else x') (if p then y else y') := by
  by_cases h : p
  · simpa [h] using holds h
  · simpa [h] using fails h

/-- Under a condition the computations fail, and else they go on. -/
theorem guard {p : Prop} [Decidable p] {z : Run γ} {z' : Run δ} (refused : T.Follows c R x y)
    (rest : T.Follows c S z z') :
    T.Follows c S (if p then x >>= fun _ => z else z) (if p then y >>= fun _ => z' else z') :=
  ite (fun _ => refused.bind fun _ later _ _ _ => rest.later later) fun _ => rest

/-- One of two results, and what comes behind both. -/
theorem choose {p : Prop} [Decidable p] {x' : Run α} {y' : Run β} (holds : T.Follows c R x y)
    (fails : T.Follows c R x' y')
    (rest : ∀ d, T.Later c d → ∀ a b, R d a b → T.Follows d S (f a) (g b)) :
    T.Follows c S (if p then x >>= f else x' >>= f) (if p then y >>= g else y' >>= g) :=
  ite (fun _ => holds.bind rest) fun _ => fails.bind rest

/-- A look at the store that shows the same to both computations. -/
theorem look {k k' : Store → α} {g : α → Run δ}
    (shown : T.Follows c T.Same (do return k (← get)) (do return k' (← get)))
    (rest : ∀ d, T.Later c d → ∀ a, T.Follows d S (f a) (g a)) :
    T.Follows c S (do f (k (← get))) (do g (k' (← get))) := shown.andThen rest

theorem yields {x y : Run Value} (first : T.Follows c T.values x y) :
    T.Follows c T.Steps (Step.value <$> x) (Step.value <$> y) :=
  first.map fun _ _ _ _ known _ later => .value (T.values_later later known)

end Follows

theorem fail (kind message : String) :
    T.Follows c R (Run.fail kind message : Run α) (Run.fail kind message : Run β) :=
  T.follows_throwFault (T.faults_raised (T.raised_ofMessage c kind message))

theorem held (a : Option α) : T.Follows c T.Same (Run.held a) (Run.held a) := by
  cases a with
  | some a => exact .same
  | none => exact .dangling

theorem ofWritten (text : Except WriteFailure α) :
    T.Follows c T.Same (Run.ofWritten text) (Run.ofWritten text) := by
  unfold Run.ofWritten
  split
  · exact .same
  · exact .overflow
  · exact T.follows_throw rfl (T.possible_tooManyDigits c)
  · exact T.follows_throw rfl (T.possible_outOfFuel c)

theorem andWith {text : Except WriteFailure α} {f : α → Run γ} {g : α → Run δ}
    (rest : ∀ a, text = .ok a → T.Follows c S (f a) (g a)) :
    T.Follows c S (Run.ofWritten text >>= f) (Run.ofWritten text >>= g) := by
  cases text with
  | ok a => exact rest a rfl
  | error failure =>
    have none (e : Interrupt) (plain : e.isFault = false) (possible : T.possible c e) :
        T.Follows c S (throw e) (throw e : Run δ) := T.follows_throw plain possible
    cases failure with
    | tooDeep => exact none .overflow rfl (T.possible_overflow c)
    | tooManyDigits => exact none _ rfl (T.possible_tooManyDigits c)
    | endless => exact none _ rfl (T.possible_outOfFuel c)

theorem catchFault {R : T.Moment → α → α → Prop} {x y : Run α} {handle handle' : Fault → Run α}
    (stable : T.Stable R) (tried : T.Follows c R x y)
    (handled : ∀ d, T.Later c d → ∀ f g, T.faults d f g → T.Follows d R (handle f) (handle' g)) :
    T.Follows c R (Run.catchFault x handle) (Run.catchFault y handle') := by
  rw [Run.catchFault_eq_either, Run.catchFault_eq_either]
  refine T.follows_handle stable tried handled ?_ ?_
  · intro d later e plain possible
    cases e with
    | fault f => cases plain
    | _ => exact T.follows_throw rfl possible
  · intro e uncaught
    cases e with
    | fault f => exact absurd rfl (uncaught.fault f)
    | _ => rfl

theorem mapM {P : γ → δ → Prop} {f : γ → Run α} {g : δ → Run β} (stable : T.Stable R)
    {items : List γ} {items' : List δ} (same : List.Forall₂ P items items')
    (each : ∀ d, T.Later c d → ∀ a b, P a b → T.Follows d R (f a) (g b)) :
    T.Follows c (fun d => List.Forall₂ (R d)) (items.mapM f) (items'.mapM g) := by
  induction same generalizing c with
  | nil => exact .pure fun _ _ => .nil
  | cons first rest ih =>
    rw [List.mapM_cons, List.mapM_cons]
    refine (each c (T.refl c) _ _ first).bind fun d later a b same => ?_
    refine (ih fun e further => each e (T.trans later further)).bind fun e further as bs all => ?_
    exact .pure fun _ latest =>
      .cons (stable (T.trans further latest) same) (all.imp fun _ _ => stable latest)

theorem mapMSame {P : γ → δ → Prop} {f : γ → Run α} {g : δ → Run α} {items : List γ}
    {items' : List δ} (same : List.Forall₂ P items items')
    (each : ∀ d, T.Later c d → ∀ a b, P a b → T.Follows d T.Same (f a) (g b)) :
    T.Follows c T.Same (items.mapM f) (items'.mapM g) := by
  refine (mapM (fun _ _ _ _ _ => id) same each).mono (fun _ _ _ _ _ => id) fun d later as bs all => ?_
  exact Eq.mp (congrFun (congrFun List.forall₂_eq_eq_eq as) bs) all

theorem foldlM {f g : α → γ → Run α} (each : ∀ d, T.Later c d → ∀ a b, T.Follows d T.Same (f a b) (g a b))
    (init : α) (items : List γ) : T.Follows c T.Same (items.foldlM f init) (items.foldlM g init) := by
  induction items generalizing c init with
  | nil => exact .same
  | cons b rest ih =>
    rw [List.foldlM_cons, List.foldlM_cons]
    refine (each c (T.refl c) init b).andThen fun d later a => ?_
    exact ih (fun e further => each e (T.trans later further)) a

theorem forIn {P : T.Moment → γ → δ → Prop} {f : γ → α → Run (ForInStep α)}
    {g : δ → β → Run (ForInStep β)} (items : T.Stable P) (stable : T.Stable R) {xs : List γ}
    {ys : List δ} (same : List.Forall₂ (P c) xs ys)
    (each : ∀ d, T.Later c d → ∀ x y a b, P d x y → R d a b →
      T.Follows d (fun e p q => ∃ a b, p = .yield a ∧ q = .yield b ∧ R e a b) (f x a) (g y b))
    {init : α} {init' : β} (start : R c init init') :
    T.Follows c R (forIn xs init f) (forIn ys init' g) := by
  induction xs generalizing c ys init init' with
  | nil =>
    cases same
    exact .pure fun _ later => stable later start
  | cons x xs ih =>
    cases same with
    | cons first rest =>
      rw [List.forIn_cons, List.forIn_cons]
      refine (each c (T.refl c) _ _ _ _ first start).bind ?_
      rintro d later _ _ ⟨a, b, rfl, rfl, known⟩
      exact ih (rest.imp fun _ _ => items later) (fun e further => each e (T.trans later further)) known

end Following

namespace Simulation

open Following

variable {T : Simulation} {c : T.Moment}

theorem list {items items' : List Value} (same : T.All c items items') :
    T.Follows c T.values (Run.list items) (Run.list items') :=
  T.listReversed (List.rel_reverse same) (T.values_atom c _)

theorem lookup {frame : FrameId} (shown : T.frames c frame) (name : String) :
    T.Follows c T.values (Run.lookup frame name) (Run.lookup frame name) := by
  refine (T.find? shown name).bind fun d later found found' known => ?_
  cases known with
  | some known => exact .value known.2
  | none => exact fail _ _

/-- A name that is looked up for what its value looks like. -/
theorem glance (frame : FrameId) (name : String) :
    T.Follows c T.looks (Run.lookup frame name) (Run.lookup frame name) := by
  refine (T.glance? c frame name).bind fun d later found found' known => ?_
  cases known with
  | some known => exact .pure fun _ later => T.looks_later later known
  | none => exact fail _ _

theorem assign {frame : FrameId} (shown : T.frames c frame) (name : String) {v w : Value}
    (same : T.values c v w) :
    T.Follows c T.values (Run.assign frame name v) (Run.assign frame name w) := by
  refine (T.find? shown name).bind fun d later found found' known => ?_
  cases known with
  | @some p q known =>
    obtain ⟨owner, old⟩ := p
    obtain ⟨_, old'⟩ := q
    obtain ⟨⟨rfl, inside⟩, known⟩ := known
    refine (T.define inside name (T.values_later later same)).andThen fun e further _ => ?_
    exact .value (T.values_later further known)
  | none => exact fail _ _

theorem output (w : World) (text : String) :
    T.Follows c T.Same (Run.write w text) (Run.write w text) :=
  .ite (fun _ => T.emit c text) fun _ => T.follows_throw rfl (T.possible_unencodable c)

theorem outputLine (w : World) (text : String) :
    T.Follows c T.Same (Run.writeLine w text) (Run.writeLine w text) :=
  (T.output w text).andThen fun _ _ _ => T.output w "\n"

theorem log (l : Logging) (level : LogLevel) (origin : String) (message : Unit → String) :
    T.Follows c T.Same (Run.log l level origin message) (Run.log l level origin message) := by
  unfold Run.log
  split
  · exact T.emitError c _
  · exact .same

end Simulation

end LazyLisp
