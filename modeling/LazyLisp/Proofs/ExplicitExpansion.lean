import LazyLisp.Proofs.Running

/-!
Expansion by hand means what evaluation does.

Evaluation comes to an expander by evaluating the head of a form, behind its arguments; expansion
finds it by name, in front of them. Where the pairs of the code are eager there is no difference:
expanding a form until its head names no expander and evaluating what comes out ends exactly as the
evaluation of the form does, and where expansion fails, so does evaluation.
-/

namespace LazyLisp

namespace Value

def HasEagerSpine : Value → Prop
  | pair _ _ rest => rest.HasEagerSpine
  | lazyPair _ => False
  | _ => True

end Value

theorem foldEager_of_hasEagerSpine {v : Value} (eager : v.HasEagerSpine)
    (hop : List Value → Nat → Run (List Value × Value)) (passed : List Value) (s : Store) :
    ∃ r, Engine.foldEager hop (fun passed head => return some ((← head) :: passed)) passed v s =
      .ok r s := by
  induction v generalizing passed with
  | pair mark item rest _ ih => exact ih eager (item :: passed)
  | lazyPair ref => exact False.elim eager
  | _ => exact ⟨_, rfl⟩

theorem arguments_of_hasEagerSpine {v : Value} (eager : v.HasEagerSpine) {m : Engine} {s t : Store}
    {items : List Value} (read : m.arguments v s = .ok items t) : t = s := by
  obtain ⟨⟨passed, last⟩, walked⟩ : ∃ r, m.foldSpine
      (fun passed head => return some ((← head) :: passed)) [] v s = .ok r s :=
    foldEager_of_hasEagerSpine eager _ [] s
  have ended := (Run.bind_of_ok walked).symm.trans read
  cases proper : last.isNil with
  | true =>
    simp only [proper] at ended
    injection ended with _ same
    exact same.symm
  | false =>
    simp only [proper] at ended
    obtain ⟨text, u, _, failed⟩ := Run.of_bind_ok ended
    cases failed

/-- The head of a form names an expander: it is a symbol, not that of a special form, and bound to
the expander. -/
inductive Names (s : Store) (frame : FrameId) : Value → Closure → Prop where
  | intro {mark name rest owner ref x} : SpecialForm.ofName? name = none →
      Frame.find? s.frames name frame = some (owner, .procedure ref) →
      s.procedures[ref]? = some (.expander x) → Names s frame (.pair mark (.symbol name) rest) x

/-- Forms met when a form is expanded once, and again as long as its head names an expander. -/
inductive Expands (m : Engine) (frame : FrameId) : Value → Store → Value → Store → Prop where
  | refl {form s} : Expands m frame form s form s
  | step {form s x next t last u} : Names s frame form x →
      Expansion.once m form frame s = .ok next t → Expands m frame next t last u →
      Expands m frame form s last u

theorem Expands.of_once {m : Engine} {frame : FrameId} {form next last : Value} {s t u : Store}
    (once : Expansion.once m form frame s = .ok next t) (expands : Expands m frame form s last u) :
    last = form ∨ Expands m frame next t last u := by
  cases expands with
  | refl => exact .inl rfl
  | step _ same rest =>
    cases same.symm.trans once
    exact .inr rest

theorem Expands.of_atom {m : Engine} {frame : FrameId} {a : Atom} {last : Value} {s u : Store}
    (expands : Expands m frame (.atom a) s last u) : last = .atom a := by
  cases expands with
  | refl => rfl
  | step names => cases names

def expansion (m : Engine) (form : Value) (x : Closure) : Run Value := do
  Expansion.run m x (← m.arguments (← m.cdr form))

theorem expansion_pair (m : Engine) (mark : Nat) (head rest : Value) (x : Closure) :
    expansion m (.pair mark head rest) x = m.arguments rest >>= Expansion.run m x := rfl

section Names

variable {s : Store} {frame : FrameId} {form : Value} {x : Closure} (m : Engine)

theorem expander?_symbol (mark : Nat) (name : String) (rest : Value) :
    Expansion.expander? m (.pair mark (.symbol name) rest) frame s =
      if (SpecialForm.ofName? name).isSome then .ok none s
      else match Frame.find? s.frames name frame with
        | some (_, .procedure ref) => match s.procedures[ref]? with
          | some (.expander x) => .ok (some x) s
          | some _ => .ok none s
          | none => .error .dangling s
        | _ => .ok none s := by
  change (if (SpecialForm.ofName? name).isSome then pure none else _ : Run (Option Closure)) s = _
  split
  · rfl
  have found : Run.find? frame name s = .ok (Frame.find? s.frames name frame) s := rfl
  refine (Run.bind_of_ok found).trans ?_
  cases Frame.find? s.frames name frame with
  | none => rfl
  | some found =>
    obtain ⟨owner, v⟩ := found
    cases v with
    | procedure ref =>
      change (Run.held s.procedures[ref]? >>= _) s = _
      dsimp only
      cases s.procedures[ref]? with
      | none => rfl
      | some p => cases p <;> rfl
    | _ => rfl

theorem expander?_of_names (names : Names s frame form x) :
    Expansion.expander? m form frame s = .ok (some x) s := by
  cases names with
  | intro notSpecial bound expander => simp [expander?_symbol, notSpecial, bound, expander]

theorem once_of_names (names : Names s frame form x) :
    Expansion.once m form frame s = expansion m form x s :=
  Run.bind_of_ok (expander?_of_names m names)

theorem fullyWithin_of_names (names : Names s frame form x) (fuel : Nat) :
    Expansion.fullyWithin m frame (fuel + 1) form s =
      (expansion m form x >>= Expansion.fullyWithin m frame fuel) s := by
  refine (Run.bind_of_ok (expander?_of_names m names)).trans ?_
  simp only [expansion, bind_assoc]

/-- The search for an expander changes nothing, and finds none where none is named. -/
theorem expander?_cases (eager : form.HasEagerSpine) :
    (∃ x, Names s frame form x) ∨
    (∀ x, ¬ Names s frame form x) ∧ Expansion.expander? m form frame s = .ok none s ∨
    Expansion.expander? m form frame s = .error .dangling s := by
  by_cases named : ∃ x, Names s frame form x
  · exact .inl named
  rw [← not_exists, and_iff_right named]
  right
  cases form with
  | lazyPair ref => exact False.elim eager
  | pair mark head rest =>
    cases head with
    | atom a =>
      cases a with
      | symbol name =>
        rw [expander?_symbol]
        split
        · exact .inl rfl
        split
        · rename_i special _ owner ref bound
          split
          · rename_i x expander
            exact absurd ⟨x, .intro (by simpa using special) bound expander⟩ named
          · exact .inl rfl
          · exact .inr rfl
        · exact .inl rfl
      | _ => exact .inl rfl
    | _ => exact .inl rfl
  | _ => exact .inl rfl

end Names

/-- Evaluation can end with the given outcome. -/
def Ends (w : World) (room : Option Nat) (expr : Value) (frame : FrameId) (s : Store)
    (r : EStateM.Result Interrupt Store Value) : Prop :=
  Finished r ∧ ∃ fuel, evaluate w fuel room expr frame none s = r

/-- The same failure, except for the forms that a fault has left. -/
inductive Interrupt.Agrees : Interrupt → Interrupt → Prop where
  | fault {f g : Fault} : f.kind = g.kind → f.value = g.value → f.cause = g.cause →
      Agrees (.fault f) (.fault g)
  | overflow : Agrees .overflow .overflow
  | breakdown {b} : Agrees (.breakdown b) (.breakdown b)

section Steps

variable {w : World} {room inner innermost : Option Nat} (deeper : descend room = some inner)
  (deepest : descend inner = some innermost) {frame : FrameId} {form : Value} {x : Closure}
  {s t : Store}

include deepest in
/-- A step of evaluation expands a form whose head names an expander. -/
theorem step_of_names (fuel : Nat) (names : Names s frame form x) (eager : form.HasEagerSpine) :
    step (.evaluating w (fuel + 1) inner) form frame true s =
      (expansion (.evaluating w (fuel + 1) inner) form x >>=
        fun next => pure (.tail next frame none)) s := by
  cases names with
  | @intro mark name rest owner ref x notSpecial bound expander =>
    have restEager : rest.HasEagerSpine := eager
    rw [step_pair, expansion_pair, bind_assoc]
    simp only [Value.symbol?, Option.bind_some, notSpecial]
    cases read : (Engine.evaluating w (fuel + 1) inner).arguments rest s with
    | error e t => rw [Run.bind_of_error read, Run.bind_of_error read]
    | ok args t =>
      obtain rfl := arguments_of_hasEagerSpine restEager read
      have head := evaluate_symbol w fuel deepest bound none
      have held : Run.procedure ref t = .ok (.expander x) t := by
        change Run.held t.procedures[ref]? t = _
        rw [expander]
        rfl
      rw [Run.bind_of_ok read, Run.bind_of_ok read]
      exact (Run.bind_of_ok head).trans (Run.bind_of_ok held)

theorem Likeness.expansion {L : Likeness} {m m' : Engine} (alike : L.Engines m m') (form : Value)
    (x : Closure) : L.Alike Eq (LazyLisp.expansion m form x) (LazyLisp.expansion m' form x) :=
  (alike.cdr form).andThen fun rest =>
    (alike.arguments rest).andThen fun args => expand alike x args

/-- An expansion that has ended ends in the same way inside an evaluation with more fuel. -/
theorem expansion_of_le {fuel more : Nat} (less : fuel ≤ more)
    (finished : Finished (expansion (.evaluating w fuel inner) form x s)) :
    expansion (.evaluating w more inner) form x s = expansion (.evaluating w fuel inner) form x s :=
  eq_of_moreFuel (Likeness.expansion (moreFuel_engines w less inner) form x) finished

section Runs

variable {fuel more : Nat} (names : Names s frame form x) (eager : form.HasEagerSpine)
  (less : fuel ≤ more)

include deeper deepest names eager less

/-- Where expansion goes on, so does evaluation, with the form that takes the place. -/
theorem evaluate_of_expansion {next : Value}
    (expanded : expansion (.evaluating w fuel inner) form x s = .ok next t) :
    evaluate w (more + 2) room form frame none s =
      evaluate w (more + 1) room next frame none t := by
  apply evaluate_of_tail deeper
  rw [step_of_names deepest more names eager]
  have finished : Finished (expansion (.evaluating w fuel inner) form x s) := by
    rw [expanded]
    exact finished_ok next t
  exact Run.bind_of_ok ((expansion_of_le (by omega) finished).trans expanded)

/-- Where expansion fails, so does evaluation, and a fault takes the form along. -/
theorem evaluate_of_expansion_error {e : Interrupt} (ended : e ≠ .outOfFuel)
    (failed : expansion (.evaluating w fuel inner) form x s = .error e t) :
    evaluate w (more + 2) room form frame none s = leaving w.traceLimit form none e t := by
  apply evaluate_of_error deeper
  rw [step_of_names deepest more names eager]
  have finished : Finished (expansion (.evaluating w fuel inner) form x s) := by
    rw [failed]
    exact finished_error ended t
  exact Run.bind_of_error ((expansion_of_le (by omega) finished).trans failed)

end Runs

theorem Interrupt.agrees_leaving (limit : Int) (expr : Value) (name : Option String) {e : Interrupt}
    (ended : e ≠ .outOfFuel) (held : e ≠ .dangling) (t : Store) :
    ∃ e', e.Agrees e' ∧ leaving limit expr name e t = .error e' t := by
  cases e with
  | fault f =>
    refine ⟨.fault (f.leave expr name limit), ?_, rfl⟩
    unfold Fault.leave
    dsimp only
    split <;> exact .fault rfl rfl rfl
  | overflow => exact ⟨_, .overflow, rfl⟩
  | breakdown b => exact ⟨_, .breakdown, rfl⟩
  | outOfFuel => exact absurd rfl ended
  | dangling => exact absurd rfl held

section Fully

variable {fuel : Nat}
  (eager : ∀ {form' s'}, Expands (.evaluating w fuel inner) frame form s form' s' →
    form'.HasEagerSpine)

include deeper deepest eager

/-- An expansion that ends is one, repeated; evaluation does each part of it in one step. -/
theorem evaluate_of_fullyWithin {rounds : Nat} {last : Value}
    (expanded : Expansion.fullyWithin (.evaluating w fuel inner) frame rounds form s = .ok last t) :
    Expands (.evaluating w fuel inner) frame form s last t ∧ (∀ x, ¬ Names t frame last x) ∧
      ∃ count, ∀ more, fuel ≤ more → evaluate w (more + 1 + count) room form frame none s =
        evaluate w (more + 1) room last frame none t := by
  induction rounds generalizing form s with
  | zero => cases expanded
  | succ rounds ih =>
    have formEager : form.HasEagerSpine := eager .refl
    rcases expander?_cases (.evaluating w fuel inner) formEager with
      ⟨x, names⟩ | ⟨none, found⟩ | lost
    · rw [fullyWithin_of_names _ names] at expanded
      obtain ⟨next, u, once, rest⟩ := Run.of_bind_ok expanded
      have expandsOnce : Expansion.once (.evaluating w fuel inner) form frame s = .ok next u := by
        rw [once_of_names _ names, once]
      obtain ⟨expands, stops, count, goesOn⟩ :=
        ih (fun later => eager (.step names expandsOnce later)) rest
      refine ⟨.step names expandsOnce expands, stops, count + 1, ?_⟩
      intro more less
      rw [← goesOn more less, show more + 1 + (count + 1) = more + count + 2 by omega,
        evaluate_of_expansion deeper deepest names formEager (by omega) once]
      congr 1
      omega
    · cases (Run.bind_of_ok found).symm.trans expanded
      exact ⟨.refl, none, 0, fun _ _ => rfl⟩
    · cases (Run.bind_of_error lost).symm.trans expanded

theorem evaluate_of_fullyWithin_error {rounds : Nat} {e : Interrupt} (ended : e ≠ .outOfFuel)
    (held : e ≠ .dangling)
    (failed : Expansion.fullyWithin (.evaluating w fuel inner) frame rounds form s = .error e t) :
    ∃ e', e.Agrees e' ∧ ∃ count, ∀ more, fuel ≤ more →
      evaluate w (more + 2 + count) room form frame none s = .error e' t := by
  induction rounds generalizing form s with
  | zero =>
    cases failed
    exact absurd rfl ended
  | succ rounds ih =>
    have formEager : form.HasEagerSpine := eager .refl
    rcases expander?_cases (.evaluating w fuel inner) formEager with
      ⟨x, names⟩ | ⟨_, found⟩ | lost
    · rw [fullyWithin_of_names _ names] at failed
      cases once : expansion (.evaluating w fuel inner) form x s with
      | error e' u =>
        cases (Run.bind_of_error once).symm.trans failed
        obtain ⟨e', agrees, leaves⟩ :=
          Interrupt.agrees_leaving w.traceLimit form none ended held t
        refine ⟨e', agrees, 0, ?_⟩
        intro more less
        rw [← leaves]
        exact evaluate_of_expansion_error deeper deepest names formEager less ended once
      | ok next u =>
        have expandsOnce : Expansion.once (.evaluating w fuel inner) form frame s = .ok next u := by
          rw [once_of_names _ names, once]
        have rest := (Run.bind_of_ok once).symm.trans failed
        obtain ⟨e', agrees, count, fails⟩ :=
          ih (fun later => eager (.step names expandsOnce later)) rest
        refine ⟨e', agrees, count + 1, ?_⟩
        intro more less
        rw [← fails more less, show more + 2 + (count + 1) = more + 1 + count + 2 by omega,
          evaluate_of_expansion deeper deepest names formEager (by omega) once]
        congr 1
        omega
    · cases (Run.bind_of_ok found).symm.trans failed
    · cases (Run.bind_of_error lost).symm.trans failed
      exact absurd rfl held

end Fully

end Steps

/-- Expansion by hand agrees with evaluation. -/
theorem evaluate_expandFully (w : World) (fuel : Nat) {room inner innermost : Option Nat}
    (deeper : descend room = some inner) (deepest : descend inner = some innermost)
    (form : Value) (frame : FrameId) (s : Store)
    (eager : ∀ form' s', Expands (.evaluating w fuel inner) frame form s form' s' →
      form'.HasEagerSpine) :
    (∀ form' s', Expansion.fully (.evaluating w fuel inner) form frame s = .ok form' s' →
      (∀ x, ¬ Names s' frame form' x) ∧ Expands (.evaluating w fuel inner) frame form s form' s' ∧
        ∀ r, Ends w room form' frame s' r ↔ Ends w room form frame s r) ∧
    (∀ e t, Expansion.fully (.evaluating w fuel inner) form frame s = .error e t →
      e ≠ .outOfFuel → e ≠ .dangling →
        ∃ e', e.Agrees e' ∧ Ends w room form frame s (.error e' t)) := by
  constructor
  · intro form' s' expanded
    obtain ⟨expands, stops, count, goesOn⟩ :=
      evaluate_of_fullyWithin deeper deepest (eager _ _) expanded
    refine ⟨stops, expands, fun r => and_congr_right fun finished => ?_⟩
    constructor
    · rintro ⟨n, rfl⟩
      refine ⟨max n fuel + 1 + count, ?_⟩
      rw [goesOn _ (by omega), evaluate_of_le finished (by omega)]
    · rintro ⟨n, rfl⟩
      refine ⟨max n fuel + 1, ?_⟩
      rw [← goesOn _ (by omega), evaluate_of_le finished (by omega)]
  · intro e t failed ended held
    obtain ⟨e', agrees, count, fails⟩ :=
      evaluate_of_fullyWithin_error deeper deepest (eager _ _) ended held failed
    refine ⟨e', agrees, finished_error ?_ t, _, fails fuel (Nat.le_refl fuel)⟩
    rintro rfl
    cases agrees

/-- A store with the expander `same`, which has been used on the given arguments and has given them
back. -/
def sameStore (used : List Value) : Store :=
  { Store.empty with
    frames := (⟨none, [("same", .procedure 0)]⟩ :: used.map fun v => ⟨some 0, [("x", v)]⟩).toArray
    procedures := #[.expander ⟨⟨["x"], none⟩, .symbol "x", 0, some "same", none⟩] }

def sameForm (mark : Nat) (arg : Value) : Value :=
  .pair mark (.symbol "same") (.pair (mark + 1) arg .nil)

theorem evaluate_expandFully_same :
    Expansion.fully (.evaluating bareWorld 2 none) (sameForm 2 (sameForm 0 .nil)) 0 (sameStore []) =
      .ok .nil (sameStore [sameForm 0 .nil, .nil]) ∧
    ∀ r, Ends bareWorld none .nil 0 (sameStore [sameForm 0 .nil, .nil]) r ↔
      Ends bareWorld none (sameForm 2 (sameForm 0 .nil)) 0 (sameStore []) r := by
  have outer : Expansion.once (.evaluating bareWorld 2 none) (sameForm 2 (sameForm 0 .nil)) 0
      (sameStore []) = .ok (sameForm 0 .nil) (sameStore [sameForm 0 .nil]) := by
    with_unfolding_all rfl
  have inner : Expansion.once (.evaluating bareWorld 2 none) (sameForm 0 .nil) 0
      (sameStore [sameForm 0 .nil]) = .ok .nil (sameStore [sameForm 0 .nil, .nil]) := by
    with_unfolding_all rfl
  have eager (form : Value) (s : Store) (expands : Expands (.evaluating bareWorld 2 none) 0
      (sameForm 2 (sameForm 0 .nil)) (sameStore []) form s) : form.HasEagerSpine := by
    rcases expands.of_once outer with rfl | expands
    · trivial
    rcases expands.of_once inner with rfl | expands
    · trivial
    rw [expands.of_atom]
    trivial
  have expanded : Expansion.fully (.evaluating bareWorld 2 none) (sameForm 2 (sameForm 0 .nil)) 0
      (sameStore []) = .ok .nil (sameStore [sameForm 0 .nil, .nil]) := by
    with_unfolding_all rfl
  have deeper : descend none = some none := rfl
  have agrees := evaluate_expandFully bareWorld 2 deeper deeper (sameForm 2 (sameForm 0 .nil)) 0
    (sameStore []) eager
  exact ⟨expanded, (agrees.1 _ _ expanded).2.2⟩

end LazyLisp
