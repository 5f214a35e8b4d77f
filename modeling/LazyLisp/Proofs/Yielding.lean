import LazyLisp.Proofs.Allocation
import LazyLisp.Proofs.Spelling

/-!
What code comes to, form by form.

An expression evaluates to a value if it does with every amount of fuel from some amount on. `Yields`
asks this of every expression that a datum spells, and a condition of value and store. There is one
rule for each form, so that code can be followed from the outside in, and fuel is mentioned no more.
-/

namespace LazyLisp

/-- The room that is left `k` levels deeper. -/
def lower (k : Nat) (room : Option Nat) : Option Nat := room.map (· - k)

/-- There is room for `k` levels. -/
def Fits (k : Nat) (room : Option Nat) : Prop := ∀ n, room = some n → k ≤ n

theorem lower_lower (j k : Nat) (room : Option Nat) :
    lower j (lower k room) = lower (k + j) room := by
  cases room with
  | none => rfl
  | some n => simp [lower, Nat.sub_sub]

theorem fits_none (k : Nat) : Fits k none := fun _ absent => nomatch absent

section Room

variable {k : Nat} {room : Option Nat}

theorem Fits.mono {j : Nat} (fits : Fits k room) (less : j ≤ k) : Fits j room :=
  fun n same => Nat.le_trans less (fits n same)

theorem Fits.lower (fits : Fits (k + 1) room) : Fits k (lower 1 room) := by
  intro n same
  obtain ⟨m, rfl, rfl⟩ := Option.map_eq_some_iff.mp same
  have enough := fits m rfl
  omega

theorem Fits.descend (fits : Fits (k + 1) room) : descend room = some (LazyLisp.lower 1 room) := by
  cases room with
  | none => rfl
  | some n =>
    cases n with
    | zero => exact absurd (fits 0 rfl) (Nat.not_succ_le_zero k)
    | succ n => rfl

end Room

def Eventually (P : Nat → Prop) : Prop := ∃ least, ∀ fuel, least ≤ fuel → P fuel

namespace Eventually

variable {P Q : Nat → Prop}

theorem always (holds : ∀ fuel, P fuel) : Eventually P := ⟨0, fun fuel _ => holds fuel⟩

theorem mono (holds : Eventually P) (implies : ∀ fuel, P fuel → Q fuel) : Eventually Q := by
  obtain ⟨least, holds⟩ := holds
  exact ⟨least, fun fuel enough => implies fuel (holds fuel enough)⟩

theorem both (first : Eventually P) (second : Eventually Q) :
    Eventually fun fuel => P fuel ∧ Q fuel := by
  obtain ⟨least, first⟩ := first
  obtain ⟨other, second⟩ := second
  refine ⟨max least other, fun fuel enough => ?_⟩
  exact ⟨first fuel (by omega), second fuel (by omega)⟩

theorem succ (holds : Eventually fun fuel => P (fuel + 1)) : Eventually P := by
  obtain ⟨least, holds⟩ := holds
  refine ⟨least + 1, fun fuel enough => ?_⟩
  obtain ⟨fuel, rfl⟩ : ∃ less, fuel = less + 1 := ⟨fuel - 1, by omega⟩
  exact holds fuel (by omega)

end Eventually

/-- An expression has a value. -/
def Evaluates (w : World) (room : Option Nat) (expr : Value) (frame : FrameId) (s : Store)
    (v : Value) (t : Store) : Prop :=
  Eventually fun fuel => ∀ name, evaluate w fuel room expr frame name s = .ok v t

def finish (w : World) (fuel : Nat) (room : Option Nat) : Step → Run Value
  | .value v => pure v
  | .tail expr frame name => evaluate w fuel room expr frame name

/-- A call with evaluated arguments from an evaluation with the given room has a value. -/
def Calls (w : World) (room : Option Nat) (f : Value) (args : List Value) (frame : FrameId)
    (s : Store) (v : Value) (t : Store) : Prop :=
  Eventually fun fuel =>
    (Call.apply (.evaluating w fuel (lower 1 room)) true f args frame >>= finish w fuel room) s =
      .ok v t

section Rules

variable {k : Nat} {w : World} {room : Option Nat} {frame : FrameId} {s t : Store}

theorem evaluates_of_finish (fits : Fits (k + 1) room) {expr v : Value}
    (ended : Eventually fun fuel =>
      (step (.evaluating w fuel (lower 1 room)) expr frame true >>= finish w fuel room) s =
        .ok v t) : Evaluates w room expr frame s v t := by
  refine .succ (ended.mono fun fuel ended name => ?_)
  obtain ⟨stepped, u, first, rest⟩ := Run.of_bind_ok ended
  cases stepped with
  | value v =>
    cases rest
    exact evaluate_of_value fits.descend first
  | tail next frame name => exact (evaluate_of_tail fits.descend first).trans rest

theorem evaluates_of_value (fits : Fits (k + 1) room) {expr v : Value}
    (done : Eventually fun fuel =>
      step (.evaluating w fuel (lower 1 room)) expr frame true s = .ok (.value v) t) :
    Evaluates w room expr frame s v t :=
  evaluates_of_finish fits (done.mono fun _ done => Run.bind_of_ok done)

theorem evaluates_of_tail (fits : Fits (k + 1) room) {expr next v : Value} {frame' : FrameId}
    (name : Option String) {u : Store}
    (goesOn : Eventually fun fuel =>
      step (.evaluating w fuel (lower 1 room)) expr frame true s = .ok (.tail next frame' name) t)
    (evaluated : Evaluates w room next frame' t v u) : Evaluates w room expr frame s v u := by
  refine evaluates_of_finish fits ((goesOn.both evaluated).mono ?_)
  rintro fuel ⟨goesOn, evaluated⟩
  exact (Run.bind_of_ok goesOn).trans (evaluated name)

def EvaluatesAll (w : World) (room : Option Nat) (args : List Value) (frame : FrameId) (s : Store)
    (vs : List Value) (t : Store) : Prop :=
  Eventually fun fuel => args.mapM (evaluate w fuel room · frame none) s = .ok vs t

theorem EvaluatesAll.nil : EvaluatesAll w room [] frame s [] s := .always fun _ => rfl

theorem EvaluatesAll.cons {arg v : Value} {args vs : List Value} {u : Store}
    (first : Evaluates w room arg frame s v t) (rest : EvaluatesAll w room args frame t vs u) :
    EvaluatesAll w room (arg :: args) frame s (v :: vs) u := by
  refine (first.both rest).mono ?_
  rintro fuel ⟨first, rest⟩
  rw [List.mapM_cons]
  refine (Run.bind_of_ok (first none)).trans ?_
  exact Run.bind_of_ok rest

def Store.CanCall (s : Store) (f : Value) : Prop :=
  ∃ ref p, f = .procedure ref ∧ s.procedures[ref]? = some p ∧ p.isExpander = false

theorem apply_eq (m : Engine) {inner : Option Nat} (deeper : descend m.room = some inner)
    (tail : Bool) (f : Value) (args : List Value) (frame : FrameId) :
    Call.apply m tail f args frame =
      Call.applyWith m (Call.applyWithin m m.fuel inner true) tail f args frame := by
  rw [Call.apply, Call.applyWithin, deeper]

theorem procedure_of_held {ref : Nat} {p : Procedure} (held : s.procedures[ref]? = some p) :
    Run.procedure ref s = .ok p s := by
  change (Run.held s.procedures[ref]? : Run Procedure) s = _
  rw [held]
  rfl

theorem applicationWith_of_canCall {call : (tail : Bool) → Primitive.Caller} {m : Engine} {f : Value}
    (callable : s.CanCall f) (args : List Value) (tail : Bool) :
    applicationWith call m f args frame tail s =
      (args.mapM (m.eval · frame none) >>= fun values => call tail f values frame) s := by
  obtain ⟨ref, p, rfl, held, ordinary⟩ := callable
  refine (Run.bind_of_ok (procedure_of_held held)).trans ?_
  cases p with
  | expander x => cases ordinary
  | _ => rfl

theorem Calls.unique {f v v' : Value} {args : List Value} {u : Store}
    (called : Calls w room f args frame s v t) (again : Calls w room f args frame s v' u) :
    v' = v ∧ u = t := by
  obtain ⟨fuel, both⟩ := called.both again
  obtain ⟨first, second⟩ := both fuel (Nat.le_refl fuel)
  cases first.symm.trans second
  exact ⟨rfl, rfl⟩

/-- What returns from a call is a value that can be called. -/
theorem Calls.canCall {f v : Value} {args : List Value} (called : Calls w room f args frame s v t) :
    s.CanCall f := by
  obtain ⟨fuel, called⟩ := called
  obtain ⟨_, u, applied, -⟩ := Run.of_bind_ok (called fuel (Nat.le_refl fuel))
  cases deeper : descend (lower 1 room) with
  | none =>
    have full : descend (Engine.evaluating w fuel (lower 1 room)).room = none := deeper
    rw [Call.apply, Call.applyWithin, full] at applied
    cases applied
  | some inner =>
    rw [apply_eq _ deeper] at applied
    unfold Call.applyWith at applied
    cases f with
    | procedure ref =>
      obtain ⟨p, t, found, ran⟩ := Run.of_bind_ok applied
      change (Run.held s.procedures[ref]? : Run Procedure) s = _ at found
      cases held : s.procedures[ref]? with
      | none =>
        rw [held] at found
        cases found
      | some q =>
        rw [held] at found
        cases found
        refine ⟨ref, p, rfl, held, ?_⟩
        cases p with
        | expander x => cases ran
        | _ => rfl
    | _ =>
      obtain ⟨_, _, -, failed⟩ := Run.of_bind_ok applied
      cases failed

/-- A form whose head is a name with a procedure: its step is the call with the values of the
arguments. -/
theorem step_call (fits : Fits (k + 2) room) (mark : Nat) {name : String} {rest f : Value}
    {args vs : List Value} {owner : FrameId} (spine : Spine rest args .nil)
    (plain : SpecialForm.ofName? name = none)
    (found : Frame.find? s.frames name frame = some (owner, f)) (callable : s.CanCall f)
    (evaluated : EvaluatesAll w (lower 1 room) args frame s vs t) :
    Eventually fun fuel =>
      step (.evaluating w fuel (lower 1 room)) (.pair mark (.symbol name) rest) frame true s =
        Call.apply (.evaluating w fuel (lower 1 room)) true f vs frame t := by
  obtain ⟨least, evaluated⟩ := evaluated
  refine .succ ⟨least, fun fuel enough => ?_⟩
  have head := evaluate_symbol w fuel fits.lower.descend found none
  dsimp only
  rw [step_pair]
  simp only [Value.symbol?, Option.bind_some, plain]
  refine (Run.bind_of_ok (items_of_spine _ _ _ spine s)).trans ?_
  refine (Run.bind_of_ok head).trans ?_
  rw [applicationWith_of_canCall callable]
  exact Run.bind_of_ok (evaluated (fuel + 1) (by omega))

/-- The arguments have values, and the call has. -/
theorem evaluates_call (fits : Fits (k + 2) room) {mark : Nat} {name : String} {rest f v : Value}
    {args vs : List Value} {owner : FrameId} {u : Store} (spine : Spine rest args .nil)
    (plain : SpecialForm.ofName? name = none)
    (found : Frame.find? s.frames name frame = some (owner, f)) (callable : s.CanCall f)
    (evaluated : EvaluatesAll w (lower 1 room) args frame s vs t)
    (called : Calls w room f vs frame t v u) :
    Evaluates w room (.pair mark (.symbol name) rest) frame s v u := by
  have stepped := step_call fits mark spine plain found callable evaluated
  refine evaluates_of_finish fits ((stepped.both called).mono ?_)
  rintro fuel ⟨stepped, called⟩
  obtain ⟨next, u', first, finished⟩ := Run.of_bind_ok called
  exact (Run.bind_of_ok (stepped.trans first)).trans finished

theorem calls_of_run (fits : Fits (k + 2) room) {ref : Nat} {p : Procedure}
    (held : s.procedures[ref]? = some p) {args : List Value} {v : Value}
    (ran : Eventually fun fuel => ∀ again,
      (Call.runWith (.evaluating w fuel (lower 1 room)) again true args frame p >>=
        finish w fuel room) s = .ok v t) :
    Calls w room (.procedure ref) args frame s v t := by
  refine ran.mono fun fuel ran => ?_
  rw [apply_eq (.evaluating w fuel (lower 1 room)) fits.lower.descend, Call.applyWith]
  simp only [bind_assoc]
  exact (Run.bind_of_ok (procedure_of_held held)).trans (ran _)

theorem bind_append {name : String} {bindings : List (String × Value)}
    (fresh : name ∉ bindings.map (·.1)) (v : Value) :
    Frame.bind name v bindings = bindings ++ [(name, v)] := by
  induction bindings with
  | nil => rfl
  | cons b bindings ih =>
    obtain ⟨other, w⟩ := b
    simp only [List.map_cons, List.mem_cons, not_or] at fresh
    rw [Frame.bind, if_neg (by simpa using fun same => fresh.1 same.symm), ih fresh.2]
    rfl

/-- The definitions of names that are not bound yet, in the youngest frame. -/
theorem forIn_define {outer : Option FrameId} (bindings new : List (String × Value))
    (distinct : ((bindings ++ new).map (·.1)).Nodup) (s : Store) :
    forIn (m := Run) new PUnit.unit (fun b _ => do
      Run.define s.frames.size b.1 b.2
      pure (.yield PUnit.unit)) (s.pushFrame ⟨outer, bindings⟩) =
        .ok PUnit.unit (s.pushFrame ⟨outer, bindings ++ new⟩) := by
  induction new generalizing bindings with
  | nil =>
    rw [List.append_nil]
    rfl
  | cons b new ih =>
    have fresh : b.1 ∉ bindings.map (·.1) := by
      intro member
      rw [List.map_append, List.nodup_append] at distinct
      exact distinct.2.2 b.1 member b.1 (by simp) rfl
    have defined : Run.define s.frames.size b.1 b.2 (s.pushFrame ⟨outer, bindings⟩) =
        .ok () (s.pushFrame ⟨outer, bindings ++ [b]⟩) := by
      have last : (s.frames.push (⟨outer, bindings⟩ : Frame)).modify s.frames.size
          (·.define b.1 b.2) = s.frames.push ⟨outer, bindings ++ [b]⟩ := by
        rw [modify_push, ← bind_append fresh b.2]
        rfl
      exact congrArg (fun frames => EStateM.Result.ok () { s with frames }) last
    rw [List.forIn_cons]
    simp only [bind_assoc, pure_bind]
    refine (Run.bind_of_ok defined).trans ?_
    have rest := ih (bindings ++ [b]) (by simpa using distinct)
    rwa [List.append_assoc] at rest

theorem bind_names {names : List String} {args : List Value} (count : names.length = args.length)
    (distinct : names.Nodup) (outer : FrameId) (s : Store) :
    (⟨names, none⟩ : Signature).bind args outer s =
      .ok s.frames.size (s.pushFrame ⟨some outer, names.zip args⟩) := by
  have fits : (⟨names, none⟩ : Signature).accepts args.length = true := by
    simp [Signature.accepts, count]
  have opened : Run.newFrame outer s = .ok s.frames.size (s.pushFrame ⟨some outer, []⟩) := rfl
  have zipped : (([] ++ names.zip args).map Prod.fst).Nodup := by
    rw [List.nil_append, List.map_fst_zip (by omega)]
    exact distinct
  unfold Signature.bind
  simp only [fits, Bool.not_true, Bool.false_eq_true, if_false]
  refine (Run.bind_of_ok opened).trans ?_
  exact Run.bind_of_ok (forIn_define [] (names.zip args) zipped s)

/-- Arguments are bound in a new frame, those that are left over in one new list. -/
theorem bind_variadic (names : List String) (rest : String) (args others : List Value)
    (count : names.length = args.length) (distinct : (names ++ [rest]).Nodup) {outer : FrameId}
    (inside : outer < s.frames.size) :
    ∃ v t, Spine v others .nil ∧ Enters s outer (names.zip args ++ [(rest, v)]) s.frames.size t ∧
      (⟨names, some rest⟩ : Signature).bind (args ++ others) outer s = .ok s.frames.size t := by
  let bound := names.zip args
  have fits : (⟨names, some rest⟩ : Signature).accepts (args ++ others).length = true := by
    simp [Signature.accepts, count]
  have opened : Run.newFrame outer s = .ok s.frames.size (s.pushFrame ⟨some outer, []⟩) := rfl
  have same : names.zip (args ++ others) = bound := by
    have split : (names ++ []).zip (args ++ others) = bound ++ List.zip [] others :=
      List.zip_append count
    simpa using split
  have firsts : bound.map Prod.fst = names := List.map_fst_zip (Nat.le_of_eq count)
  rw [List.nodup_append] at distinct
  have zipped : (([] ++ bound).map Prod.fst).Nodup := by
    rw [List.nil_append, firsts]
    exact distinct.1
  have fresh : rest ∉ bound.map Prod.fst := by
    rw [firsts]
    exact fun member => distinct.2.2 rest member rest (by simp) rfl
  have left : (args ++ others).drop names.length = others := by
    rw [count, List.drop_left]
  obtain ⟨v, spine, made⟩ := list_spine others (s.pushFrame ⟨some outer, bound⟩)
  let marked : Store := { s with nextMark := s.nextMark + others.length }
  refine ⟨v, marked.pushFrame ⟨some outer, bound ++ [(rest, v)]⟩, spine, ?_, ?_⟩
  · have entered := Enters.pushFrame marked inside (bound ++ [(rest, v)])
    exact { entered with allocates := (Allocates.mark s others.length).trans entered.allocates }
  · unfold Signature.bind
    simp only [fits, Bool.not_true, Bool.false_eq_true, if_false]
    refine (Run.bind_of_ok opened).trans ?_
    rw [same]
    refine (Run.bind_of_ok (forIn_define [] bound zipped s)).trans ?_
    rw [left]
    refine (Run.bind_of_ok made).trans ?_
    have last : (s.frames.push (⟨some outer, bound⟩ : Frame)).modify s.frames.size
        (·.define rest v) = s.frames.push ⟨some outer, bound ++ [(rest, v)]⟩ := by
      rw [modify_push, ← bind_append fresh v]
      rfl
    exact congrArg (fun frames => EStateM.Result.ok s.frames.size { marked with frames }) last

theorem calls_closure (fits : Fits (k + 2) room) {ref : Nat} {c : Closure}
    (held : s.procedures[ref]? = some (.closure c)) {args : List Value} {inner : FrameId} {v : Value}
    {u : Store} (bound : c.signature.bind args c.frame s = .ok inner t)
    (evaluated : Evaluates w room c.body inner t v u) :
    Calls w room (.procedure ref) args frame s v u := by
  refine calls_of_run fits held (evaluated.mono fun fuel evaluated again => ?_)
  simp only [Call.runWith, Call.closure, bind_assoc]
  exact (Run.bind_of_ok bound).trans (evaluated c.name)

theorem calls_clause (fits : Fits (k + 2) room) {ref : Nat} {clauses : List Closure}
    {name doc : Option String} (held : s.procedures[ref]? = some (.cases clauses name doc))
    {args : List Value} {c : Closure}
    (selected : clauses.find? (·.signature.accepts args.length) = some c) {inner : FrameId}
    {v : Value} {u : Store} (bound : c.signature.bind args c.frame s = .ok inner t)
    (evaluated : Evaluates w room c.body inner t v u) :
    Calls w room (.procedure ref) args frame s v u := by
  refine calls_of_run fits held (evaluated.mono fun fuel evaluated again => ?_)
  have chosen : Call.selectClause clauses name args.length s = .ok c s := by
    unfold Call.selectClause
    rw [selected]
    rfl
  simp only [Call.runWith, Call.closure, bind_assoc]
  refine (Run.bind_of_ok chosen).trans ?_
  exact (Run.bind_of_ok bound).trans (evaluated c.name)

/-- A primitive may look at the surroundings and at the room that is left. -/
theorem calls_primitive_of_room (fits : Fits (k + 2) room) {ref : Nat} {p : Primitive}
    (held : s.procedures[ref]? = some (.primitive p)) {args : List Value} {v : Value}
    (ran : ∀ m again, m.world = w → m.room = lower 1 room →
      p.run m again frame args s = .ok (.value v) t) :
    Calls w room (.procedure ref) args frame s v t := by
  refine calls_of_run fits held (.always fun fuel again => ?_)
  have caught : Call.catchArithmetic p.name
      (p.run (.evaluating w fuel (lower 1 room)) again frame args) s = .ok (.value v) t := by
    rw [Call.catchArithmetic, ran _ _ rfl rfl]
  simp only [Call.runWith, bind_assoc]
  exact Run.bind_of_ok caught

theorem calls_primitive (fits : Fits (k + 2) room) {ref : Nat} {p : Primitive}
    (held : s.procedures[ref]? = some (.primitive p)) {args : List Value} {v : Value}
    (ran : ∀ m again, p.run m again frame args s = .ok (.value v) t) :
    Calls w room (.procedure ref) args frame s v t :=
  calls_primitive_of_room fits held fun m again _ _ => ran m again

end Rules

namespace Primitive

variable (m : Engine) (call : Caller) (frame : FrameId) (s : Store)

theorem run_isCons (v : Value) :
    isCons.run m call frame [v] s = .ok (.value (.ofBool v.isPair)) s := rfl

theorem run_car (mark : Nat) (a d : Value) :
    car.run m call frame [.pair mark a d] s = .ok (.value a) s := rfl

theorem run_cdr (mark : Nat) (a d : Value) :
    cdr.run m call frame [.pair mark a d] s = .ok (.value d) s := rfl

theorem run_cons (a d : Value) :
    cons.run m call frame [a, d] s =
      .ok (.value (.pair s.nextMark a d)) { s with nextMark := s.nextMark + 1 } := rfl

theorem run_add (a b : Int) :
    add.run m call frame [.atom (.int a), .atom (.int b)] s =
      .ok (.value (.atom (.int (a + b)))) s := by
  change EStateM.Result.ok (Step.value (.atom (.int (0 + a + b)))) s = _
  rw [Int.zero_add]

theorem run_sub (a b : Int) :
    sub.run m call frame [.atom (.int a), .atom (.int b)] s =
      .ok (.value (.atom (.int (a - b)))) s := rfl

theorem run_numEq (a b : Int) :
    numEq.run m call frame [.atom (.int a), .atom (.int b)] s =
      .ok (.value (.ofBool (decide (a = b)))) s := by
  have holds : (Ord.compare a b == .eq && true) = decide (a = b) := by
    rw [Bool.eq_iff_iff]
    simp
  rw [← holds]
  rfl

theorem run_lt (a b : Int) :
    lt.run m call frame [.atom (.int a), .atom (.int b)] s =
      .ok (.value (.ofBool (decide (a < b)))) s := by
  have holds : (Ord.compare a b == .lt && true) = decide (a < b) := by
    rw [Bool.eq_iff_iff]
    simp [Int.compare_eq_lt]
  rw [← holds]
  rfl

end Primitive

section Yields

variable {k : Nat} {w : World} {room : Option Nat} {frame : FrameId} {s : Store}
  {Q : Value → Store → Prop}

/-- Every expression that the code spells has a value of which `Q` holds. -/
def Yields (w : World) (room : Option Nat) (code : Datum) (frame : FrameId) (s : Store)
    (Q : Value → Store → Prop) : Prop :=
  ∀ expr, code.Spells expr → ∃ v t, Evaluates w room expr frame s v t ∧ Q v t

def YieldsAll (w : World) (room : Option Nat) :
    List Datum → FrameId → Store → (List Value → Store → Prop) → Prop
  | [], _, s, Q => Q [] s
  | code :: codes, frame, s, Q =>
    Yields w room code frame s fun v t =>
      YieldsAll w room codes frame t fun vs u => Q (v :: vs) u

/-- A call returns a value of which `Q` holds. -/
def YieldsCall (w : World) (room : Option Nat) (f : Value) (args : List Value) (frame : FrameId)
    (s : Store) (Q : Value → Store → Prop) : Prop :=
  ∃ v t, Calls w room f args frame s v t ∧ Q v t

theorem Yields.mono {code : Datum} {P : Value → Store → Prop}
    (yields : Yields w room code frame s P) (implies : ∀ v t, P v t → Q v t) :
    Yields w room code frame s Q := by
  intro expr spelled
  obtain ⟨v, t, evaluated, holds⟩ := yields expr spelled
  exact ⟨v, t, evaluated, implies v t holds⟩

theorem YieldsCall.mono {f : Value} {args : List Value} {P : Value → Store → Prop}
    (yields : YieldsCall w room f args frame s P) (implies : ∀ v t, P v t → Q v t) :
    YieldsCall w room f args frame s Q := by
  obtain ⟨v, t, called, holds⟩ := yields
  exact ⟨v, t, called, implies v t holds⟩

theorem YieldsAll.evaluates {codes : List Datum} {P : List Value → Store → Prop}
    (yields : YieldsAll w room codes frame s P) {args : List Value}
    (spelled : Datum.SpellsAll codes args) :
    ∃ vs t, EvaluatesAll w room args frame s vs t ∧ P vs t := by
  induction codes generalizing s P args with
  | nil =>
    obtain rfl := spelled
    exact ⟨[], s, .nil, yields⟩
  | cons code codes ih =>
    obtain ⟨arg, args, rfl, first, others⟩ := spelled
    obtain ⟨v, t, evaluated, rest⟩ := yields arg first
    obtain ⟨vs, u, evaluatedAll, holds⟩ := ih rest others
    exact ⟨v :: vs, u, .cons evaluated evaluatedAll, holds⟩

theorem Yields.symbol (fits : Fits (k + 1) room) {name : String} {owner : FrameId} {v : Value}
    (found : Frame.find? s.frames name frame = some (owner, v)) (holds : Q v s) :
    Yields w room (.symbol name) frame s Q := by
  intro expr spelled
  obtain rfl := Datum.spells_atom spelled
  refine ⟨v, s, ?_, holds⟩
  exact .succ (.always fun fuel called => evaluate_symbol w fuel fits.descend found called)

theorem Yields.int (fits : Fits (k + 1) room) {n : Int} (holds : Q (.atom (.int n)) s) :
    Yields w room (.atom (.int n)) frame s Q := by
  intro expr spelled
  obtain rfl := Datum.spells_atom spelled
  exact ⟨_, s, evaluates_of_finish fits (.always fun fuel => rfl), holds⟩

theorem step_of_spine {x : String} {form : SpecialForm}
    (special : SpecialForm.ofName? x = some form) {expr : Value} {args : List Value}
    (spine : Spine expr (.symbol x :: args) .nil) (m : Engine) (frame : FrameId) (tail : Bool)
    (s : Store) : step m expr frame tail s = form.run m args frame tail s := by
  cases spine with
  | cons spine =>
    rw [step_pair]
    simp only [Value.symbol?, Option.bind_some, special]
    exact Run.bind_of_ok (items_of_spine _ _ _ spine s)

theorem step_special {x : String} {form : SpecialForm} (special : SpecialForm.ofName? x = some form)
    {codes : List Datum} {expr : Value} (spelled : (Datum.list (.symbol x :: codes)).Spells expr) :
    ∃ args, Datum.SpellsAll codes args ∧
      ∀ m frame tail s, step m expr frame tail s = form.run m args frame tail s := by
  obtain ⟨_, spine, head, args, rfl, named, all⟩ := Datum.spells_list spelled
  obtain rfl := Datum.spells_atom named
  exact ⟨args, all, step_of_spine special spine⟩

theorem Yields.quote (fits : Fits (k + 1) room) {a : Atom} (holds : Q (.atom a) s) :
    Yields w room (.list [.symbol "quote", .atom a]) frame s Q := by
  intro expr spelled
  obtain ⟨_, ⟨datum, _, rfl, quoted, rfl⟩, stepped⟩ := step_special rfl spelled
  obtain rfl := Datum.spells_atom quoted
  exact ⟨_, s, evaluates_of_value fits (.always fun fuel => stepped _ frame true s), holds⟩

theorem Yields.cond (fits : Fits (k + 1) room) {test yes no : Datum}
    (yields : Yields w (lower 1 room) test frame s fun v t =>
      if v.isTruthy then Yields w room yes frame t Q else Yields w room no frame t Q) :
    Yields w room (.list [.symbol "if", test, yes, no]) frame s Q := by
  intro expr spelled
  obtain ⟨_, ⟨testForm, _, rfl, first, yesForm, _, rfl, second, noForm, _, rfl, third, rfl⟩,
    stepped⟩ := step_special rfl spelled
  obtain ⟨v, t, tested, branch⟩ := yields testForm first
  by_cases truthy : v.isTruthy
  · rw [if_pos truthy] at branch
    obtain ⟨result, u, evaluated, holds⟩ := branch yesForm second
    refine ⟨result, u, evaluates_of_tail fits none (tested.mono ?_) evaluated, holds⟩
    intro fuel tested
    refine (stepped _ frame true s).trans ((Run.bind_of_ok (tested none)).trans ?_)
    rw [if_pos truthy]
    rfl
  · rw [if_neg truthy] at branch
    obtain ⟨result, u, evaluated, holds⟩ := branch noForm third
    refine ⟨result, u, evaluates_of_tail fits none (tested.mono ?_) evaluated, holds⟩
    intro fuel tested
    refine (stepped _ frame true s).trans ((Run.bind_of_ok (tested none)).trans ?_)
    rw [if_neg truthy]
    rfl

/-- The closure has the parameter list, the body that the code spells, and the frame. -/
structure Closure.Matches (c : Closure) (signature : Signature) (body : Datum) (frame : FrameId) :
    Prop where
  signature : c.signature = signature
  body : body.Spells c.body
  frame : c.frame = frame

theorem makeClosure_matches (frame : FrameId) (name : Option String) {sig : Signature}
    {body : Datum} {params expr : Value} {forms : List Value} {doc : Option String}
    (parameters : sig.datum.Spells params) (split : splitDoc forms = (doc, [expr]))
    (spelled : body.Spells expr) :
    ∃ c : Closure, c.Matches sig body frame ∧
      ∀ m s, SpecialForm.makeClosure m frame name params forms s = .ok c s := by
  refine ⟨⟨sig, expr, frame, name, doc⟩, ⟨rfl, spelled, rfl⟩, fun m s => ?_⟩
  rw [SpecialForm.makeClosure, split]
  exact Run.bind_of_ok (signature_of_spells m parameters s)

theorem splitDoc_singleton (expr : Value) : splitDoc [expr] = (none, [expr]) := by
  unfold splitDoc
  split
  · next same => cases same
  · rfl

theorem Yields.lambda (fits : Fits (k + 1) room) {sig : Signature} {body : Datum}
    (holds : ∀ c ref t, c.Matches sig body frame → Allocates s t →
      t.procedures[ref]? = some (.closure c) → Q (.procedure ref) t) :
    Yields w room (.list [.symbol "lambda", sig.datum, body]) frame s Q := by
  intro expr spelled
  obtain ⟨_, ⟨params, _, rfl, parameters, form, _, rfl, spelled, rfl⟩, stepped⟩ :=
    step_special rfl spelled
  obtain ⟨c, isMatch, made⟩ :=
    makeClosure_matches frame none parameters (splitDoc_singleton form) spelled
  refine ⟨_, _, evaluates_of_value fits (.always fun fuel => ?_),
    holds c s.procedures.size _ isMatch (.pushClosure s c) (s.getElem?_pushProcedure _)⟩
  refine (stepped _ frame true s).trans (Run.map_of_ok ?_)
  exact Run.bind_of_ok (made _ s)

def bindingList (bindings : List (String × Datum)) : Datum :=
  .list (bindings.map fun b => .list [.symbol b.1, b.2])

theorem runBinding_of_spine (m : Engine) {name : String} {expr binding : Value}
    (spine : Spine binding [.symbol name, expr] .nil) :
    SpecialForm.runBinding m frame binding =
      m.eval expr frame none >>= fun v => pure (name, v) := by
  have isPair : binding.isPair = true := by
    cases spine
    rfl
  funext s
  unfold SpecialForm.runBinding
  rw [if_pos isPair]
  exact Run.bind_of_ok (items_of_spine _ _ _ spine s)

theorem mapM_runBinding (frame : FrameId) {bindings : List (String × Datum)} {bound : List Value}
    (spelled : Datum.SpellsAll (bindings.map fun b => .list [.symbol b.1, b.2]) bound) :
    ∃ exprs, Datum.SpellsAll (bindings.map (·.2)) exprs ∧ ∀ (m : Engine) s vs t,
      exprs.mapM (m.eval · frame none) s = .ok vs t →
      bound.mapM (SpecialForm.runBinding m frame) s = .ok ((bindings.map (·.1)).zip vs) t := by
  induction bindings generalizing bound with
  | nil =>
    obtain rfl := spelled
    refine ⟨[], rfl, ?_⟩
    rintro m s vs t ⟨⟩
    rfl
  | cons b bindings ih =>
    obtain ⟨binding, bound, rfl, first, others⟩ := spelled
    obtain ⟨_, spine, symbol, _, rfl, named, expr, _, rfl, coded, rfl⟩ := Datum.spells_list first
    obtain rfl := Datum.spells_atom named
    obtain ⟨exprs, all, ran⟩ := ih others
    refine ⟨expr :: exprs, ⟨expr, exprs, rfl, coded, all⟩, fun m s vs t evaluated => ?_⟩
    rw [List.mapM_cons] at evaluated
    obtain ⟨v, u, headEvaluated, rest⟩ := Run.of_bind_ok evaluated
    obtain ⟨vs, u', restEvaluated, same⟩ := Run.of_bind_ok rest
    cases same
    have ranFirst : SpecialForm.runBinding m frame binding s = .ok (b.1, v) u := by
      rw [runBinding_of_spine m spine]
      exact Run.bind_of_ok headEvaluated
    rw [List.mapM_cons]
    exact (Run.bind_of_ok ranFirst).trans (Run.bind_of_ok (ran m u vs _ restEvaluated))

theorem step_let (w : World) (room : Option Nat) (frame : FrameId) (s : Store)
    (bindings : List (String × Datum)) (distinct : (bindings.map (·.1)).Nodup)
    {body : List Datum} {expr : Value}
    (spelled : (Datum.list (.symbol "let" :: bindingList bindings :: body)).Spells expr) :
    ∃ exprs forms, Datum.SpellsAll (bindings.map (·.2)) exprs ∧ Datum.SpellsAll body forms ∧
      ∀ fuel vs t, exprs.mapM (evaluate w fuel (lower 1 room) · frame none) s = .ok vs t →
      step (.evaluating w fuel (lower 1 room)) expr frame true s =
        (bodyExpr forms >>= fun form => pure (.tail form t.frames.size none))
          (t.pushFrame ⟨some frame, (bindings.map (·.1)).zip vs⟩) := by
  obtain ⟨_, ⟨list, forms, rfl, listed, all⟩, stepped⟩ := step_special rfl spelled
  obtain ⟨bound, spine, bound'⟩ := Datum.spells_list listed
  obtain ⟨exprs, coded, ran⟩ := mapM_runBinding frame bound'
  refine ⟨exprs, forms, coded, all, fun fuel vs t evaluated => ?_⟩
  have opened : Run.newFrame frame t = .ok t.frames.size (t.pushFrame ⟨some frame, []⟩) := rfl
  let pairs := (bindings.map (·.1)).zip vs
  have zipped : (([] ++ pairs).map Prod.fst).Nodup := by
    rw [List.nil_append, show pairs = _ from List.zip_eq_zip_take_min,
      List.map_fst_zip (by simp)]
    exact distinct.sublist (List.take_sublist _ _)
  refine (stepped _ frame true s).trans ?_
  refine (Run.bind_of_ok (items_of_spine _ _ _ spine s)).trans ?_
  refine (Run.bind_of_ok (ran _ s vs t evaluated)).trans ((Run.bind_of_ok opened).trans ?_)
  exact Run.bind_of_ok (forIn_define [] pairs zipped t)

theorem step_binding {name : String} {code : Datum} {body : List Datum} {expr : Value}
    (spelled : (Datum.list (.symbol "let" :: .list [.list [.symbol name, code]] :: body)).Spells
      expr) :
    ∃ value forms, code.Spells value ∧ Datum.SpellsAll body forms ∧ ∀ fuel v t,
      evaluate w fuel (lower 1 room) value frame none s = .ok v t →
      step (.evaluating w fuel (lower 1 room)) expr frame true s =
        (bodyExpr forms >>= fun form => pure (.tail form t.frames.size none))
          (t.pushFrame ⟨some frame, [(name, v)]⟩) := by
  obtain ⟨_, forms, ⟨value, _, rfl, valued, rfl⟩, all, stepped⟩ :=
    step_let w room frame s [(name, code)] (by simp) spelled
  refine ⟨value, forms, valued, all, fun fuel v t evaluated => stepped fuel [v] t ?_⟩
  rw [List.mapM_cons, List.mapM_nil]
  exact Run.bind_of_ok evaluated

theorem Yields.bindings (fits : Fits (k + 1) room) (bindings : List (String × Datum))
    (distinct : (bindings.map (·.1)).Nodup) {body : Datum}
    (yields : YieldsAll w (lower 1 room) (bindings.map (·.2)) frame s fun vs t =>
      frame < t.frames.size ∧
        ∀ i u, Enters t frame ((bindings.map (·.1)).zip vs) i u → Yields w room body i u Q) :
    Yields w room (.list [.symbol "let", bindingList bindings, body]) frame s Q := by
  intro expr spelled
  obtain ⟨exprs, _, coded, ⟨form, _, rfl, spelled, rfl⟩, stepped⟩ :=
    step_let w room frame s bindings distinct spelled
  obtain ⟨vs, t, evaluated, inside, yields⟩ := yields.evaluates coded
  obtain ⟨result, u, evaluatedBody, holds⟩ := yields _ _ (.pushFrame t inside _) form spelled
  refine ⟨result, u, evaluates_of_tail fits none (evaluated.mono ?_) evaluatedBody, holds⟩
  exact fun fuel evaluated => stepped fuel vs t evaluated

theorem Yields.binding (fits : Fits (k + 1) room) {name : String} {code body : Datum}
    (yields : Yields w (lower 1 room) code frame s fun v t => frame < t.frames.size ∧
      ∀ i u, Enters t frame [(name, v)] i u → Yields w room body i u Q) :
    Yields w room (.list [.symbol "let", .list [.list [.symbol name, code]], body]) frame s Q :=
  Yields.bindings fits [(name, code)] (by simp) yields

/-- A form whose head is the name of a procedure. -/
theorem Yields.call (fits : Fits (k + 2) room) {name : String}
    (plain : SpecialForm.ofName? name = none)
    {owner : FrameId} {f : Value} (found : Frame.find? s.frames name frame = some (owner, f))
    (callable : s.CanCall f) {codes : List Datum}
    (yields : YieldsAll w (lower 1 room) codes frame s fun vs t =>
      YieldsCall w room f vs frame t Q) :
    Yields w room (.list (.symbol name :: codes)) frame s Q := by
  intro expr spelled
  obtain ⟨mark, head, rest, args, rfl, named, spine, all⟩ := Datum.spells_form spelled
  obtain rfl := Datum.spells_atom named
  obtain ⟨vs, t, evaluated, v, u, called, holds⟩ := yields.evaluates all
  exact ⟨v, u, evaluates_call fits spine plain found callable evaluated called, holds⟩

theorem YieldsCall.closure (fits : Fits (k + 2) room) {ref : Nat} {c : Closure}
    (held : s.procedures[ref]? = some (.closure c)) {names : List String} {body : Datum}
    {outer : FrameId} (isMatch : c.Matches ⟨names, none⟩ body outer) (inside : outer < s.frames.size)
    (distinct : names.Nodup) {args : List Value} (count : names.length = args.length)
    (yields : ∀ i t, Enters s outer (names.zip args) i t → Yields w room body i t Q) :
    YieldsCall w room (.procedure ref) args frame s Q := by
  obtain ⟨v, t, evaluated, holds⟩ := yields _ _ (.pushFrame s inside _) c.body isMatch.body
  refine ⟨v, t, calls_closure fits held ?_ evaluated, holds⟩
  rw [isMatch.signature, isMatch.frame]
  exact bind_names count distinct outer s

theorem YieldsCall.clause (fits : Fits (k + 2) room) {ref : Nat} {clauses : List Closure}
    {name doc : Option String} (held : s.procedures[ref]? = some (.cases clauses name doc))
    {args : List Value} {c : Closure}
    (selected : clauses.find? (·.signature.accepts args.length) = some c) {names : List String}
    {body : Datum} {outer : FrameId} (isMatch : c.Matches ⟨names, none⟩ body outer)
    (inside : outer < s.frames.size) (distinct : names.Nodup) (count : names.length = args.length)
    (yields : ∀ i t, Enters s outer (names.zip args) i t → Yields w room body i t Q) :
    YieldsCall w room (.procedure ref) args frame s Q := by
  obtain ⟨v, t, evaluated, holds⟩ := yields _ _ (.pushFrame s inside _) c.body isMatch.body
  refine ⟨v, t, calls_clause fits held selected ?_ evaluated, holds⟩
  rw [isMatch.signature, isMatch.frame]
  exact bind_names count distinct outer s

/-- A closure that takes all arguments in one list. -/
theorem YieldsCall.variadic (fits : Fits (k + 2) room) {ref : Nat} {c : Closure}
    (held : s.procedures[ref]? = some (.closure c)) {rest : String} {body : Datum}
    {outer : FrameId} (isMatch : c.Matches ⟨[], some rest⟩ body outer)
    (inside : outer < s.frames.size) {args : List Value}
    (yields : ∀ list i t, Spine list args .nil → Enters s outer [(rest, list)] i t →
      Yields w room body i t Q) :
    YieldsCall w room (.procedure ref) args frame s Q := by
  obtain ⟨list, t, spine, entered, bound⟩ := bind_variadic [] rest [] args rfl (by simp) inside
  obtain ⟨v, u, evaluated, holds⟩ := yields list _ t spine entered c.body isMatch.body
  refine ⟨v, u, calls_closure fits held ?_ evaluated, holds⟩
  rw [isMatch.signature, isMatch.frame]
  exact bound

theorem YieldsCall.primitive (fits : Fits (k + 2) room) {ref : Nat} {p : Primitive}
    (held : s.procedures[ref]? = some (.primitive p)) {args : List Value} {v : Value} {t : Store}
    (ran : ∀ m again, p.run m again frame args s = .ok (.value v) t) (holds : Q v t) :
    YieldsCall w room (.procedure ref) args frame s Q :=
  ⟨v, t, calls_primitive fits held ran, holds⟩

end Yields

namespace Hidden

variable {h : Hidden} {s t : Store}

theorem engines_evaluating (h : Hidden) (w : World) (fuel : Nat) (room : Option Nat) :
    h.Engines (.evaluating w fuel room) (.evaluating w fuel room) := by
  have evals {c expr frame} (known : h.Admits expr c) (shown : h.AdmitsFrame frame c)
      (name : Option String) : h.Safe c (h.Evaluated c expr)
        (evaluate w fuel room expr frame name) (evaluate w fuel room expr frame name) := by
    intro s later
    exact ⟨rfl, (Safe.evaluate h.lenient_id w fuel room known shown name s later).2⟩
  exact ⟨rfl, rfl, rfl, evals, .forceWith evals⟩

theorem Lawful.call (lawful : h.Lawful s) {w : World} {room : Option Nat} {f v : Value}
    {args : List Value} {frame : FrameId} (fKnown : h.Admits f s) (known : h.AdmitsAll args s)
    (inside : frame < s.frames.size) (called : Calls w room f args frame s v t) :
    h.Later s t ∧ h.Admits v t := by
  obtain ⟨fuel, called⟩ := called
  have ended := called fuel (Nat.le_refl fuel)
  have engines := h.engines_evaluating w fuel (lower 1 room)
  have safe : h.Safe s h.Admits
      (Call.apply (.evaluating w fuel (lower 1 room)) true f args frame >>= finish w fuel room)
      (Call.apply (.evaluating w fuel (lower 1 room)) true f args frame >>= finish w fuel room) := by
    refine (Safe.apply engines true fKnown known inside).bind ?_
    intro step u later stepKnown
    cases step with
    | value v => exact .value stepKnown
    | tail expr frame name => exact .evaluateOnly w fuel room stepKnown.1 stepKnown.2 name
  have fine := (safe s lawful.refl).2
  rw [ended] at fine
  exact fine

end Hidden

end LazyLisp
