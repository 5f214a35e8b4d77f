import LazyLisp.Proofs.ListLoops

/-!
Code that does one thing after the other, catches its errors, reads and writes.

Here the store matters as it is: the rules say what becomes of it, down to the frame that a binding
opens and the text that has been written.
-/

namespace LazyLisp

def Store.emit (s : Store) (text : String) : Store := { s with out := s.out ++ text }

def Store.keep (s : Store) (f : Fault) : Store := { s with errors := s.errors.push f }

theorem Scope.emit {s : Store} {i : FrameId} {bindings : List (String × Value)}
    (scope : Scope s i bindings) (text : String) : Scope (s.emit text) i bindings := by
  induction scope with
  | global => exact .global
  | inside found less _ ih => exact .inside found less ih

/-- How an evaluation ends, given enough fuel. -/
def EndsIn (w : World) (room : Option Nat) (expr : Value) (frame : FrameId) (s : Store)
    (outcome : EStateM.Result Interrupt Store Value) : Prop :=
  Eventually fun fuel => evaluate w fuel room expr frame none s = outcome

/-- What is caught of an evaluation: its value, or its fault as an error. -/
inductive Caught (w : World) (room : Option Nat) (expr : Value) (frame : FrameId) (s : Store) :
    Value → Store → Prop where
  | value {v t} : EndsIn w room expr frame s (.ok v t) → Caught w room expr frame s v t
  | fault {f t} : EndsIn w room expr frame s (.error (.fault f) t) →
      Caught w room expr frame s (.error t.errors.size) (t.keep f)

theorem EndsIn.unique {w : World} {room : Option Nat} {expr : Value} {frame : FrameId} {s : Store}
    {x y : EStateM.Result Interrupt Store Value} (first : EndsIn w room expr frame s x)
    (second : EndsIn w room expr frame s y) : x = y := by
  obtain ⟨fuel, both⟩ := first.both second
  obtain ⟨one, other⟩ := both fuel (Nat.le_refl fuel)
  exact one.symm.trans other

theorem Caught.unique {w : World} {room : Option Nat} {expr r r' : Value} {frame : FrameId}
    {s t t' : Store} (first : Caught w room expr frame s r t)
    (second : Caught w room expr frame s r' t') : r' = r ∧ t' = t := by
  cases first with
  | value ended | fault ended =>
    cases second with
    | value other | fault other => cases ended.unique other <;> exact ⟨rfl, rfl⟩

def YieldsLast (w : World) (room : Option Nat) :
    List Datum → FrameId → Store → (Value → Store → Prop) → Prop
  | [], _, s, Q => Q .nil s
  | [code], frame, s, Q => Yields w room code frame s Q
  | code :: codes, frame, s, Q =>
    Yields w (lower 1 room) code frame s fun _ t => YieldsLast w room codes frame t Q

section Forms

variable {k : Nat} {w : World} {room : Option Nat} {frame : FrameId} {s : Store}
  {Q : Value → Store → Prop}

theorem Yields.string (fits : Fits (k + 1) room) {text : String}
    (holds : Q (.atom (.string text)) s) : Yields w room (.atom (.string text)) frame s Q := by
  intro expr spelled
  obtain rfl := Datum.spells_atom spelled
  exact ⟨_, s, evaluates_of_finish fits (.always fun fuel => rfl), holds⟩

theorem Yields.catchError (fits : Fits (k + 1) room) {code : Datum}
    (yields : ∀ expr, code.Spells expr →
      ∃ r t, Caught w (lower 1 room) expr frame s r t ∧ Q r t) :
    Yields w room (.list [.symbol "catch-error", code]) frame s Q := by
  intro expr spelled
  obtain ⟨_, ⟨form, _, rfl, spelled, rfl⟩, stepped⟩ := step_special rfl spelled
  obtain ⟨r, t, caught, holds⟩ := yields form spelled
  refine ⟨r, t, evaluates_of_value fits ?_, holds⟩
  cases caught with
  | value ended | fault ended =>
    refine ended.mono fun fuel ended => (stepped _ frame true s).trans (Run.map_of_ok ?_)
    have body : (bodyExpr [form] >>= fun form =>
        (Engine.evaluating w fuel (lower 1 room)).eval form frame none) s = _ := ended
    rw [SpecialForm.runCatchError_eq_either, Run.either, body]
    rfl

theorem Yields.sequence (fits : Fits (k + 1) room) {codes : List Datum}
    (yields : YieldsLast w room codes frame s Q) :
    Yields w room (.list (.symbol "begin" :: codes)) frame s Q := by
  intro expr spelled
  obtain ⟨args, all, stepped⟩ := step_special rfl spelled
  have ran (codes : List Datum) : ∀ args s, YieldsLast w room codes frame s Q →
      Datum.SpellsAll codes args → ∃ v t, (Eventually fun fuel =>
        (SpecialForm.runSequence (.evaluating w fuel (lower 1 room)) true frame args >>=
          finish w fuel room) s = .ok v t) ∧ Q v t := by
    induction codes with
    | nil =>
      rintro _ s yields rfl
      exact ⟨.nil, s, .always fun _ => rfl, yields⟩
    | cons code codes ih =>
      rintro _ s yields ⟨arg, args, rfl, first, others⟩
      cases codes with
      | nil =>
        obtain rfl := others
        obtain ⟨v, t, evaluated, holds⟩ := yields arg first
        exact ⟨v, t, evaluated.mono fun fuel evaluated => evaluated none, holds⟩
      | cons next codes =>
        obtain ⟨_, t, evaluated, rest⟩ := yields arg first
        obtain ⟨v, u, done, holds⟩ := ih args t rest others
        refine ⟨v, u, (evaluated.both done).mono ?_, holds⟩
        rintro fuel ⟨evaluated, done⟩
        obtain ⟨nextArg, args, rfl, -⟩ := others
        simp only [SpecialForm.runSequence, bind_assoc]
        exact (Run.bind_of_ok (evaluated none)).trans done
  obtain ⟨v, t, done, holds⟩ := ran codes args s yields all
  refine ⟨v, t, evaluates_of_finish fits (done.mono fun fuel done => ?_), holds⟩
  rw [← done]
  change EStateM.bind _ _ s = EStateM.bind _ _ s
  rw [EStateM.bind, EStateM.bind, stepped]
  rfl

theorem Yields.conj (fits : Fits (k + 1) room) {first second : Datum}
    (yields : Yields w (lower 1 room) first frame s fun v t =>
      if v.isTruthy then Yields w room second frame t Q else Q v t) :
    Yields w room (.list [.symbol "and", first, second]) frame s Q := by
  intro expr spelled
  obtain ⟨_, ⟨firstForm, _, rfl, spelled, secondForm, _, rfl, other, rfl⟩, stepped⟩ :=
    step_special rfl spelled
  obtain ⟨v, t, evaluated, rest⟩ := yields firstForm spelled
  by_cases truthy : v.isTruthy
  · rw [if_pos truthy] at rest
    obtain ⟨result, u, evaluatedRest, holds⟩ := rest secondForm other
    refine ⟨result, u, evaluates_of_tail fits none (evaluated.mono ?_) evaluatedRest, holds⟩
    intro fuel evaluated
    refine (stepped _ frame true s).trans ((Run.bind_of_ok (evaluated none)).trans ?_)
    rw [if_neg (by simp [truthy])]
    rfl
  · rw [if_neg truthy] at rest
    refine ⟨v, t, evaluates_of_value fits (evaluated.mono ?_), rest⟩
    intro fuel evaluated
    refine (stepped _ frame true s).trans ((Run.bind_of_ok (evaluated none)).trans ?_)
    rw [if_pos (by simp [truthy])]
    rfl

/-- `let` with one binding and one form: the frame is the youngest one. -/
theorem Yields.bindingTo (fits : Fits (k + 1) room) {name : String} {code body : Datum}
    (yields : Yields w (lower 1 room) code frame s fun v t =>
      Yields w room body t.frames.size (t.pushFrame ⟨some frame, [(name, v)]⟩) Q) :
    Yields w room (.list [.symbol "let", .list [.list [.symbol name, code]], body]) frame s Q := by
  intro expr spelled
  obtain ⟨value, _, valued, ⟨form, _, rfl, spelled, rfl⟩, stepped⟩ := step_binding spelled
  obtain ⟨v, t, evaluated, yields⟩ := yields value valued
  obtain ⟨result, u, evaluatedBody, holds⟩ := yields form spelled
  refine ⟨result, u, evaluates_of_tail fits none (evaluated.mono ?_) evaluatedBody, holds⟩
  exact fun fuel evaluated => stepped fuel v t (evaluated none)

/-- `let` with one binding and two forms, of which a new list is made. -/
theorem Yields.bindingBoth (fits : Fits (k + 1) room) {name : String} {code first second : Datum}
    (yields : Yields w (lower 1 room) code frame s fun v t =>
      YieldsLast w room [first, second] t.frames.size
        { t.pushFrame ⟨some frame, [(name, v)]⟩ with nextMark := t.nextMark + 3 } Q) :
    Yields w room (.list [.symbol "let", .list [.list [.symbol name, code]], first, second]) frame
      s Q := by
  intro expr spelled
  obtain ⟨value, forms, valued, all, stepped⟩ := step_binding spelled
  obtain ⟨v, t, evaluated, yields⟩ := yields value valued
  obtain ⟨list, spine, made⟩ := list_spine (.symbol "begin" :: forms)
    (t.pushFrame ⟨some frame, [(name, v)]⟩)
  have parts : Datum.SpellsAll [.symbol "begin", first, second] (.symbol "begin" :: forms) :=
    ⟨_, forms, rfl, .atom, all⟩
  have spelled : (Datum.list [.symbol "begin", first, second]).Spells list :=
    Datum.spells_of_spine spine parts .atom
  obtain ⟨firstForm, _, rfl, -, secondForm, _, rfl, -, rfl⟩ := all
  obtain ⟨result, u, evaluatedBody, holds⟩ := Yields.sequence fits yields list spelled
  refine ⟨result, u, evaluates_of_tail fits none (evaluated.mono ?_) evaluatedBody, holds⟩
  intro fuel evaluated
  exact (stepped fuel v t (evaluated none)).trans (Run.bind_of_ok made)

/-- A call of a closure: its body is evaluated in the youngest frame. -/
theorem YieldsCall.closureTo (fits : Fits (k + 2) room) {ref : Nat} {c : Closure}
    (held : s.procedures[ref]? = some (.closure c)) {names : List String} {body : Datum}
    {outer : FrameId} (isMatch : c.Matches ⟨names, none⟩ body outer) (distinct : names.Nodup)
    {args : List Value} (count : names.length = args.length)
    (yields : Yields w room body s.frames.size (s.pushFrame ⟨some outer, names.zip args⟩) Q) :
    YieldsCall w room (.procedure ref) args frame s Q := by
  obtain ⟨v, t, evaluated, holds⟩ := yields c.body isMatch.body
  refine ⟨v, t, calls_closure fits held ?_ evaluated, holds⟩
  rw [isMatch.signature, isMatch.frame]
  exact bind_names count distinct outer s

end Forms

namespace Hidden

variable {h : Hidden} {s t : Store}

theorem admits_of_spells {d : Datum} {v : Value} (spelled : d.Spells v) : h.Admits v s := by
  induction spelled with
  | atom => trivial
  | pair _ _ first rest => exact ⟨first, rest⟩

theorem Lawful.emit (lawful : h.Lawful s) (text : String) : h.Later s (s.emit text) :=
  lawful.quiet rfl rfl rfl rfl

theorem Lawful.caught (lawful : h.Lawful s) {w : World} {room : Option Nat} {expr r : Value}
    {frame : FrameId} (known : h.Admits expr s) (shown : h.AdmitsFrame frame s)
    (caught : Caught w room expr frame s r t) : h.Later s t := by
  have later {outcome : EStateM.Result Interrupt Store Value}
      (ended : EndsIn w room expr frame s outcome) : h.Fine s h.Admits outcome := by
    obtain ⟨fuel, ended⟩ := ended
    rw [← ended fuel (Nat.le_refl fuel)]
    exact (Safe.evaluateOnly w fuel room known shown none s lawful.refl).2
  cases caught with
  | value ended => exact (later ended).1
  | fault ended =>
    obtain ⟨reached, faultKnown⟩ := later ended
    exact reached.trans (reached.lawful.pushError faultKnown)

end Hidden

theorem Store.exists_of_readable {s : Store} {room : Option Nat} {ref : Nat} {text : String}
    (written : s.readable room (.error ref) = .ok text) : ∃ f, s.errors[ref]? = some f := by
  cases held : s.errors[ref]? with
  | some f => exact ⟨f, rfl⟩
  | none =>
    rw [Store.readable, Store.write, Store.enoughHops, Store.writeWithin, Store.writeWith,
      held] at written
    cases deeper : descend room <;> rw [deeper] at written <;> cases written

theorem Store.globalFrame_lt_of_global? {s : Store} {name : String} {v : Value}
    (bound : s.global? name = some v) : globalFrame < s.frames.size := by
  obtain ⟨f, found, -⟩ := Option.bind_eq_some_iff.mp bound
  exact Hidden.old_of_getElem? found

def Store.Names (s : Store) (p : Primitive) : Prop :=
  ∃ ref, s.global? p.name = some (.procedure ref) ∧ s.procedures[ref]? = some (.primitive p)

theorem Store.Names.kept {s t : Store} {p : Primitive} (named : s.Names p)
    (same : t.global? p.name = s.global? p.name) (retains : s.Retains t) : t.Names p := by
  obtain ⟨ref, bound, held⟩ := named
  exact ⟨ref, same.trans bound, retains ref _ held⟩

theorem Primitive.ofName?_name (p : Primitive) : SpecialForm.ofName? p.name = none := by
  cases p <;> rfl

section Primitives

variable {k : Nat} {w : World} {room : Option Nat} {frame : FrameId} {s : Store}
  {Q : Value → Store → Prop} {bindings : List (String × Value)} {p : Primitive}

theorem Yields.callNamed (scope : Scope s frame bindings) (named : s.Names p)
    (fits : Fits (k + 2) room) (free : bindings.lookup p.name = none) {codes : List Datum}
    (yields : ∀ ref, s.procedures[ref]? = some (.primitive p) →
      YieldsAll w (lower 1 room) codes frame s fun vs t =>
        YieldsCall w room (.procedure ref) vs frame t Q) :
    Yields w room (.list (.symbol p.name :: codes)) frame s Q := by
  obtain ⟨ref, bound, held⟩ := named
  obtain ⟨owner, found⟩ := scope.find?_of_free _ free bound
  exact .call fits p.ofName?_name found ⟨ref, _, rfl, held, rfl⟩ (yields ref held)

/-- The values of the arguments leave the store as it is. -/
theorem Yields.named (scope : Scope s frame bindings) (named : s.Names p)
    (fits : Fits (k + 2) room) (free : bindings.lookup p.name = none) {codes : List Datum}
    (yields : YieldsAll w (lower 1 room) codes frame s fun vs t => t = s ∧
      ∃ v u, (∀ m again, m.world = w → m.room = lower 1 room →
        p.run m again frame vs s = .ok (.value v) u) ∧ Q v u) :
    Yields w room (.list (.symbol p.name :: codes)) frame s Q := by
  refine .callNamed scope named fits free fun ref held => yields.mono ?_
  rintro vs t ⟨rfl, v, u, ran, holds⟩
  exact ⟨v, u, calls_primitive_of_room fits held ran, holds⟩

theorem step_named (scope : Scope s frame bindings) (named : s.Names p) (fits : Fits (k + 2) room)
    (free : bindings.lookup p.name = none) {codes : List Datum} {expr : Value}
    (spelled : (Datum.list (.symbol p.name :: codes)).Spells expr) {vs : List Value}
    (yields : YieldsAll w (lower 1 room) codes frame s fun us t => us = vs ∧ t = s) :
    Eventually fun fuel => ∃ again,
      step (.evaluating w fuel (lower 1 room)) expr frame true s =
        Call.runWith (.evaluating w fuel (lower 1 room)) again true vs frame (.primitive p) s := by
  obtain ⟨ref, bound, held⟩ := named
  obtain ⟨owner, found⟩ := scope.find?_of_free _ free bound
  obtain ⟨mark, head, rest, args, rfl, headed, spine, all⟩ := Datum.spells_form spelled
  obtain rfl := Datum.spells_atom headed
  obtain ⟨_, t, evaluated, rfl, same⟩ := yields.evaluates all
  rw [same] at evaluated
  have callable : s.CanCall (.procedure ref) := ⟨ref, _, rfl, held, rfl⟩
  refine (step_call fits mark spine p.ofName?_name found callable evaluated).mono ?_
  intro fuel stepped
  rw [apply_eq (.evaluating w fuel (lower 1 room)) fits.lower.descend, Call.applyWith] at stepped
  exact ⟨_, stepped.trans (Run.bind_of_ok (procedure_of_held held))⟩

end Primitives

section Reading

variable {k : Nat} {w : World} {room : Option Nat} {frame : FrameId} {s t : Store}
  {bindings : List (String × Value)} (scope : Scope s frame bindings) (named : s.Names .read)
  (fits : Fits (k + 2) room) (free : bindings.lookup "read" = none) {input : Nat}
  (bound : s.global? standardInput = some (.input input))
  (unbound : bindings.lookup standardInput = none) {expr : Value}
  (spelled : (Datum.list [.symbol "read"]).Spells expr)

include scope named fits free bound unbound spelled

theorem step_read (w : World) : Eventually fun fuel => ∃ again,
    step (.evaluating w fuel (lower 1 room)) expr frame true s =
      Call.runWith (.evaluating w fuel (lower 1 room)) again true [] frame (.primitive .read) s ∧
    ∀ call, Primitive.read.run (.evaluating w fuel (lower 1 room)) call frame [] s =
      (Step.value <$> Run.readInput (lower 1 room) input) s := by
  refine Eventually.mono (step_named (w := w) scope named fits free spelled ⟨rfl, rfl⟩) ?_
  rintro fuel ⟨again, stepped⟩
  obtain ⟨owner, found⟩ := scope.find?_of_free _ unbound bound
  refine ⟨again, stepped, fun call => ?_⟩
  have opened : Primitive.readForm (.evaluating w fuel (lower 1 room)) frame [] s =
      Run.readInput (lower 1 room) input s := by
    exact Run.bind_of_ok (lookup_of_find? found)
  change EStateM.map _ _ s = EStateM.map _ _ s
  rw [EStateM.map, EStateM.map, opened]

theorem endsIn_read (w : World) {v : Value} (read : Run.readInput (lower 1 room) input s = .ok v t) :
    EndsIn w room expr frame s (.ok v t) := by
  refine .succ ((step_read scope named fits free bound unbound spelled w).mono ?_)
  rintro fuel ⟨again, stepped, ran⟩
  refine evaluate_of_value fits.descend (stepped.trans ?_)
  have caught : Call.catchArithmetic "read" (Primitive.read.run (.evaluating w fuel (lower 1 room))
      again frame []) s = .ok (.value v) t := by
    rw [Call.catchArithmetic, ran, Run.map_of_ok read]
  exact Run.bind_of_ok caught

theorem endsIn_read_fault (w : World) {f : Fault}
    (read : Run.readInput (lower 1 room) input s = .error (.fault f) t) :
    EndsIn w room expr frame s (.error (.fault (f.leave expr none w.traceLimit)) t) := by
  refine .succ ((step_read scope named fits free bound unbound spelled w).mono ?_)
  rintro fuel ⟨again, stepped, ran⟩
  have caught : Call.catchArithmetic "read" (Primitive.read.run (.evaluating w fuel (lower 1 room))
      again frame []) s = .error (.fault f) t := by
    rw [Call.catchArithmetic, ran, map_eq_pure_bind, Run.bind_of_error read]
  exact evaluate_of_error fits.descend (stepped.trans (Run.bind_of_error caught))

end Reading

section Evaluating

variable {k : Nat} {w : World} {room : Option Nat} {frame : FrameId} {s t : Store}

theorem EndsIn.of_tail (fits : Fits (k + 1) room) {expr next : Value} {inner : FrameId}
    {outcome : EStateM.Result Interrupt Store Value}
    (goesOn : Eventually fun fuel =>
      step (.evaluating w fuel (lower 1 room)) expr frame true s = .ok (.tail next inner none) t)
    (ended : EndsIn w room next inner t outcome) : EndsIn w room expr frame s outcome := by
  refine .succ ((goesOn.both ended).mono ?_)
  rintro fuel ⟨goesOn, ended⟩
  exact (evaluate_of_tail fits.descend goesOn).trans ended

/-- What is caught of a call of `eval` is what is caught of the form at top level. -/
theorem Caught.eval {bindings : List (String × Value)} (scope : Scope s frame bindings)
    {h : Hidden} (lawful : h.Lawful s) (inside : frame < s.frames.size) (named : s.Names .eval)
    (fits : Fits (k + 2) room) (free : bindings.lookup "eval" = none) {name : String}
    {form : Value} (bound : bindings.lookup name = some form) {expr : Value}
    (spelled : (Datum.list [.symbol "eval", .symbol name]).Spells expr) {r : Value}
    (caught : Caught w room form Store.globalFrame s r t) : Caught w room expr frame s r t := by
  have argument : YieldsAll w (lower 1 room) [.symbol name] frame s fun vs t =>
      vs = [form] ∧ t = s := Yields.variable scope fits.lower bound ⟨rfl, rfl⟩
  have top : Frame.topLevel s.frames frame = Store.globalFrame := lawful.topLevel inside
  have goesOn : Eventually fun fuel => step (.evaluating w fuel (lower 1 room)) expr frame true s =
      .ok (.tail form Store.globalFrame none) s := by
    refine (step_named scope named fits free spelled argument).mono ?_
    rintro fuel ⟨again, stepped⟩
    rw [← top]
    exact stepped
  cases caught with
  | value ended => exact .value (ended.of_tail fits goesOn)
  | fault ended => exact .fault (ended.of_tail fits goesOn)

end Evaluating

/-- Plain characters can be written. -/
def World.WritesPlain (w : World) : Prop := ∀ c : Char, c.toNat < 0x80 → w.encodes c = true

theorem World.takes_append (w : World) (first second : String) :
    w.takes (first ++ second) = (w.takes first && w.takes second) := by
  simp [takes]

theorem World.WritesPlain.takes {w : World} (plain : w.WritesPlain) {text : String}
    (ascii : text.toList.all (·.toNat < 0x80) = true) : w.takes text = true :=
  List.all_eq_true.mpr fun c member => plain c (by simpa using List.all_eq_true.mp ascii c member)

theorem Run.write_eq {w : World} {text : String} (taken : w.takes text = true) (s : Store) :
    Run.write w text s = .ok () (s.emit text) := by
  rw [Run.write, if_pos taken]
  rfl

theorem Run.writeLine_eq {w : World} {text : String} (plain : w.WritesPlain)
    (taken : w.takes text = true) (s : Store) :
    Run.writeLine w text s = .ok () (s.emit (text ++ "\n")) := by
  refine (Run.bind_of_ok (write_eq taken s)).trans ((write_eq (plain.takes rfl) _).trans ?_)
  rw [Store.emit, Store.emit, Store.emit, String.append_assoc]

namespace Primitive

variable (m : Engine) (call : Caller) (frame : FrameId) (s : Store)

theorem texts_strings (texts : List String) :
    Primitive.texts m (texts.map fun text => .atom (.string text)) s =
      .ok (String.join texts) s := by
  have written : (texts.map fun text => Value.atom (.string text)).mapM m.plain s =
      .ok texts s := by
    induction texts with
    | nil => rfl
    | cons text texts ih =>
      have first : m.plain (.atom (.string text)) s = .ok text s := rfl
      rw [List.map_cons, List.mapM_cons]
      exact (Run.bind_of_ok first).trans (Run.bind_of_ok ih)
  exact Run.bind_of_ok written

theorem run_print (texts : List String) (taken : m.world.takes (String.join texts) = true) :
    print.run m call frame (texts.map fun text => .atom (.string text)) s =
      .ok (.value .nil) (s.emit (String.join texts)) := by
  refine Run.map_of_ok ((Run.bind_of_ok (texts_strings m s texts)).trans ?_)
  exact Run.bind_of_ok (Run.write_eq taken s)

theorem run_printLine (plain : m.world.WritesPlain) (texts : List String)
    (taken : m.world.takes (String.join texts) = true) :
    printLine.run m call frame (texts.map fun text => .atom (.string text)) s =
      .ok (.value .nil) (s.emit (String.join texts ++ "\n")) := by
  refine Run.map_of_ok ((Run.bind_of_ok (texts_strings m s texts)).trans ?_)
  exact Run.bind_of_ok (Run.writeLine_eq plain taken s)

theorem run_isError (v : Value) :
    isError.run m call frame [v] s = .ok (.value (.ofBool (isErrorValue v))) s := rfl

theorem run_isNull (v : Value) :
    isNull.run m call frame [v] s = .ok (.value (.ofBool v.isNil)) s := rfl

theorem run_not (v : Value) :
    not.run m call frame [v] s = .ok (.value (.ofBool !v.isTruthy)) s := rfl

theorem run_same (v w : Value) :
    same.run m call frame [v, w] s = .ok (.value (.ofBool (v.isSame w))) s := rfl

theorem run_repr {v : Value} {text : String} (written : s.readable m.room v = .ok text) :
    repr.run m call frame [v] s = .ok (.value (.atom (.string text))) s := by
  have read : m.readable v s = .ok text s := by
    change Run.ofWritten (s.readable m.room v) s = _
    rw [written]
    rfl
  exact Run.map_of_ok (Run.bind_of_ok read)

variable {ref : Nat} {f : Fault} (held : s.errors[ref]? = some f)

include held

theorem errorOf_held (name : String) : errorOf m name [.error ref] s = .ok f s := by
  change (Run.held s.errors[ref]? : Run Fault) s = _
  rw [held]
  rfl

theorem run_errorType :
    errorType.run m call frame [.error ref] s = .ok (.value (.symbol f.kind)) s :=
  Run.map_of_ok (Run.bind_of_ok (errorOf_held m s held _))

theorem run_errorValue :
    errorValue.run m call frame [.error ref] s = .ok (.value (f.value.getD .nil)) s :=
  Run.map_of_ok (Run.bind_of_ok (errorOf_held m s held _))

theorem run_errorSource :
    errorSource.run m call frame [.error ref] s = .ok (.value (f.source.getD .nil)) s :=
  Run.map_of_ok (Run.bind_of_ok (errorOf_held m s held _))

theorem run_dumpTraceback (plain : m.world.WritesPlain) {report : String}
    (written : s.report m.room f = .ok report) (taken : m.world.takes report = true) :
    dumpTraceback.run m call frame [.error ref] s =
      .ok (.value .nil) (s.emit (report ++ "\n")) := by
  have read : Run.ofWritten (s.report m.room f) s = .ok report s := by
    rw [written]
    rfl
  refine Run.map_of_ok ((Run.bind_of_ok (errorOf_held m s held _)).trans ?_)
  refine (Run.bind_of_ok read).trans ?_
  exact Run.bind_of_ok (Run.writeLine_eq plain taken s)

end Primitive

end LazyLisp
