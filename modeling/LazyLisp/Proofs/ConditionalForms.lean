import LazyLisp.Proofs.FormMeanings

/-!
The conditional forms of the prelude mean what they say.

Evaluating such a form first expands it, which only allocates, takes symbols and writes to the log;
from then on it comes to the ending that its meaning gives. Names that the frame of the form rebinds
make no difference: nothing that an expansion puts into the form is looked up there but
`throw-error`.
-/

namespace LazyLisp

section Assertions

variable {k : Nat} {w : World} {room : Option Nat} {frame : FrameId} {v e : Value} {s : Store}

theorem evaluates_quote (fits : Fits (k + 1) room) (spine : Spine v [.symbol "quote", e] .nil) :
    Evaluates w room v frame s e s :=
  evaluates_of_value fits (.always fun _ => step_of_spine rfl spine _ frame true s)

theorem run_raiseError (m : Engine) (inside : m.room = room) (again : Primitive.Caller)
    (kind : String) : Primitive.raiseError.run m again frame [.symbol kind, v] s =
      (Run.ofWritten (s.summary room kind (some v)) >>= fun summary =>
        throw (.fault { kind, value := some v, summary })) s := by
  subst inside
  have raised : Primitive.raise m [.symbol kind, v] s =
      (m.fault kind (some v) >>= fun f => throw (.fault f)) s := rfl
  have worded : m.fault kind (some v) s =
      (Run.ofWritten (s.summary m.room kind (some v)) >>= fun summary =>
        pure { kind, value := some v, summary }) s := rfl
  cases written : (Run.ofWritten (s.summary m.room kind (some v)) : Run String) s with
  | ok text t =>
    rw [Run.bind_of_ok written] at worded ⊢
    exact Run.map_of_error (raised.trans (Run.bind_of_ok worded))
  | error e t =>
    rw [Run.bind_of_error written] at worded ⊢
    exact Run.map_of_error (raised.trans (Run.bind_of_error worded))

theorem run_raising {α : Type} (e : Value) (written : Store.Written) (s : Store) :
    (Run.ofWritten written >>= fun summary => throw (.fault (assertionFault e summary)) : Run α) s =
      .error (raising e written) s := by
  cases written with
  | ok text => rfl
  | error failure =>
    cases failure with
    | _ => rfl

theorem raising_ne_arithmetic (e : Value) (written : Store.Written) (a : ArithmeticError) :
    raising e written ≠ .breakdown (.arithmetic a) := by
  cases written with
  | ok text => exact nofun
  | error failure =>
    cases failure with
    | _ => exact nofun

theorem runWith_of_error {m : Engine} {again : Primitive.Caller} {p : Primitive} {args : List Value}
    {failure : Interrupt} {t : Store} (ran : p.run m again frame args s = .error failure t)
    (plain : ∀ a, failure ≠ .breakdown (.arithmetic a)) :
    Call.runWith m again true args frame (.primitive p) s = .error failure t := by
  have caught : Call.catchArithmetic p.name (p.run m again frame args) s = .error failure t := by
    rw [Call.catchArithmetic, ran]
    split
    · next same =>
      cases same
      exact absurd rfl (plain _)
    · rfl
  exact Run.bind_of_error caught

def intoBinding (frame : FrameId) (name : String) (body x : Value) : Run Step := fun u =>
  .ok (.tail body u.frames.size none) (u.pushFrame ⟨some frame, [(name, x)]⟩)

theorem find?_named (s : Store) (frame : FrameId) (name : String) (x : Value) :
    Frame.find? (s.pushFrame ⟨some frame, [(name, x)]⟩).frames name s.frames.size =
      some (s.frames.size, x) := by
  rw [Frame.find?, Store.getElem?_pushFrame]
  simp [Frame.get?]

variable (fits : Fits (k + 2) room)

include fits

theorem step_thrower (isThrower : IsThrower e v) {owner : FrameId} {ref : Nat}
    (found : Frame.find? s.frames "throw-error" frame = some (owner, .procedure ref))
    (held : s.procedures[ref]? = some (.primitive .raiseError)) (w : World) :
    Eventually fun fuel => step (.evaluating w fuel (lower 1 room)) v frame true s =
      .error (raising e (s.summary (lower 1 room) "assertion-error" (some e))) s := by
  cases isThrower with
  | @intro kind quoted spine kindSpine quotedSpine =>
  cases spine with
  | @cons mark _ _ _ _ spine =>
    have evaluated : EvaluatesAll w (lower 1 room) [kind, quoted] frame s
        [.symbol "assertion-error", e] s :=
      .cons (evaluates_quote fits.lower kindSpine)
        (.cons (evaluates_quote fits.lower quotedSpine) .nil)
    have callable : s.CanCall (.procedure ref) := ⟨ref, _, rfl, held, rfl⟩
    refine (step_call fits mark spine rfl found callable evaluated).mono fun fuel stepped => ?_
    rw [stepped, apply_eq (.evaluating w fuel (lower 1 room)) fits.lower.descend, Call.applyWith]
    refine (Run.bind_of_ok (procedure_of_held held)).trans ?_
    have inside : (Engine.evaluating w fuel (lower 1 room)).room = lower 1 room := rfl
    refine runWith_of_error ((run_raiseError _ inside _ _).trans ?_) (raising_ne_arithmetic _ _)
    exact run_raising e _ s

variable {name : String}

section Body

variable {x thrower : Value} (isThrower : IsThrower e thrower)
  (spine : Spine v [.symbol "if", .symbol name, .symbol name, thrower] .nil)

include spine

/-- The body of an assertion looks up the value that has been named, and goes on with it or with the
call. -/
theorem behaves_assertionBody {ending : Ending} {t : Store}
    (behaves : Behaves w room (if x.isTruthy then .symbol name else thrower) s.frames.size none
      (s.pushFrame ⟨some frame, [(name, x)]⟩) ending t) :
    Behaves w room v s.frames.size none (s.pushFrame ⟨some frame, [(name, x)]⟩) ending t := by
  have here := find?_named s frame name x
  have tested : Ends w (lower 1 room) (.symbol name) s.frames.size
      (s.pushFrame ⟨some frame, [(name, x)]⟩) (.ok x (s.pushFrame ⟨some frame, [(name, x)]⟩)) :=
    ⟨finished_ok _ _, 1, evaluate_symbol w 0 fits.lower.descend here none⟩
  exact behaves_if fits spine (.goesOn tested behaves)

end Body

variable (isAssertion : IsAssertion name e v)

include isAssertion

omit fits in
/-- The expression is evaluated first, and its value is named in a new frame. -/
theorem step_assertion : ∃ body thrower,
    Spine body [.symbol "if", .symbol name, .symbol name, thrower] .nil ∧ IsThrower e thrower ∧
    ∀ (m : Engine) frame s, step m v frame true s =
      (m.eval e frame none >>= intoBinding frame name body) s := by
  cases isAssertion with
  | @intro bindings binding body thrower spine bindingsSpine bindingSpine bodySpine isThrower =>
    refine ⟨body, thrower, bodySpine, isThrower, fun m frame s => ?_⟩
    refine (step_of_spine rfl spine m frame true s).trans ?_
    refine (Run.bind_of_ok (items_of_spine _ _ _ bindingsSpine s)).trans ?_
    rw [List.mapM_cons, List.mapM_nil, runBinding_of_spine m bindingSpine]
    simp only [bind_assoc, pure_bind]
    cases evaluated : m.eval e frame none s with
    | error failure u => rw [Run.bind_of_error evaluated, Run.bind_of_error evaluated]
    | ok x u =>
      rw [Run.bind_of_ok evaluated, Run.bind_of_ok evaluated]
      have opened : Run.newFrame frame u = .ok u.frames.size (u.pushFrame ⟨some frame, []⟩) := rfl
      refine (Run.bind_of_ok opened).trans ?_
      exact Run.bind_of_ok (forIn_define [] [(name, x)] (by simp) u)

theorem behaves_assertion (other : name ≠ "throw-error") {ending : Ending} {t : Store}
    (comes : AssertComes w room frame name e s ending t) :
    Behaves w room v frame none s ending t := by
  obtain ⟨body, thrower, spine, isThrower, stepped⟩ := step_assertion isAssertion
  cases comes with
  | fails ended =>
    apply behaves_of_step fits
    exact ended.endsIn.mono fun fuel ended => (stepped _ frame s).trans (Run.bind_of_error ended)
  | @goesOn x u _ _ ended rest =>
    obtain ⟨rfl, rest⟩ := rest
    have opened : Behaves w room v frame none s (.tail body u.frames.size)
        (u.pushFrame ⟨some frame, [(name, x)]⟩) := by
      apply behaves_of_step fits
      exact ended.endsIn.mono fun fuel ended => (stepped _ frame s).trans (Run.bind_of_ok ended)
    refine Continues.behaves opened (behaves_assertionBody fits spine ?_)
    by_cases truthy : x.isTruthy
    · rw [if_pos truthy] at rest ⊢
      subst rest
      apply behaves_of_step fits
      exact .always fun _ => Run.map_of_ok (lookup_of_find? (find?_named u frame name x))
    · rw [if_neg truthy] at rest ⊢
      obtain ⟨owner, ref, found, held, rfl⟩ := rest
      have free : [(name, x)].lookup "throw-error" = none := by
        rw [List.lookup_cons, beq_false_of_ne (Ne.symm other)]
        rfl
      have around := Store.find?_pushFrame free found
      exact behaves_of_step fits (step_thrower fits isThrower around held w)

theorem ends_of_halts_assertion (halts : Halts w room v frame none s) :
    ∃ r, Ends w (lower 1 room) e frame s r := by
  obtain ⟨_, _, -, -, stepped⟩ := step_assertion isAssertion
  obtain ⟨fuel, finished⟩ := halts.step fits
  rw [stepped] at finished
  rcases ends_of_bind finished with ⟨failure, t, ended⟩ | ⟨x, t, ended, -⟩
  · exact ⟨_, ended⟩
  · exact ⟨_, ended⟩

end Assertions

/-- A form means that its evaluation, once the form has been expanded, comes to the endings that are
given, and that it has no end where none is given. -/
def Means (w : World) (room : Option Nat) (form : Value) (frame : FrameId) (s : Store)
    (comes : Store → Ending → Store → Prop) : Prop :=
  ∃ u, s.Expanded u ∧ ∀ name,
    (∀ ending t, comes u ending t → Behaves w room form frame name s ending t) ∧
    (Halts w room form frame name s → ∃ ending t, comes u ending t)

/-- An assertion means that its expression is evaluated and then decides; it has no end where the
expression has none. -/
def MeansAssertion (w : World) (room : Option Nat) (form expr : Value) (frame : FrameId)
    (s : Store) : Prop :=
  ∃ u symbol, s.Expanded u ∧ ∀ name,
    (∀ ending t, AssertComes w room frame symbol expr u ending t →
      Behaves w room form frame name s ending t) ∧
    (Halts w room form frame name s → ∃ r, Ends w (lower 1 room) expr frame u r)

theorem means_of_continues {w : World} {room : Option Nat} {form next : Value} {frame : FrameId}
    {s u : Store} {comes : Store → Ending → Store → Prop} (expanded : s.Expanded u)
    (continues : ∀ name, Continues w room form frame name s next frame u)
    (behaves : ∀ ending t, comes u ending t → Behaves w room next frame none u ending t)
    (ends : Halts w room next frame none u → ∃ ending t, comes u ending t) :
    Means w room form frame s comes := by
  refine ⟨u, expanded, fun name => ⟨?_, ?_⟩⟩
  · intro ending t ended
    exact (continues name).behaves (behaves ending t ended)
  · intro halts
    exact ends ((continues name).halts halts)

theorem ne_throwError (n : Nat) : "value" ++ toString n ≠ "throw-error" := by
  intro same
  have firsts := congrArg (fun text => text.toList.head?) same
  simp [String.toList_append] at firsts

section Forms

variable {w : World} {room : Option Nat} {frame : FrameId} {s : Store} (loaded : s.LoadedForms)

include loaded

theorem means_cond (sees : s.SeesExpander frame FormLibrary.condForm)
    {clauses : List (Value × List Value)} (fits : Fits (clauses.length + 8) room) {rest : Value}
    {forms : List Value} (spine : Spine rest forms .nil)
    (parsed : List.Forall₂ IsClause forms clauses) (mark : Nat) :
    Means w room (.pair mark (.symbol "cond") rest) frame s (CondComes w room frame clauses) := by
  obtain ⟨v, u, expanded, nests, continues⟩ :=
    expands_cond loaded sees fits spine parsed w mark
  apply means_of_continues expanded continues
  · exact fun ending t comes => behaves_nests fits nests comes
  · exact fun halts => comes_of_halts_nests fits nests halts

theorem means_test {on : Bool} {p : LibraryExpander}
    (signature : p.signature = ⟨["test"], some "body"⟩)
    (code : p.body = .list [.symbol "quasiquote", FormLibrary.testTemplate on])
    (plain : SpecialForm.ofName? p.name = none) (sees : s.SeesExpander frame p)
    (fits : Fits 6 room) {rest test : Value} {body : List Value}
    (spine : Spine rest (test :: body) .nil) (mark : Nat) :
    Means w room (.pair mark (.symbol p.name) rest) frame s
      (TestComes w room frame on test body) := by
  obtain ⟨v, u, yes, no, expanded, filled, isYes, isNo, continues⟩ :=
    expands_test (k := 0) signature code plain loaded sees fits spine w mark
  have chosen (c : Value) :
      IsBranch (c.isTruthy == on) body (if c.isTruthy then yes else no) := by
    cases truth : c.isTruthy with
    | true => simpa using isYes
    | false => simpa using isNo
  apply means_of_continues expanded continues
  · intro ending t comes
    refine behaves_if fits filled (comes.mono fun c z ending t comes => ?_)
    exact behaves_branch fits (chosen c) comes
  · intro halts
    refine precedes_of_halts fits filled halts fun c z halts => ?_
    exact comes_of_halts_branch fits (chosen c) halts

theorem means_assert (sees : s.SeesExpander frame FormLibrary.assertForm) (fits : Fits 10 room)
    {rest expr : Value} (spine : Spine rest [expr] .nil) (mark : Nat) :
    MeansAssertion w room (.pair mark (.symbol "assert") rest) expr frame s := by
  obtain ⟨v, u, expanded, isAssertion, continues⟩ :=
    expands_assert (k := 0) loaded sees fits spine w mark
  refine ⟨u, "value" ++ toString s.nextSymbol, expanded, fun name => ⟨?_, ?_⟩⟩
  · intro ending t comes
    apply (continues name).behaves
    exact behaves_assertion fits isAssertion (ne_throwError _) comes
  · intro halts
    exact ends_of_halts_assertion fits isAssertion ((continues name).halts halts)

end Forms

/-- The conditional forms of the prelude mean what they say, in any frame that sees them and
whatever else it binds. -/
theorem conditional_forms_mean {w : World} {room : Option Nat} {frame : FrameId} {s : Store}
    (loaded : s.LoadedForms) :
    (∀ mark rest forms clauses, s.SeesExpander frame FormLibrary.condForm →
      Spine rest forms .nil → List.Forall₂ IsClause forms clauses →
      Fits (clauses.length + 8) room →
      Means w room (.pair mark (.symbol "cond") rest) frame s (CondComes w room frame clauses)) ∧
    (∀ mark rest test body, s.SeesExpander frame FormLibrary.whenForm →
      Spine rest (test :: body) .nil → Fits 6 room →
      Means w room (.pair mark (.symbol "when") rest) frame s
        (TestComes w room frame true test body)) ∧
    (∀ mark rest test body, s.SeesExpander frame FormLibrary.unlessForm →
      Spine rest (test :: body) .nil → Fits 6 room →
      Means w room (.pair mark (.symbol "unless") rest) frame s
        (TestComes w room frame false test body)) ∧
    (∀ mark rest expr, s.SeesExpander frame FormLibrary.assertForm → Spine rest [expr] .nil →
      Fits 10 room → MeansAssertion w room (.pair mark (.symbol "assert") rest) expr frame s) := by
  refine ⟨?_, ?_, ?_, ?_⟩
  · intro mark rest forms clauses sees spine parsed fits
    exact means_cond loaded sees fits spine parsed mark
  · intro mark rest test body sees spine fits
    exact means_test loaded rfl rfl rfl sees fits spine mark
  · intro mark rest test body sees spine fits
    exact means_test loaded rfl rfl rfl sees fits spine mark
  · intro mark rest expr sees spine fits
    exact means_assert loaded sees fits spine mark

/-- The store of a session that has evaluated the definitions of the forms and of what they use. -/
def formStore : Store :=
  FormLibrary.expanders.foldl defineExpander (FormLibrary.procedures.foldl defineGlobally bareStore)

theorem FormLibrary.isProper : ∀ p ∈ procedures, p.shape.isProper = true := by
  decide

theorem loadedForms_formStore : formStore.LoadedForms ∧
    (∀ p ∈ FormLibrary.expanders, ∃ ref, formStore.global? p.name = some (.procedure ref) ∧
      formStore.HasExpander p ref) ∧ formStore.Names .raiseError := by
  have present : Store.globalFrame < bareStore.frames.size := by decide +kernel
  have gains := (loads_foldl FormLibrary.isProper present).gains (fits_none 2) present
    FormLibrary.isProper (by decide)
  obtain ⟨defined, others, retains⟩ := gains
  obtain ⟨ref, bound, -⟩ := defined FormLibrary.bodyToExpr (by simp [FormLibrary.procedures])
  have present := Store.globalFrame_lt_of_global? bound
  obtain ⟨expanders, others', retains'⟩ :=
    foldl_defineExpander FormLibrary.expanders (by decide) present
  have named (p : Primitive) (binds : bareStore.bindsPrimitive p = true)
      (absent : p.name ∉ FormLibrary.procedures.map (·.name))
      (absent' : p.name ∉ FormLibrary.expanders.map (·.name)) : formStore.Names p := by
    have first : bareStore.Names p := Store.of_bindsPrimitive binds
    exact (first.kept (others p.name absent) retains).kept (others' p.name absent') retains'
  refine ⟨⟨?_, ?_⟩, expanders, ?_⟩
  · intro p member
    have binds : Store.Binds _ p := defined p member
    have absent : ∀ p ∈ FormLibrary.procedures, p.name ∉ FormLibrary.expanders.map (·.name) := by
      decide
    exact binds.kept (others' p.name (absent p member)) retains'
  · intro p member
    have bound : ∀ p ∈ FormLibrary.primitives, bareStore.bindsPrimitive p = true := by
      decide +kernel
    have absent : ∀ p ∈ FormLibrary.primitives, p.name ∉ FormLibrary.procedures.map (·.name) ∧
        p.name ∉ FormLibrary.expanders.map (·.name) := by
      decide
    exact named p (bound p member) (absent p member).1 (absent p member).2
  · exact named .raiseError (by decide +kernel) (by decide) (by decide)

def shadowing : Frame :=
  ⟨some Store.globalFrame, [("if", .nil), ("begin", .nil), ("let", .nil), ("quote", .nil)]⟩

def shadowedStore : Store := formStore.pushFrame shadowing

def shadowedFrame : FrameId := formStore.frames.size

theorem enters_shadowedStore :
    Enters formStore Store.globalFrame shadowing.bindings shadowedFrame shadowedStore :=
  .pushFrame formStore loadedForms_formStore.1.globalFrame_lt _

theorem loadedForms_shadowedStore : shadowedStore.LoadedForms :=
  loadedForms_formStore.1.allocates enters_shadowedStore.allocates

theorem shadowedStore_sees :
    ∀ p ∈ FormLibrary.expanders, shadowedStore.SeesExpander shadowedFrame p := by
  intro p member
  obtain ⟨ref, bound, has⟩ := loadedForms_formStore.2.1 p member
  have free : ∀ p ∈ FormLibrary.expanders, shadowing.bindings.lookup p.name = none := by decide
  obtain ⟨owner, found⟩ := Scope.find?_of_free .global p.name rfl bound
  exact ⟨owner, ref, Store.find?_pushFrame (free p member) found,
    has.kept enters_shadowedStore.allocates.procedures⟩

def eagerList (mark : Nat) (items : List Value) : Value :=
  (Value.consReversed mark .nil items.reverse).1

theorem spine_eagerList (mark : Nat) (items : List Value) :
    Spine (eagerList mark items) items .nil := by
  have spine := spine_consReversed mark .nil items.reverse
  rwa [List.reverse_reverse] at spine

/-- `(cond (() 1) (else 2 3))`, `(when 1 2)`, `(unless 1 2)` and `(assert ())` where `if`, `begin`,
`let` and `quote` are bound. -/
theorem conditional_forms_mean_shadowed :
    let one := Value.atom (.int 1)
    let two := Value.atom (.int 2)
    let three := Value.atom (.int 3)
    let clauses := eagerList 0 [eagerList 2 [.nil, one], eagerList 4 [.symbol "else", two, three]]
    let comes (form : Value) (ending : Ending) (u t : Store) := shadowedStore.Expanded u ∧
      Behaves bareWorld none form shadowedFrame none shadowedStore ending t
    shadowedStore.LoadedForms ∧
    (∀ p ∈ FormLibrary.expanders, shadowedStore.SeesExpander shadowedFrame p) ∧
    (∃ u, comes (.pair 7 (.symbol "cond") clauses) (.tail three shadowedFrame) u u) ∧
    (∃ u, comes (.pair 2 (.symbol "when") (eagerList 0 [one, two])) (.tail two shadowedFrame) u u) ∧
    (∃ u, comes (.pair 2 (.symbol "unless") (eagerList 0 [one, two])) (.value .nil) u u) ∧
    ∃ u t, comes (.pair 1 (.symbol "assert") (eagerList 0 [.nil]))
      (.failure (.fault (assertionFault .nil "assertion-error: ()"))) u t := by
  intro one two three clauses comes
  have literal (a : Atom) (plain : ∀ name, a ≠ .symbol name) (u : Store) :
      Ends bareWorld (lower 1 none) (.atom a) shadowedFrame u (.ok (.atom a) u) := by
    refine ⟨finished_ok _ _, 1, ?_⟩
    cases a with
    | symbol name => exact absurd rfl (plain name)
    | _ => rfl
  have sees := shadowedStore_sees
  obtain ⟨cond, whens, unlesses, asserts⟩ :=
    @conditional_forms_mean bareWorld none shadowedFrame shadowedStore loadedForms_shadowedStore
  refine ⟨loadedForms_shadowedStore, sees, ?_, ?_, ?_, ?_⟩
  · obtain ⟨u, expanded, means⟩ := cond 7 clauses _ [(.nil, [one]), (.symbol "else", [two, three])]
      (sees _ (by simp [FormLibrary.expanders])) (spine_eagerList 0 _)
      (.cons (spine_eagerList 2 _) (.cons (spine_eagerList 4 _) .nil)) (fits_none _)
    refine ⟨u, expanded, (means none).1 _ u (.goesOn (literal .nil (fun _ => nofun) u) ?_)⟩
    exact .goesOn (literal (.int 2) (fun _ => nofun) u) ⟨rfl, rfl⟩
  · obtain ⟨u, expanded, means⟩ := whens 2 _ one [two] (sees _ (by simp [FormLibrary.expanders]))
      (spine_eagerList 0 _) (fits_none _)
    refine ⟨u, expanded, (means none).1 _ u (.goesOn (literal (.int 1) (fun _ => nofun) u) ?_)⟩
    exact ⟨rfl, rfl⟩
  · obtain ⟨u, expanded, means⟩ := unlesses 2 _ one [two] (sees _ (by simp [FormLibrary.expanders]))
      (spine_eagerList 0 _) (fits_none _)
    refine ⟨u, expanded, (means none).1 _ u (.goesOn (literal (.int 1) (fun _ => nofun) u) ?_)⟩
    exact ⟨rfl, rfl⟩
  · obtain ⟨u, symbol, expanded, means⟩ := asserts 1 _ .nil
      (sees _ (by simp [FormLibrary.expanders])) (spine_eagerList 0 _) (fits_none _)
    obtain ⟨ref, bound, held⟩ := loadedForms_formStore.2.2
    obtain ⟨owner, found⟩ := Scope.find?_of_free .global "throw-error" rfl bound
    have inside : Frame.find? shadowedStore.frames "throw-error" shadowedFrame =
        some (owner, .procedure ref) := Store.find?_pushFrame rfl found
    have entered := enters_shadowedStore.allocates.procedures ref _ held
    have held := expanded.allocates.procedures ref _ entered
    have still := Frame.find?_of_kept expanded.allocates.frames inside
    have comes : AssertComes bareWorld none shadowedFrame symbol .nil u
        (.failure (.fault (assertionFault .nil "assertion-error: ()")))
        (u.pushFrame ⟨some shadowedFrame, [(symbol, .nil)]⟩) := by
      refine .goesOn (literal .nil (fun _ => nofun) u) ⟨rfl, ?_⟩
      exact ⟨owner, ref, still, held, by with_unfolding_all rfl⟩
    exact ⟨u, _, expanded, (means none).1 _ _ comes⟩

def wordless : Value :=
  .pair 2 (.symbol "begin")
    (.pair 1 (.atom (.int Template.longNumber)) (.pair 0 (.atom (.int 0)) .nil))

theorem summary_wordless (t : Store) (kind : String) :
    t.summary none kind (some wordless) = .error .tooManyDigits := by
  have unwritten : Store.writeAtom true (.int Template.longNumber) = .error .tooManyDigits := by
    rw [Store.writeAtom, Atom.hasText, Template.hasText_longNumber]
    rfl
  have read : t.readable none wordless = .error .tooManyDigits := by
    rw [Store.readable, Store.write, Store.enoughHops, Store.writeWithin, wordless]
    simp only [ExceptT.stM_eq, Option.getD_none, Nat.zero_add, Nat.one_mul, Store.writeWith,
      descend, Store.abbreviation?, unwritten, Except.map_error, bind_map_left]
    rfl
  change (_ <$> t.readable none wordless) = _
  rw [read]
  rfl

/-- An assertion whose expression has no text raises no fault when it fails. -/
theorem assert_wordless :
    formStore.LoadedForms ∧ formStore.SeesExpander Store.globalFrame FormLibrary.assertForm ∧
    formStore.Names .raiseError ∧
    (∀ u, Ends bareWorld none wordless Store.globalFrame u (.ok (.atom (.int 0)) u)) ∧
    ∃ t, Ends bareWorld none (.pair 4 (.symbol "assert") (eagerList 3 [wordless]))
      Store.globalFrame formStore (.error (.breakdown .tooManyDigits) t) := by
  obtain ⟨loaded, bound, thrower⟩ := loadedForms_formStore
  have evaluated (u : Store) :
      Ends bareWorld none wordless Store.globalFrame u (.ok (.atom (.int 0)) u) :=
    ⟨finished_ok _ _, 3, rfl⟩
  obtain ⟨ref, named, has⟩ := bound FormLibrary.assertForm (by simp [FormLibrary.expanders])
  obtain ⟨owner, found⟩ := Scope.find?_of_free .global "assert" rfl named
  have sees : formStore.SeesExpander Store.globalFrame FormLibrary.assertForm :=
    ⟨owner, ref, found, has⟩
  refine ⟨loaded, sees, thrower, evaluated, ?_⟩
  obtain ⟨u, symbol, expanded, means⟩ := means_assert (w := bareWorld) loaded sees (fits_none 10)
    (spine_eagerList 3 [wordless]) 4
  obtain ⟨raiser, bound, held⟩ := thrower
  obtain ⟨owner, found⟩ := Scope.find?_of_free .global "throw-error" rfl bound
  have still := Frame.find?_of_kept expanded.allocates.frames found
  have comes : AssertComes bareWorld none Store.globalFrame symbol wordless u
      (.failure (.breakdown .tooManyDigits))
      (u.pushFrame ⟨some Store.globalFrame, [(symbol, .atom (.int 0))]⟩) := by
    refine .goesOn (evaluated u) ⟨rfl, owner, raiser, still, ?_⟩
    refine ⟨expanded.allocates.procedures raiser _ held, ?_⟩
    exact congrArg (fun written => Ending.failure (raising wordless written))
      (summary_wordless _ _).symm
  obtain ⟨last, least, behaves⟩ := (means none).1 _ _ comes
  have finished {t : Store} : Finished (.error (.breakdown .tooManyDigits) t :
      EStateM.Result Interrupt Store Value) := fun _ => nofun
  exact ⟨_, finished, least, behaves least (Nat.le_refl least)⟩

end LazyLisp
