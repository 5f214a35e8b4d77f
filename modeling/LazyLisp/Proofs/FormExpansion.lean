import LazyLisp.Proofs.BodyForms
import LazyLisp.Proofs.ExplicitExpansion
import LazyLisp.Proofs.FilledTemplates
import LazyLisp.Proofs.FormLibrary
import Mathlib.Data.List.Forall2

/-!
What the forms of the prelude expand to.

The expanders are programs: they take the clauses of a form apart, copy templates and call each
other. Each comes to the form that its documentation has in mind, and on the way there it only
allocates, takes new symbols and writes to the log.
-/

namespace LazyLisp

section Rules

variable {k : Nat} {w : World} {room : Option Nat} {frame : FrameId} {s : Store}
  {Q : Value → Store → Prop} {bindings : List (String × Value)} (scope : Scope s frame bindings)

include scope

/-- A form that calls a primitive with one argument, which leaves the store as it is. -/
theorem Yields.unary {p : Primitive} (named : s.Names p) (fits : Fits (k + 2) room)
    (free : bindings.lookup p.name = none) {code : Datum} {v r : Value}
    (operand : Yields w (lower 1 room) code frame s fun x t => x = v ∧ t = s)
    (ran : ∀ m again, p.run m again frame [v] s = .ok (.value r) s) (holds : Q r s) :
    Yields w room (.list [.symbol p.name, code]) frame s Q := by
  refine .named scope named fits free (operand.mono ?_)
  rintro _ _ ⟨rfl, rfl⟩
  exact ⟨rfl, r, _, fun m again _ _ => ran m again, holds⟩

theorem Yields.ifPair (named : s.Names .isCons) (fits : Fits (k + 3) room)
    (free : bindings.lookup "cons?" = none) {code yes no : Datum} {v : Value}
    (operand : Yields w (lower 1 (lower 1 room)) code frame s fun x t => x = v ∧ t = s)
    (branch : Yields w room (bif v.isPair then yes else no) frame s Q) :
    Yields w room (.list [.symbol "if", .list [.symbol "cons?", code], yes, no]) frame s Q := by
  refine .cond fits (.unary scope named fits.lower free operand
    (fun m again => Primitive.run_isCons m again frame s v) ?_)
  rw [isTruthy_ofBool]
  cases isPair : v.isPair with
  | true => simpa [isPair] using branch
  | false => simpa [isPair] using branch

theorem Yields.carOf (named : s.Names .car) (fits : Fits (k + 2) room)
    (free : bindings.lookup "car" = none) {code : Datum} {mark : Nat} {a d : Value}
    (operand : Yields w (lower 1 room) code frame s fun x t => x = .pair mark a d ∧ t = s)
    (holds : Q a s) : Yields w room (.list [.symbol "car", code]) frame s Q :=
  .unary scope named fits free operand
    (fun m again => Primitive.run_car m again frame s mark a d) holds

theorem Yields.cdrOf (named : s.Names .cdr) (fits : Fits (k + 2) room)
    (free : bindings.lookup "cdr" = none) {code : Datum} {mark : Nat} {a d : Value}
    (operand : Yields w (lower 1 room) code frame s fun x t => x = .pair mark a d ∧ t = s)
    (holds : Q d s) : Yields w room (.list [.symbol "cdr", code]) frame s Q :=
  .unary scope named fits free operand
    (fun m again => Primitive.run_cdr m again frame s mark a d) holds

end Rules

theorem Value.isSame_symbol (v : Value) (name : String) :
    v.isSame (.symbol name) = v.isSymbolNamed name := by
  cases v with
  | atom a =>
    cases a with
    | symbol other =>
      rw [Bool.eq_iff_iff]
      simp [isSame, Atom.sameAs, isSymbolNamed, symbol?]
    | _ => rfl
  | _ => rfl

/-- A clause is an eager list of a test and a body. -/
def IsClause (form : Value) (clause : Value × List Value) : Prop :=
  Spine form (clause.1 :: clause.2) .nil

/-- Nested ifs for clauses. There is none for a clause of which the test is `else`, and none behind
it. -/
inductive Nests : List (Value × List Value) → Value → Prop where
  | nil : Nests [] .nil
  | otherwise {test body rest v} : test.isSymbolNamed "else" = true → IsBody body v →
      Nests ((test, body) :: rest) v
  | test {test body rest v b r} : test.isSymbolNamed "else" = false → IsBody body b →
      Nests rest r → Spine v [.symbol "if", test, b, r] .nil → Nests ((test, body) :: rest) v

theorem fills_sequence {k : Nat} {w : World} {room : Option Nat} {frame : FrameId} {s : Store}
    {bindings : List (String × Value)} (scope : Scope s frame bindings) (fits : Fits (k + 1) room)
    {body : Value} {forms : List Value} (bound : bindings.lookup "body" = some body)
    (spine : Spine body forms .nil) :
    Fills w room FormLibrary.sequenceTemplate frame s fun v t =>
      Allocates s t ∧ Spine v (.symbol "begin" :: forms) .nil := by
  refine .list (.atom rfl (.splice (.variable scope fits bound ⟨forms, spine, .nil ?_⟩)))
  intro v t filled made
  exact ⟨made, by simpa using filled⟩

section Clauses

variable {k : Nat} {w : World} {room : Option Nat} {s : Store} (loaded : s.LoadedForms)

include loaded

theorem yields_bodyToExpr (fits : Fits (k + 4) room) {ref : Nat}
    (has : s.Has FormLibrary.bodyToExpr ref) {body : Value} {forms : List Value}
    (spine : Spine body forms .nil) (frame : FrameId) :
    YieldsCall w room (.procedure ref) [body] frame s fun v t => Allocates s t ∧ IsBody forms v := by
  refine .procedure has loaded.globalFrame_lt fits rfl (by decide) rfl fun i t enters => ?_
  have scope := enters.scopeGlobal
  have loaded := loaded.allocates enters.allocates
  have isCons := loaded.primitives .isCons (by decide)
  have car := loaded.primitives .car (by decide)
  have cdr := loaded.primitives .cdr (by decide)
  refine .ifPair scope isCons fits rfl (.variable scope fits.lower.lower rfl ⟨rfl, rfl⟩) ?_
  cases spine with
  | nil => exact .quote fits ⟨enters.allocates, .empty⟩
  | @cons mark first others rest _ spine =>
    refine .ifPair scope isCons fits rfl (.cdrOf scope cdr fits.lower.lower rfl
      (.variable scope fits.lower.lower.lower rfl ⟨rfl, rfl⟩) ⟨rfl, rfl⟩) ?_
    cases spine with
    | nil =>
      refine .carOf scope car fits rfl (.variable scope fits.lower rfl ⟨rfl, rfl⟩) ?_
      exact ⟨enters.allocates, .one⟩
    | cons spine =>
      refine .quasiquote (k := 2) (fits.mono (by omega)) (by decide) ?_
      refine (fills_sequence scope fits.lower rfl (.cons (.cons spine))).mono ?_
      exact fun v u filled => ⟨enters.allocates.trans filled.1, .several filled.2⟩

/-- The code for the first clause, in front of what the other clauses come to. -/
theorem yields_clause (fits : Fits (k + 7) room) {frame : FrameId} {mark : Nat}
    {test body form rest : Value} {forms : List Value} (clauses : List (Value × List Value))
    (scope : Scope s frame
      [("test", test), ("body", body), ("clauses", .pair mark form rest)])
    (spine : Spine body forms .nil)
    (others : ∀ t ref, t.LoadedForms → t.Has FormLibrary.condToIf ref →
      YieldsCall w (lower 1 room) (.procedure ref) [rest] frame t fun r u =>
        Allocates t u ∧ Nests clauses r) :
    Yields w room FormLibrary.clauseCode frame s fun v t =>
      Allocates s t ∧ Nests ((test, forms) :: clauses) v := by
  have isBody := loaded.procedures FormLibrary.bodyToExpr (by simp [FormLibrary.procedures])
  refine .cond fits (.named scope (loaded.primitives .same (by decide)) fits.lower rfl
    (.variable scope fits.lower.lower rfl (.quote fits.lower.lower ⟨rfl, _, s,
      fun m again _ _ => Primitive.run_same m again frame s test (.symbol "else"), ?_⟩)))
  rw [isTruthy_ofBool, Value.isSame_symbol]
  cases otherwise : test.isSymbolNamed "else" with
  | true =>
    refine .procedure scope fits isBody rfl rfl fun ref has => ?_
    refine .variable scope fits.lower rfl ((yields_bodyToExpr loaded fits has spine frame).mono ?_)
    rintro v t ⟨made, body⟩
    exact ⟨made, .otherwise otherwise body⟩
  | false =>
    refine .quasiquote (k := 4) (fits.mono (by omega)) (by decide) (.list (.atom rfl (.cons ?_)))
    refine .unquote (.variable scope fits.lower rfl (.cons (.unquote ?_)))
    refine .procedure scope fits.lower isBody rfl rfl fun ref has => ?_
    refine .variable scope fits.lower.lower rfl
      ((yields_bodyToExpr loaded fits.lower has spine frame).mono ?_)
    rintro b t ⟨bodyMade, body⟩
    have scope := scope.allocates bodyMade
    have loaded := loaded.allocates bodyMade
    have isRest := loaded.procedures FormLibrary.condToIf (by simp [FormLibrary.procedures])
    refine .cons (.unquote (.procedure scope fits.lower isRest rfl rfl fun ref has => ?_))
    refine .cdrOf scope (loaded.primitives .cdr (by decide)) fits.lower.lower rfl
      (.variable scope fits.lower.lower.lower rfl ⟨rfl, rfl⟩) ((others t ref loaded has).mono ?_)
    rintro r u ⟨restMade, rest⟩
    refine .nil fun v z filled made => ?_
    exact ⟨bodyMade.trans (restMade.trans made), .test otherwise body rest filled⟩

theorem yields_condToIf {clauses : List (Value × List Value)} (fits : Fits (clauses.length + 6) room)
    {ref : Nat} (has : s.Has FormLibrary.condToIf ref) {list : Value} {forms : List Value}
    (spine : Spine list forms .nil) (parsed : List.Forall₂ IsClause forms clauses)
    (frame : FrameId) :
    YieldsCall w room (.procedure ref) [list] frame s fun v t =>
      Allocates s t ∧ Nests clauses v := by
  induction parsed generalizing room s list ref frame with
  | nil =>
    refine .procedure has loaded.globalFrame_lt fits rfl (by decide) rfl fun i t enters => ?_
    have scope := enters.scopeGlobal
    have loaded := loaded.allocates enters.allocates
    refine .ifPair scope (loaded.primitives .isCons (by decide)) fits rfl
      (.variable scope fits.lower.lower rfl ⟨rfl, rfl⟩) ?_
    cases spine
    exact .quote fits ⟨enters.allocates, .nil⟩
  | @cons form clause forms clauses isClause _ ih =>
    obtain ⟨test, body⟩ := clause
    cases spine with
    | @cons mark _ _ rest _ spine =>
    cases isClause with
    | @cons mark' _ _ bodyForms _ bodySpine =>
    rw [List.length_cons, Nat.add_right_comm] at fits
    refine .procedure has loaded.globalFrame_lt fits rfl (by decide) rfl fun i t enters => ?_
    have outer := enters.scopeGlobal
    have loaded := loaded.allocates enters.allocates
    have car := loaded.primitives .car (by decide)
    have cdr := loaded.primitives .cdr (by decide)
    refine .ifPair outer (loaded.primitives .isCons (by decide)) fits rfl
      (.variable outer fits.lower.lower rfl ⟨rfl, rfl⟩) ?_
    have clause {Q : Value → Store → Prop} (holds : Q (.pair mark' test bodyForms) t) :
        Yields w (lower 1 (lower 1 room)) (.list [.symbol "car", .symbol "clauses"]) i t Q :=
      .carOf outer car fits.lower.lower rfl (.variable outer fits.lower.lower.lower rfl ⟨rfl, rfl⟩)
        holds
    refine .bindings fits FormLibrary.clauseBindings (by decide) ?_
    refine .carOf outer car fits.lower rfl (clause ⟨rfl, rfl⟩) ?_
    refine .cdrOf outer cdr fits.lower rfl (clause ⟨rfl, rfl⟩) ?_
    refine ⟨enters.inside, fun j u inner => ?_⟩
    have made := enters.allocates.trans inner.allocates
    have scope := inner.scope (outer.allocates inner.allocates)
    refine (yields_clause (loaded.allocates inner.allocates) fits clauses scope bodySpine ?_).mono ?_
    · intro z ref loaded has
      exact ih loaded (fits.lower.mono (by omega)) has spine j
    · exact fun v z ended => ⟨made.trans ended.1, ended.2⟩

end Clauses

def Continues (w : World) (room : Option Nat) (form : Value) (frame : FrameId)
    (name : Option String) (s : Store) (next : Value) (inner : FrameId) (t : Store) : Prop :=
  ∃ k, Eventually fun fuel =>
    evaluate w (fuel + k) room form frame name s = evaluate w fuel room next inner none t

/-- What becomes of the store when a form is expanded: there are new frames, closures and pairs,
symbols may have been taken, and the log may have grown. -/
structure Store.Expanded (s t : Store) : Prop where
  allocates : Allocates s { t with nextSymbol := s.nextSymbol, err := s.err }
  symbols : s.nextSymbol ≤ t.nextSymbol
  log : ∃ text, t.err = s.err ++ text

def Store.withLog (s : Store) (text : String) : Store := { s with err := s.err ++ text }

theorem Run.log_eq (l : Logging) (level : LogLevel) (origin : String) (message : Unit → String)
    (s : Store) : ∃ text, Run.log l level origin message s = .ok () (s.withLog text) := by
  unfold Run.log
  split
  · exact ⟨_, rfl⟩
  · refine ⟨"", ?_⟩
    rw [Store.withLog, String.append_empty]
    rfl

theorem Run.catchFault_of_ok {α : Type} {x : Run α} {a : α} {s t : Store} (ended : x s = .ok a t)
    (handle : Fault → Run α) : Run.catchFault x handle s = .ok a t := by
  rw [Run.catchFault, ended]

theorem expanded_of_allocates {s t : Store} (count : Nat)
    (allocates : Allocates { s with nextSymbol := s.nextSymbol + count } t) (text : String) :
    s.Expanded (t.withLog text) where
  allocates :=
    { frames := allocates.frames
      outer := allocates.outer
      procedures := allocates.procedures
      closures := allocates.closures
      marks := allocates.marks
      lazyPairs := allocates.lazyPairs
      errors := allocates.errors
      inputs := allocates.inputs
      symbols := rfl
      out := allocates.out
      err := rfl }
  symbols := by
    have taken : t.nextSymbol = s.nextSymbol + count := allocates.symbols
    change s.nextSymbol ≤ t.nextSymbol
    omega
  log := ⟨text, congrArg (· ++ text) allocates.err⟩

theorem Spine.hasEagerSpine {v : Value} {items : List Value} (spine : Spine v items .nil) :
    v.HasEagerSpine := by
  generalize ends : Value.nil = tail at spine
  induction spine with
  | nil =>
    subst ends
    trivial
  | cons _ ih => exact ih ends

section Expansion

variable {k : Nat} {w : World} {room : Option Nat} {frame : FrameId} {s : Store}

/-- A form is expanded by evaluating the body of the expander on its arguments. -/
theorem continues_of_yields (fits : Fits (k + 2) room) {p : LibraryExpander}
    (plain : SpecialForm.ofName? p.name = none) (sees : s.SeesExpander frame p) {rest : Value}
    {args : List Value} (spine : Spine rest args .nil) {i : FrameId} {u : Store}
    (bound : p.signature.bind args Store.globalFrame s = .ok i u) {Q : Value → Store → Prop}
    (yields : Yields w (lower 1 room) p.body i u Q) (mark : Nat) :
    ∃ v t text, Q v t ∧ ∀ name, Continues w room (.pair mark (.symbol p.name) rest) frame name s v
      frame (t.withLog text) := by
  obtain ⟨owner, ref, found, x, held, isMatch⟩ := sees
  obtain ⟨v, t, ⟨least, evaluated⟩, holds⟩ := yields x.body isMatch.body
  have names : Names s frame (.pair mark (.symbol p.name) rest) x := .intro plain found held
  have eager : (Value.pair mark (.symbol p.name) rest).HasEagerSpine := spine.hasEagerSpine
  obtain ⟨text, logged⟩ := Run.log_eq w.logging .debug Expansion.origin (fun _ =>
    "expanded " ++ x.name.getD "" ++ " -> " ++
      (t.inMessage w.halves (lower 1 room) v).toOption.getD "") t
  refine ⟨v, t, text, holds, fun name => ⟨1, .succ ⟨least, fun fuel enough => ?_⟩⟩⟩
  have ran : (x.signature.bind args x.frame >>= fun frame =>
      (Engine.evaluating w (fuel + 1) (lower 1 room)).eval x.body frame x.name) s = .ok v t := by
    rw [isMatch.signature, isMatch.frame]
    exact (Run.bind_of_ok bound).trans (evaluated (fuel + 1) (by omega) x.name)
  apply evaluate_of_tail fits.descend
  rw [step_of_names fits.lower.descend fuel names eager, expansion_pair]
  refine Run.bind_of_ok ((Run.bind_of_ok (items_of_spine _ _ _ spine s)).trans ?_)
  refine (Run.bind_of_ok (Run.catchFault_of_ok ran _)).trans ?_
  have current : (get : Run Store) t = .ok t t := rfl
  exact (Run.bind_of_ok current).trans (Run.bind_of_ok logged)

theorem expands_cond (loaded : s.LoadedForms) (sees : s.SeesExpander frame FormLibrary.condForm)
    {clauses : List (Value × List Value)} (fits : Fits (clauses.length + 8) room) {rest : Value}
    {forms : List Value} (spine : Spine rest forms .nil)
    (parsed : List.Forall₂ IsClause forms clauses) (w : World) (mark : Nat) :
    ∃ v t, s.Expanded t ∧ Nests clauses v ∧ ∀ name,
      Continues w room (.pair mark (.symbol "cond") rest) frame name s v frame t := by
  obtain ⟨list, u, listSpine, enters, bound⟩ :=
    bind_variadic [] "clauses" [] forms rfl (by simp) loaded.globalFrame_lt
  have loaded := loaded.allocates enters.allocates
  have nested := loaded.procedures FormLibrary.condToIf (by simp [FormLibrary.procedures])
  have yields : Yields w (lower 1 room) FormLibrary.condForm.body s.frames.size u fun v t =>
      Allocates u t ∧ Nests clauses v := by
    refine .procedure enters.scopeGlobal fits.lower nested rfl rfl fun ref has => ?_
    refine .variable enters.scopeGlobal fits.lower.lower rfl ?_
    exact yields_condToIf loaded (fits.lower.mono (by omega)) has listSpine parsed _
  obtain ⟨v, t, text, ⟨made, nests⟩, continues⟩ :=
    continues_of_yields fits rfl sees spine bound yields mark
  have allocates := enters.allocates.trans made
  exact ⟨v, t.withLog text, expanded_of_allocates 0 allocates text, nests, continues⟩

def IsBranch (taken : Bool) (forms : List Value) (v : Value) : Prop :=
  if taken then Spine v (.symbol "begin" :: forms) .nil else v = .nil

theorem expands_test {on : Bool} {p : LibraryExpander}
    (signature : p.signature = ⟨["test"], some "body"⟩)
    (code : p.body = .list [.symbol "quasiquote", FormLibrary.testTemplate on])
    (plain : SpecialForm.ofName? p.name = none) (loaded : s.LoadedForms)
    (sees : s.SeesExpander frame p) (fits : Fits (k + 6) room) {rest test : Value}
    {forms : List Value} (spine : Spine rest (test :: forms) .nil) (w : World) (mark : Nat) :
    ∃ v t yes no, s.Expanded t ∧ Spine v [.symbol "if", test, yes, no] .nil ∧
      IsBranch on forms yes ∧ IsBranch (!on) forms no ∧ ∀ name,
      Continues w room (.pair mark (.symbol p.name) rest) frame name s v frame t := by
  obtain ⟨body, u, bodySpine, enters, bound⟩ :=
    bind_variadic ["test"] "body" [test] forms rfl (by decide) loaded.globalFrame_lt
  have scope := enters.scopeGlobal
  have branch (taken : Bool) {z : Store} (made : Allocates u z) :
      Fills w (lower 1 (lower 1 room))
        (if taken then FormLibrary.sequenceTemplate else .nil) s.frames.size z fun v t =>
          Allocates z t ∧ IsBranch taken forms v := by
    cases taken with
    | true => exact fills_sequence (scope.allocates made) fits.lower.lower rfl bodySpine
    | false => exact .atom rfl ⟨.refl z, rfl⟩
  have yields : Yields w (lower 1 room) p.body s.frames.size u fun v t => Allocates u t ∧
      ∃ yes no, Spine v [.symbol "if", test, yes, no] .nil ∧ IsBranch on forms yes ∧
        IsBranch (!on) forms no := by
    rw [code]
    refine .quasiquote (k := 4) (fits.lower.mono (by omega)) (by cases on <;> decide) ?_
    refine .list (.atom rfl (.variable scope fits.lower.lower rfl ?_))
    refine .cons ((branch on (.refl u)).mono ?_)
    rintro yes z ⟨yesMade, isYes⟩
    refine .cons ((branch (!on) yesMade).mono ?_)
    rintro no z' ⟨noMade, isNo⟩
    refine .nil fun v t filled made => ?_
    exact ⟨yesMade.trans (noMade.trans made), yes, no, filled, isYes, isNo⟩
  rw [← signature] at bound
  obtain ⟨v, t, text, ⟨made, yes, no, filled, isYes, isNo⟩, continues⟩ :=
    continues_of_yields fits plain sees spine bound yields mark
  have allocates := enters.allocates.trans made
  exact ⟨v, t.withLog text, yes, no, expanded_of_allocates 0 allocates text, filled, isYes, isNo,
    continues⟩

inductive IsThrower (e : Value) : Value → Prop where
  | intro {v kind quoted} : Spine v [.symbol "throw-error", kind, quoted] .nil →
      Spine kind [.symbol "quote", .symbol "assertion-error"] .nil →
      Spine quoted [.symbol "quote", e] .nil → IsThrower e v

inductive IsAssertion (name : String) (e : Value) : Value → Prop where
  | intro {v bindings binding body thrower} : Spine v [.symbol "let", bindings, body] .nil →
      Spine bindings [binding] .nil → Spine binding [.symbol name, e] .nil →
      Spine body [.symbol "if", .symbol name, .symbol name, thrower] .nil → IsThrower e thrower →
      IsAssertion name e v

theorem fills_assertion {bindings : List (String × Value)} (scope : Scope s frame bindings)
    (fits : Fits (k + 1) room) {name : String} {e : Value}
    (value : bindings.lookup "value" = some (.symbol name))
    (expr : bindings.lookup "expr" = some e) :
    Fills w room FormLibrary.assertTemplate frame s fun v t =>
      Allocates s t ∧ IsAssertion name e v := by
  refine .list (.atom rfl (.list (.list ?_)))
  refine .variable scope fits value (.variable scope fits expr (.nil ?_))
  intro binding t bindingSpine made
  refine .nil fun bindings t' bindingsSpine made' => ?_
  have made := made.trans made'
  have scope := scope.allocates made
  refine .list (.atom rfl (.variable scope fits value (.variable scope fits value ?_)))
  refine .list (.atom rfl (.list (.atom rfl (.atom rfl (.nil ?_)))))
  intro kind u kindSpine kindMade
  have made := made.trans kindMade
  have scope := scope.allocates kindMade
  refine .list (.atom rfl (.variable scope fits expr (.nil ?_)))
  intro quoted u' quotedSpine quotedMade
  refine .nil fun thrower z throwerSpine throwerMade => ?_
  refine .nil fun body z' bodySpine bodyMade => ?_
  refine .nil fun v last spine lastMade => ?_
  have allMade := quotedMade.trans (throwerMade.trans (bodyMade.trans lastMade))
  exact ⟨made.trans allMade, .intro spine bindingsSpine bindingSpine bodySpine
    (.intro throwerSpine kindSpine quotedSpine)⟩

theorem Allocates.takeSymbols {t : Store} (allocates : Allocates s t) (count : Nat) :
    Allocates { s with nextSymbol := s.nextSymbol + count }
      { t with nextSymbol := t.nextSymbol + count } :=
  { allocates with symbols := congrArg (· + count) allocates.symbols }

theorem Primitive.run_gensym (m : Engine) (call : Caller) (start : String) :
    gensym.run m call frame [.atom (.string start)] s =
      .ok (.value (.symbol (start ++ toString s.nextSymbol)))
        { s with nextSymbol := s.nextSymbol + 1 } := rfl

theorem expands_assert (loaded : s.LoadedForms)
    (sees : s.SeesExpander frame FormLibrary.assertForm) (fits : Fits (k + 10) room)
    {rest e : Value} (spine : Spine rest [e] .nil) (w : World) (mark : Nat) :
    ∃ v t, s.Expanded t ∧ IsAssertion ("value" ++ toString s.nextSymbol) e v ∧ ∀ name,
      Continues w room (.pair mark (.symbol "assert") rest) frame name s v frame t := by
  have enters := Enters.pushFrame s loaded.globalFrame_lt [("expr", e)]
  have bound : FormLibrary.assertForm.signature.bind [e] Store.globalFrame s =
      .ok s.frames.size (s.pushFrame ⟨some Store.globalFrame, [("expr", e)]⟩) :=
    bind_names rfl (by decide) Store.globalFrame s
  generalize s.pushFrame _ = u at enters bound
  generalize s.frames.size = i at enters bound
  have scope := enters.scopeGlobal
  have loaded := loaded.allocates enters.allocates
  have numbered : u.nextSymbol = s.nextSymbol := enters.allocates.symbols
  have yields : Yields w (lower 1 room) FormLibrary.assertForm.body i u fun v t =>
      Allocates { s with nextSymbol := s.nextSymbol + 1 } t ∧
        IsAssertion ("value" ++ toString u.nextSymbol) e v := by
    refine .binding fits.lower ?_
    refine .named scope (loaded.primitives .gensym (by decide)) fits.lower.lower rfl ?_
    refine .string fits.lower.lower.lower ⟨rfl, _, _,
      fun m again _ _ => Primitive.run_gensym m again "value", enters.inside, ?_⟩
    intro j z inner
    have made := (enters.allocates.takeSymbols 1).trans inner.allocates
    have around := scope.kept (t := z) inner.allocates.frames
    refine .quasiquote (k := 8) (fits.lower.mono (by omega)) (by decide) ?_
    refine (fills_assertion (inner.scope around) fits.lower.lower rfl rfl).mono ?_
    exact fun v t filled => ⟨made.trans filled.1, filled.2⟩
  obtain ⟨v, t, text, ⟨made, assertion⟩, continues⟩ :=
    continues_of_yields fits rfl sees spine bound yields mark
  rw [numbered] at assertion
  exact ⟨v, t.withLog text, expanded_of_allocates 1 made text, assertion, continues⟩

end Expansion

end LazyLisp
