import LazyLisp.Proofs.SimulatedPrimitives

/-!
Calls, special forms and whole steps follow each other if engines do. A definition may name a
procedure, and what is asked of it is asked apart.
-/

namespace LazyLisp

def Engine.defineValue (m : Engine) (frame : FrameId) (name : String) (expr : Value) :
    Run Value := do
  let v ← m.eval expr frame none
  if ← SpecialForm.makesProcedure m expr then
    if let .procedure ref := v then Run.nameProcedure ref name
  Run.define frame name v
  return .symbol name

namespace Simulation

open Following

variable {T : Simulation} {m m' : Engine} {c : T.Moment} {v w : Value} {args args' : List Value}
  {frame : FrameId} {α β : Type}

section Calls

theorem selectClause {clauses clauses' : List Closure}
    (closures : List.Forall₂ (T.Closures c) clauses clauses') (name : Option String)
    (count : Nat) :
    T.Follows c T.Closures (Call.selectClause clauses name count)
      (Call.selectClause clauses' name count) := by
  have texts : clauses.map (·.signature.text) = clauses'.map (·.signature.text) := by
    induction closures with
    | nil => rfl
    | cons first _ ih => rw [List.map_cons, List.map_cons, first.signature, ih]
  have found : Option.Rel (T.Closures c) (clauses.find? (·.signature.accepts count))
      (clauses'.find? (·.signature.accepts count)) := by
    clear texts
    induction closures with
    | nil => exact .none
    | cons first _ ih =>
      rw [List.find?_cons, List.find?_cons, first.signature]
      split
      · exact .some first
      · exact ih
  unfold Call.selectClause
  rw [texts]
  generalize clauses.find? _ = x at found
  generalize clauses'.find? _ = y at found
  cases found with
  | some found => exact .pure fun d later => T.closures_later later found
  | none => exact fail _ _

variable (engines : T.Engines m m') (same : T.All c args args')

include engines same

theorem closure (tail : Bool) {x y : Closure} (closures : T.Closures c x y) :
    T.Follows c T.Steps (Call.closure m tail x args) (Call.closure m' tail y args') := by
  unfold Call.closure
  rw [closures.signature, ← closures.frame.1, closures.name]
  refine (bindArguments _ same closures.frame.2).bind ?_
  rintro d later inner _ ⟨rfl, inside⟩
  exact engines.inTail tail (T.values_later later closures.body) inside _

/-- A procedure may be called if the forms that faults have left are related, or it does not show
them. -/
theorem runWith {again again' : Primitive.Caller} (calls : T.Calls c frame again again')
    (called : T.callers c frame) (tail : Bool) {p q : Procedure} (procedures : T.Procedures c p q)
    (shown : T.Traced ∨ p.showsTrace = false) :
    T.Follows c T.Steps (Call.runWith m again tail args frame p)
      (Call.runWith m' again' tail args' frame q) := by
  cases procedures with
  | closure closures => exact closure engines same tail closures
  | cases name doc clauses =>
    unfold Call.runWith
    rw [same.length_eq]
    refine (selectClause clauses name _).bind fun d later x y closures => ?_
    exact closure engines (T.all_later later same) tail closures
  | primitive p =>
    have inside := T.calculating_later c
    have ran := runPrimitive engines (T.all_later inside same) (T.refl _) (calls.later inside)
      (T.callers_later inside called) p shown
    refine (T.follows_calculation p.name ran).bind fun d later step step' steps => ?_
    cases steps with
    | value known => exact .pure fun e further => .value (T.values_later further known)
    | tail name shown known => exact engines.inTail tail known shown name
  | expander closures =>
    simp only [Call.runWith, closures.name]
    exact fail _ _

theorem applyWithin (traced : T.Traced) {fuel fuel' : Nat} (fuels : T.fuels.Related fuel fuel')
    (room : Option Nat) (tail : Bool) (known : T.values c v w) (called : T.callers c frame) :
    T.Follows c T.Steps (Call.applyWithin m fuel room tail v args frame)
      (Call.applyWithin m' fuel' room tail w args' frame) := by
  induction fuel generalizing c fuel' room tail v w args args' frame with
  | zero => exact T.follows_outOfFuel fuels (by rintro rfl; rfl)
  | succ fuel ih =>
    obtain ⟨fuel', rfl, less⟩ := T.fuels.of_succ fuels
    unfold Call.applyWithin
    cases descend room with
    | none => exact .overflow
    | some room =>
      have refused := (engines.inMessage (T.looks_of_values known)).andThen (S := T.Steps)
        fun d later text => fail Fault.Kind.notApplicable (text ++ " is not a procedure")
      cases T.matches_of_values known with
      | procedure p q =>
        refine (T.procedure known).bind fun d later p q procedures => ?_
        have called := T.callers_later later called
        refine runWith engines (T.all_later later same) ?_ called tail procedures (.inl traced)
        intro e further f g args args' known same
        exact ih same less room true known (T.callers_later further called)
      | _ => exact refused

theorem apply (traced : T.Traced) (tail : Bool) (known : T.values c v w)
    (called : T.callers c frame) :
    T.Follows c T.Steps (Call.apply m tail v args frame) (Call.apply m' tail w args' frame) := by
  unfold Call.apply
  rw [engines.room]
  exact applyWithin engines same traced (T.fuels.succ engines.fuel) _ tail known called

end Calls

theorem malformed {R : T.Moment → α → β → Prop} (message : String) :
    T.Follows c R (SpecialForm.malformed message : Run α) (SpecialForm.malformed message : Run β) :=
  fail _ _

theorem nothing : T.Follows c T.Steps (pure (.value .nil)) (pure (.value .nil)) :=
  .pure fun d _ => .value (T.values_atom d _)

/-- The documentation of related bodies is the same. -/
theorem splitDoc (same : T.All c args args') :
    (splitDoc args).1 = (LazyLisp.splitDoc args').1 ∧
      T.All c (LazyLisp.splitDoc args).2 (LazyLisp.splitDoc args').2 := by
  cases same with
  | nil => exact ⟨rfl, .nil⟩
  | cons first rest =>
    have whole := List.Forall₂.cons first rest
    cases rest with
    | nil =>
      cases T.matches_of_values first with
      | atom a => cases a <;> exact ⟨rfl, whole⟩
      | _ => exact ⟨rfl, whole⟩
    | cons second others =>
      cases T.matches_of_values first with
      | atom a =>
        cases a with
        | string doc => exact ⟨rfl, .cons second others⟩
        | _ => exact ⟨rfl, whole⟩
      | _ => exact ⟨rfl, whole⟩

section Forms

variable (engines : T.Engines m m') (tail : Bool) (shown : T.frames c frame)

include engines

theorem makesProcedure (same : T.values c v w) :
    T.Follows c T.Same (SpecialForm.makesProcedure m v) (SpecialForm.makesProcedure m' w) := by
  unfold SpecialForm.makesProcedure
  rw [(T.matches_of_values same).isPair_eq]
  refine .ite (fun _ => .same) fun _ => ?_
  refine (engines.car same).bind fun d later head head' known => .pure fun _ _ => ?_
  have named := (T.matches_of_values known).isSymbolNamed_eq
  rw [named, named]

include shown

theorem runSequence (same : T.All c args args') :
    T.Follows c T.Steps (SpecialForm.runSequence m tail frame args)
      (SpecialForm.runSequence m' tail frame args') := by
  induction args generalizing c args' with
  | nil =>
    cases same
    exact nothing
  | cons form rest ih =>
    cases same with
    | cons first others =>
      cases others with
      | nil => exact engines.inTail tail first shown none
      | cons second others =>
        refine (engines.eval first shown _).bind fun d later _ _ _ => ?_
        exact ih (T.frames_later later shown) (T.all_later later (.cons second others))

theorem runIf (same : T.All c args args') :
    T.Follows c T.Steps (SpecialForm.runIf m tail frame args)
      (SpecialForm.runIf m' tail frame args') := by
  match same with
  | .nil | .cons _ .nil | .cons _ (.cons _ (.cons _ (.cons _ _))) => exact malformed _
  | .cons test (.cons yes .nil) =>
    refine (engines.eval test shown _).bind fun d later v w known => ?_
    rw [(T.matches_of_values known).isTruthy_eq]
    have shown := T.frames_later later shown
    exact .ite (fun _ => engines.inTail tail (T.values_later later yes) shown _) fun _ => nothing
  | .cons test (.cons yes (.cons no .nil)) =>
    refine (engines.eval test shown _).bind fun d later v w known => ?_
    rw [(T.matches_of_values known).isTruthy_eq]
    have shown := T.frames_later later shown
    exact .ite (fun _ => engines.inTail tail (T.values_later later yes) shown _) fun _ =>
      engines.inTail tail (T.values_later later no) shown _

theorem runLogic (stopAt : Bool) (same : T.All c args args') :
    T.Follows c T.Steps (SpecialForm.runLogic m stopAt tail frame args)
      (SpecialForm.runLogic m' stopAt tail frame args') := by
  induction args generalizing c args' with
  | nil =>
    cases same
    exact .pure fun d _ => .value (T.values_atom d _)
  | cons form rest ih =>
    cases same with
    | cons first others =>
      cases others with
      | nil => exact engines.inTail tail first shown none
      | cons second others =>
        refine (engines.eval first shown _).bind fun d later v w known => ?_
        rw [(T.matches_of_values known).isTruthy_eq]
        refine .ite (fun _ => .pure fun e further => ?_) fun _ => ?_
        · exact .value (T.values_later further known)
        · exact ih (T.frames_later later shown) (T.all_later later (.cons second others))

theorem makeClosure (name : Option String) (params : T.values c v w) (same : T.All c args args') :
    T.Follows c T.Closures (SpecialForm.makeClosure m frame name v args)
      (SpecialForm.makeClosure m' frame name w args') := by
  obtain ⟨doc, body⟩ := splitDoc same
  refine (engines.signature params).andThen fun d later sig => ?_
  refine (bodyExpr (T.all_later later body)).bind fun e further body body' known => ?_
  refine .pure fun f latest => ⟨rfl, T.values_later latest known, ⟨rfl, ?_⟩, rfl, doc⟩
  exact T.frames_later (T.trans later (T.trans further latest)) shown

theorem runLambda (same : T.All c args args') :
    T.Follows c T.values (SpecialForm.runLambda m frame args)
      (SpecialForm.runLambda m' frame args') := by
  cases same with
  | nil => exact malformed _
  | cons params body =>
    exact (makeClosure engines shown none params body).bind fun _ _ _ _ known =>
      T.newProcedure (.closure known)

theorem makeClause (same : T.values c v w) :
    T.Follows c T.Closures (SpecialForm.makeClause m frame v)
      (SpecialForm.makeClause m' frame w) := by
  unfold SpecialForm.makeClause
  rw [(T.matches_of_values same).isPair_eq]
  refine .guard (R := T.Same) (engines.failWith (T.looks_of_values same) _ _) ?_
  refine (engines.items _ _ same).bind fun d later parts parts' known => ?_
  cases known with
  | nil => exact .dangling
  | cons params body => exact makeClosure engines (T.frames_later later shown) none params body

/-- The clauses of a procedure, of which there must be one. -/
theorem makeClauses (same : T.All c args args') :
    T.Follows c (fun d => List.Forall₂ (T.Closures d))
      (args.mapM (SpecialForm.makeClause m frame)) (args'.mapM (SpecialForm.makeClause m' frame)) :=
  mapM T.closures_later same fun _ later _ _ known =>
    makeClause engines (T.frames_later later shown) (T.values_later later known)

theorem runCaseLambda (same : T.All c args args') :
    T.Follows c T.values (SpecialForm.runCaseLambda m frame args)
      (SpecialForm.runCaseLambda m' frame args') := by
  have made {clauses clauses' : List Value} (same : T.All c clauses clauses')
      (doc : Option String) : T.Follows c T.values
        (do let closures ← clauses.mapM (SpecialForm.makeClause m frame)
            if closures.isEmpty then
              SpecialForm.malformed "(case-lambda) must contain at least one clause"
            Run.newProcedure (.cases closures none doc) : Run Value)
        (do let closures ← clauses'.mapM (SpecialForm.makeClause m' frame)
            if closures.isEmpty then
              SpecialForm.malformed "(case-lambda) must contain at least one clause"
            Run.newProcedure (.cases closures none doc)) := by
    refine (makeClauses engines shown same).bind fun d later closures closures' known => ?_
    have empty : closures.isEmpty = closures'.isEmpty := by cases known <;> rfl
    rw [empty]
    exact .guard (R := T.Same) (malformed _) (T.newProcedure (.cases none doc known))
  cases same with
  | nil => exact made .nil none
  | cons first rest =>
    have whole := List.Forall₂.cons first rest
    cases T.matches_of_values first with
    | atom a =>
      cases a with
      | string doc => exact made rest (some doc)
      | _ => exact made whole none
    | _ => exact made whole none

omit engines in
theorem defineAs (name : String) (same : T.values c v w) :
    T.Follows c T.values (do Run.define frame name v; return .symbol name : Run Value)
      (do Run.define frame name w; return .symbol name) :=
  (T.define shown name same).andThen fun _ _ _ => .atom _

theorem defineClosure (name : String) (params : T.values c v w) (same : T.All c args args')
    {wrap : Closure → Procedure}
    (wraps : ∀ {d x y}, T.Closures d x y → T.Procedures d (wrap x) (wrap y)) :
    T.Follows c T.values
      (do let x ← SpecialForm.makeClosure m frame (some name) (← m.cdr v) args
          Run.define frame name (← Run.newProcedure (wrap x))
          return .symbol name : Run Value)
      (do let x ← SpecialForm.makeClosure m' frame (some name) (← m'.cdr w) args'
          Run.define frame name (← Run.newProcedure (wrap x))
          return .symbol name) := by
  refine (engines.cdr params).bind fun d later params params' known => ?_
  have shown := T.frames_later later shown
  refine (makeClosure engines shown _ known (T.all_later later same)).bind ?_
  intro e further x y closures
  refine (T.newProcedure (wraps closures)).bind fun f last v w values => ?_
  exact defineAs (T.frames_later (T.trans further last) shown) name values

omit shown in
/-- Where procedures can be named, definitions follow each other. -/
theorem defineValue (naming : ∀ {c p q}, T.values c (.procedure p) (.procedure q) → ∀ name,
      T.Follows c T.Same (Run.nameProcedure p name) (Run.nameProcedure q name))
    (same : T.values c v w) (shown : T.frames c frame) (name : String) :
    T.Follows c T.values (m.defineValue frame name v) (m'.defineValue frame name w) := by
  refine (engines.eval same shown _).bind fun d later value value' known => ?_
  have bound {e : T.Moment} (further : T.Later d e) : T.Follows e T.values
      (do Run.define frame name value; return .symbol name : Run Value)
      (do Run.define frame name value'; return .symbol name) :=
    defineAs (T.frames_later (T.trans later further) shown) name (T.values_later further known)
  refine (makesProcedure engines (T.values_later later same)).andThen fun e further made => ?_
  refine .ite (fun _ => ?_) fun _ => bound further
  cases T.matches_of_values known with
  | procedure p q =>
    refine (naming (T.values_later further known) name).andThen fun f last _ => ?_
    exact bound (T.trans further last)
  | _ => exact bound further

end Forms

def Definitions (T : Simulation) (m m' : Engine) : Prop :=
  ∀ {c v w frame}, T.values c v w → T.frames c frame → ∀ name,
    T.Follows c T.values (m.defineValue frame name v) (m'.defineValue frame name w)

section Forms

variable (engines : T.Engines m m') (tail : Bool) (shown : T.frames c frame)

include engines shown

theorem runDefine (definitions : T.Definitions m m') (same : T.All c args args') :
    T.Follows c T.values (SpecialForm.runDefine m frame args)
      (SpecialForm.runDefine m' frame args') := by
  cases same with
  | nil => exact malformed _
  | @cons target target' rest rest' first others =>
    have refused {d : T.Moment} {v w : Value} (known : T.values d v w) : T.Follows d T.values
        (m.failWith Fault.Kind.malformedForm "define must have a symbol name, not " v)
        (m'.failWith Fault.Kind.malformedForm "define must have a symbol name, not " w) :=
      engines.failWith (T.looks_of_values known) _ _
    unfold SpecialForm.runDefine
    dsimp only
    rw [(T.matches_of_values first).isPair_eq]
    refine .ite (fun _ => ?_) fun _ => ?_
    · refine (engines.car first).bind fun d later head head' known => ?_
      have refused := refused known
      cases T.matches_of_values known with
      | atom a =>
        cases a with
        | symbol name =>
          exact defineClosure engines (T.frames_later later shown) name
            (T.values_later later first) (T.all_later later others) .closure
        | _ => exact refused
      | _ => exact refused
    · have refused := refused first
      cases T.matches_of_values first with
      | atom a =>
        cases a with
        | symbol name =>
          match others with
          | .nil | .cons _ (.cons _ _) => exact malformed _
          | .cons expr .nil => exact definitions expr shown name
        | _ => exact refused
      | _ => exact refused

theorem runDefineExpander (same : T.All c args args') :
    T.Follows c T.values (SpecialForm.runDefineExpander m frame args)
      (SpecialForm.runDefineExpander m' frame args') := by
  cases same with
  | nil => exact malformed _
  | cons first body =>
    cases body with
    | nil => exact malformed _
    | cons second others =>
      unfold SpecialForm.runDefineExpander
      dsimp only
      rw [(T.matches_of_values first).isPair_eq]
      refine .choose (R := T.Same) ?_ .same ?_
      · exact (engines.car first).mapSame fun _ _ _ known => (T.matches_of_values known).symbol?_eq
      · rintro d later name? _ rfl
        have first := T.values_later later first
        cases name? with
        | some name =>
          exact defineClosure engines (T.frames_later later shown) name first
            (T.all_later later (.cons second others)) .expander
        | none => exact engines.failWith (T.looks_of_values first) _ _

theorem runAssign (same : T.All c args args') :
    T.Follows c T.values (SpecialForm.runAssign m frame args)
      (SpecialForm.runAssign m' frame args') := by
  have other (m : Engine) {args : List Value} (count : args.length ≠ 2) :
      SpecialForm.runAssign m frame args =
        SpecialForm.malformed "set! requires exactly 2 arguments: (set! var value)" := by
    unfold SpecialForm.runAssign
    split
    · simp at count
    · simp at count
    · rfl
  by_cases count : args.length = 2
  · match same with
    | .nil | .cons _ .nil | .cons _ (.cons _ (.cons _ _)) => simp at count
    | .cons target (.cons expr .nil) =>
      have refused := engines.failWith (R := T.values) (T.looks_of_values target)
        Fault.Kind.malformedForm "set! first argument must be a Symbol, got "
      cases T.matches_of_values target with
      | atom a =>
        cases a with
        | symbol name =>
          exact (engines.eval expr shown _).bind fun _ later _ _ known =>
            assign (T.frames_later later shown) name known
        | _ => exact refused
      | _ => exact refused
  · rw [other m count, other m' (same.length_eq ▸ count)]
    exact malformed _

theorem runBinding (same : T.values c v w) :
    T.Follows c T.Bindings (SpecialForm.runBinding m frame v)
      (SpecialForm.runBinding m' frame w) := by
  have refused {d : T.Moment} (later : T.Later c d) : T.Follows d T.Bindings
      (SpecialForm.malformedWith m "let binding must be (name expr), got " v)
      (SpecialForm.malformedWith m' "let binding must be (name expr), got " w) :=
    engines.failWith (T.looks_of_values (T.values_later later same)) _ _
  unfold SpecialForm.runBinding
  rw [(T.matches_of_values same).isPair_eq]
  refine .choose (R := T.All) (engines.items _ _ same) (.pure fun _ _ => .nil) ?_
  intro d later parts parts' known
  cases known with
  | nil => exact refused later
  | cons nameSame others =>
    cases T.matches_of_values nameSame with
    | atom a =>
      cases a with
      | symbol name =>
        match others with
        | .nil => exact refused later
        | .cons exprSame .nil =>
          refine (engines.eval exprSame (T.frames_later later shown) _).bind ?_
          exact fun e further value value' values => .pure fun f last =>
            ⟨rfl, T.values_later last values⟩
        | .cons _ (.cons _ _) => exact refused later
      | _ => exact refused later
    | _ => exact refused later

theorem runLet (same : T.All c args args') :
    T.Follows c T.Steps (SpecialForm.runLet m tail frame args)
      (SpecialForm.runLet m' tail frame args') := by
  cases same with
  | nil => exact malformed _
  | cons first body =>
    refine (engines.items _ _ first).bind fun d later bindings bindings' known => ?_
    have shown := T.frames_later later shown
    refine (mapM (R := T.Bindings) T.bindings_later known ?_).bind ?_
    · exact fun e further _ _ known =>
        runBinding engines (T.frames_later further shown) (T.values_later further known)
    intro e further values values' bound
    refine (T.newFrame (T.frames_later further shown)).bind ?_
    rintro f last inner _ ⟨rfl, inside⟩
    refine (forIn_define inside (bound.imp fun _ _ => T.bindings_later last)).andThen ?_
    intro g latest _
    have since := T.trans later (T.trans further (T.trans last latest))
    refine (bodyExpr (T.all_later since body)).bind fun h more expr expr' known => ?_
    exact engines.inTail tail known (T.frames_later (T.trans latest more) inside) none

omit engines in
theorem runLazyCons (same : T.All c args args') :
    T.Follows c T.values (SpecialForm.runLazyCons frame args)
      (SpecialForm.runLazyCons frame args') := by
  match same with
  | .nil | .cons _ .nil | .cons _ (.cons _ (.cons _ _)) => exact malformed _
  | .cons car (.cons cdr .nil) => exact T.newLazyPair car cdr shown

theorem runCatchError (same : T.All c args args') :
    T.Follows c T.values (SpecialForm.runCatchError m frame args)
      (SpecialForm.runCatchError m' frame args') := by
  have body : T.Follows c T.values (do m.eval (← LazyLisp.bodyExpr args) frame none : Run Value)
      (do m'.eval (← LazyLisp.bodyExpr args') frame none) :=
    (bodyExpr same).bind fun _ later _ _ known =>
      engines.eval known (T.frames_later later shown) none
  have kept {d : T.Moment} {f g : Fault} (faults : T.faults d f g) : T.Follows d T.values
      (Value.error <$> Run.newError f) (Value.error <$> Run.newError g) := by
    refine (T.newError faults).map ?_
    rintro e later ref _ rfl f _
    exact T.values_error f ref
  rw [SpecialForm.runCatchError_eq_either, SpecialForm.runCatchError_eq_either]
  refine T.follows_handle T.stable_values body (fun d later f g faults => kept faults) ?_ ?_
  · intro d later e plain possible
    cases e with
    | fault f => cases plain
    | overflow =>
      have rescued := T.rescue (T.all_later later same)
      rw [map_eq_pure_bind, map_eq_pure_bind] at rescued
      have both := rescued.bind (S := T.values) fun e further f g faults => kept faults
      rw [bind_assoc, bind_assoc] at both
      exact both
    | _ => exact T.follows_throw rfl possible
  · intro e uncaught
    cases e with
    | fault f => exact absurd rfl (uncaught.fault f)
    | overflow => exact absurd rfl uncaught.overflow
    | _ => rfl

theorem runForm (definitions : T.Definitions m m') (form : SpecialForm)
    (same : T.All c args args') :
    T.Follows c T.Steps (form.run m args frame tail) (form.run m' args' frame tail) := by
  cases form with
  | assign => exact (runAssign engines shown same).yields
  | sequence => exact runSequence engines tail shown same
  | defineExpander => exact (runDefineExpander engines shown same).yields
  | quote =>
    refine Follows.yields ?_
    match same with
    | .nil | .cons _ (.cons _ _) => exact malformed _
    | .cons only .nil => exact .value only
  | quasiquote =>
    refine Follows.yields ?_
    match same with
    | .nil | .cons _ (.cons _ _) => exact malformed _
    | .cons only .nil => exact copy engines shown only
  | unquote | unquoteSplicing => exact malformed _
  | lambda => exact (runLambda engines shown same).yields
  | caseLambda => exact (runCaseLambda engines shown same).yields
  | define => exact (runDefine engines shown definitions same).yields
  | cond => exact runIf engines tail shown same
  | letBindings => exact runLet engines tail shown same
  | conj => exact runLogic engines tail shown false same
  | disj => exact runLogic engines tail shown true same
  | lazyCons => exact (runLazyCons shown same).yields
  | catchError => exact (runCatchError engines shown same).yields

end Forms

section Steps

variable (engines : T.Engines m m') (tail : Bool) (shown : T.frames c frame)
  {call call' : (tail : Bool) → Primitive.Caller}
  (calls : T.Calls c frame (call tail) (call' tail))

include engines shown calls

theorem applicationWith (known : T.values c v w) (same : T.All c args args') :
    T.Follows c T.Steps (applicationWith call m v args frame tail)
      (LazyLisp.applicationWith call' m' w args' frame tail) := by
  have refused := (engines.inMessage (T.looks_of_values known)).andThen (S := T.Steps)
    fun d later text => fail Fault.Kind.notApplicable (text ++ " is not a procedure")
  have goesOn {d : T.Moment} (later : T.Later c d) : T.Follows d T.Steps
      (do call tail v (← args.mapM (m.eval · frame none)) frame)
      (do call' tail w (← args'.mapM (m'.eval · frame none)) frame) := by
    refine (mapM (R := T.values) T.stable_values (T.all_later later same) ?_).bind ?_
    · exact fun e further _ _ known => engines.eval (T.values_later further known)
        (T.frames_later (T.trans later further) shown) none
    · exact fun e further _ _ values =>
        calls e (T.trans later further) _ _ _ _ (T.values_later (T.trans later further) known) values
  cases T.matches_of_values known with
  | procedure p q =>
    refine (T.procedure known).bind fun d later p q procedures => ?_
    cases procedures with
    | expander closures =>
      refine (expand engines closures (T.all_later later same)).bind ?_
      intro e further _ _ expansion
      exact engines.inTail tail expansion (T.frames_later (T.trans later further) shown) none
    | _ => exact goesOn later
  | _ => exact refused

theorem formWith (definitions : T.Definitions m m') (same : T.values c v w) :
    T.Follows c T.Steps (formWith call m v frame tail)
      (LazyLisp.formWith call' m' w frame tail) := by
  refine (engines.car same).bind fun d later head head' headSame => ?_
  refine (engines.cdr (T.values_later later same)).bind fun e further rest rest' restSame => ?_
  refine (engines.arguments restSame).bind fun f last args args' argsSame => ?_
  have since := T.trans later (T.trans further last)
  have shown := T.frames_later since shown
  rw [(T.matches_of_values headSame).symbol?_eq]
  cases head'.symbol?.bind SpecialForm.ofName? with
  | some form => exact runForm engines tail shown definitions form argsSame
  | none =>
    have head := T.values_later (T.trans further last) headSame
    refine (engines.eval head shown _).bind fun g latest _ _ known => ?_
    exact applicationWith engines tail (T.frames_later latest shown)
      (calls.later (T.trans since latest)) known (T.all_later latest argsSame)

theorem stepWith (definitions : T.Definitions m m') (same : T.values c v w) :
    T.Follows c T.Steps (stepWith call m v frame tail)
      (LazyLisp.stepWith call' m' w frame tail) := by
  have formed := formWith engines tail shown calls definitions same
  have done : T.Follows c T.Steps (pure (.value v)) (pure (.value w)) :=
    .pure fun d later => .value (T.values_later later same)
  cases T.matches_of_values same with
  | atom a =>
    cases a with
    | symbol name => exact (lookup shown name).yields
    | _ => exact done
  | pair _ _ => exact formed
  | lazyPair _ => exact formed
  | _ => exact done

omit calls in
theorem step (traced : T.Traced) (definitions : T.Definitions m m') (same : T.values c v w) :
    T.Follows c T.Steps (step m v frame tail) (LazyLisp.step m' w frame tail) := by
  refine stepWith engines tail shown ?_ definitions same
  intro d later f g args args' known same
  exact apply engines same traced tail known (T.callers_later later (T.callers_of_frames shown))

end Steps

end Simulation

end LazyLisp
