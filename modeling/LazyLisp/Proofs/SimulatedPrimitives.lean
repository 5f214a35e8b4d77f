import LazyLisp.Proofs.SimulatedEngines

/-!
Primitives follow each other if engines and calls do. A primitive may be called from a frame in which
nothing is evaluated, since it only looks up names from there.
-/

namespace LazyLisp

/-- The primitives that show the forms that an error has left. -/
def Primitive.showsTrace : Primitive → Bool
  | errorTrace | dumpTraceback => true
  | _ => false

def Procedure.showsTrace : Procedure → Bool
  | primitive p => p.showsTrace
  | _ => false

namespace Simulation

open Following

variable {T : Simulation} {m m' : Engine} {c : T.Moment} {v w : Value} {args args' : List Value}
  {frame : FrameId} {α β : Type}

def Calls (T : Simulation) (c : T.Moment) (frame : FrameId) (call call' : Primitive.Caller) : Prop :=
  ∀ d, T.Later c d → ∀ f g args args', T.values d f g → T.All d args args' →
    T.Follows d T.Steps (call f args frame) (call' g args' frame)

theorem Calls.later {call call' : Primitive.Caller} {d : T.Moment}
    (calls : T.Calls c frame call call') (later : T.Later c d) : T.Calls d frame call call' :=
  fun e further => calls e (T.trans later further)

section Arguments

variable (same : T.All c args args')

include same

theorem expect (name : String) (count : Nat) :
    T.Follows c T.Same (Primitive.expect name count args) (Primitive.expect name count args') := by
  unfold Primitive.expect
  rw [same.length_eq]
  exact .ite (fun _ => .same) fun _ => fail _ _

theorem expectBetween (name : String) (low high : Nat) :
    T.Follows c T.Same (Primitive.expectBetween name low high args)
      (Primitive.expectBetween name low high args') := by
  unfold Primitive.expectBetween
  rw [same.length_eq]
  exact .ite (fun _ => .same) fun _ => fail _ _

theorem argument (i : Nat) : T.Follows c T.values (Run.held args[i]?) (Run.held args'[i]?) := by
  induction same generalizing i with
  | nil => exact .dangling
  | cons first _ ih =>
    cases i with
    | zero => exact .value first
    | succ i => exact ih i

theorem one (name : String) :
    T.Follows c T.values (Primitive.one name args) (Primitive.one name args') :=
  (expect same _ _).andThen fun _ later _ => argument (T.all_later later same) 0

theorem two (name : String) :
    T.Follows c (fun d p q => T.values d p.1 q.1 ∧ T.values d p.2 q.2) (Primitive.two name args)
      (Primitive.two name args') := by
  refine (expect same _ _).andThen fun d later _ => ?_
  refine (argument (T.all_later later same) 0).bind fun e further v v' first => ?_
  refine (argument (T.all_later (T.trans later further) same) 1).bind fun f last w w' second => ?_
  exact .pure fun g latest =>
    ⟨T.values_later (T.trans last latest) first, T.values_later latest second⟩

theorem test (name : String) {holds : Value → Bool}
    (agree : ∀ {v w : Value}, v.Matches (fun _ _ => True) w → holds v = holds w) :
    T.Follows c T.values (Primitive.test name holds args) (Primitive.test name holds args') := by
  refine (one same name).bind fun d later v w known => ?_
  rw [agree (looks_matches known)]
  exact .atom _

omit same in
theorem isProcedureWith {holds : Procedure → Bool}
    (agree : ∀ {p q : Procedure}, p.isExpander = q.isExpander → holds p = holds q)
    (known : T.looks c v w) :
    T.Follows c T.Same (Primitive.isProcedureWith holds v) (Primitive.isProcedureWith holds w) := by
  cases T.matches_of_looks known with
  | procedure p q =>
    exact (T.glimpse known).bind fun d later p q procedures => .pure fun _ _ =>
      agree procedures.isExpander_eq
  | _ => exact .same

theorem newSymbol :
    T.Follows c T.values (Primitive.newSymbol args) (Primitive.newSymbol args') := by
  refine (expectBetween same _ _ _).andThen fun d later _ => ?_
  cases same with
  | nil => exact T.gensym d _
  | cons first _ =>
    cases T.matches_of_values first with
    | atom a =>
      cases a with
      | symbol start => exact T.gensym d _
      | string start => exact T.gensym d _
      | _ => exact fail _ _
    | _ => exact fail _ _

end Arguments

theorem getD_rel {a b : Option Value} (same : Option.Rel (T.values c) a b) :
    T.values c (a.getD .nil) (b.getD .nil) := by
  cases same with
  | some same => exact same
  | none => exact T.values_atom c _

theorem result {d : T.Moment} (r : Number.Result Number) (calculates : T.Later (T.calculating c) d) :
    T.Follows d T.Same (Primitive.result r) (Primitive.result r) := by
  refine Follows.later ?_ calculates
  cases r with
  | ok n => exact .same
  | error e => exact T.follows_throw rfl (T.possible_arithmetic c e)

section Primitives

variable (engines : T.Engines m m')

include engines

section Looks

variable (same : T.looks c v w)

include same

theorem failType {R : T.Moment → α → β → Prop} (name wanted : String) :
    T.Follows c R (Primitive.failType m name wanted v) (Primitive.failType m' name wanted w) :=
  (engines.readable same).andThen fun _ _ _ => fail _ _

theorem number (name : String) :
    T.Follows c T.Same (Primitive.number m name v) (Primitive.number m' name w) := by
  unfold Primitive.number
  rw [(T.matches_of_looks same).number?_eq]
  split
  · exact .same
  · exact failType engines same _ _

theorem text (name wanted : String) :
    T.Follows c T.Same (Primitive.text m name wanted v) (Primitive.text m' name wanted w) := by
  have refused : T.Follows c T.Same (Primitive.failType m name wanted v : Run String)
      (Primitive.failType m' name wanted w) := failType engines same name wanted
  cases T.matches_of_looks same with
  | atom a =>
    cases a with
    | string text => exact .same
    | _ => exact refused
  | _ => exact refused

theorem symbolName (name wanted : String) :
    T.Follows c T.Same (Primitive.symbolName m name wanted v)
      (Primitive.symbolName m' name wanted w) := by
  have refused : T.Follows c T.Same (Primitive.failType m name wanted v : Run String)
      (Primitive.failType m' name wanted w) := failType engines same name wanted
  cases T.matches_of_looks same with
  | atom a =>
    cases a with
    | symbol text => exact .same
    | _ => exact refused
  | _ => exact refused

end Looks

/-- A form is read from a value that should be an input. -/
theorem readFrom : T.looks c v w → T.Follows c T.values
    (match v with
      | .input ref => Run.readInput m.room ref
      | v => Primitive.failType m "read" "expecting an input port" v)
    (match w with
      | .input ref => Run.readInput m'.room ref
      | v => Primitive.failType m' "read" "expecting an input port" v) := by
  intro same
  have refused : T.Follows c T.values (Primitive.failType m "read" "expecting an input port" v)
      (Primitive.failType m' "read" "expecting an input port" w) := failType engines same _ _
  rw [engines.room]
  cases T.matches_of_looks same with
  | input ref => exact readInput _ _
  | _ => exact refused

theorem pair (name : String) (same : T.values c v w) :
    T.Follows c T.values (Primitive.pair m name v) (Primitive.pair m' name w) := by
  unfold Primitive.pair
  rw [(T.matches_of_values same).isPair_eq]
  exact .ite (fun _ => .value same) fun _ => failType engines (T.looks_of_values same) _ _

variable (same : T.All c args args')

include same

theorem numbers (name : String) :
    T.Follows c T.Same (Primitive.numbers m name args) (Primitive.numbers m' name args') :=
  mapMSame same fun _ later _ _ known =>
    number engines (T.looks_of_values (T.values_later later known)) name

theorem errorOf (name : String) :
    T.Follows c T.faults (Primitive.errorOf m name args) (Primitive.errorOf m' name args') := by
  refine (one same name).bind fun d later v w known => ?_
  have refused := failType (R := T.faults) engines (T.looks_of_values known) name
    "expecting an error value"
  cases T.matches_of_values known with
  | error ref => exact T.errorFault d ref
  | _ => exact refused

section Arithmetic

variable {b : T.Moment} (calculates : T.Later (T.calculating b) c)

include calculates

theorem sum : T.Follows c T.Same (Primitive.sum m args) (Primitive.sum m' args') :=
  (numbers engines same _).andThen fun _ later _ =>
    foldlM (fun _ further _ _ => result _ (T.trans calculates (T.trans later further))) _ _

theorem product : T.Follows c T.Same (Primitive.product m args) (Primitive.product m' args') :=
  (numbers engines same _).andThen fun _ later _ =>
    foldlM (fun _ further _ _ => result _ (T.trans calculates (T.trans later further))) _ _

theorem difference :
    T.Follows c T.Same (Primitive.difference m args) (Primitive.difference m' args') := by
  cases same with
  | nil => exact fail _ _
  | cons first rest =>
    refine (numbers engines (.cons first rest) _).andThen fun d later ns => ?_
    have calculates := T.trans calculates later
    split
    · exact .same
    · exact foldlM (fun _ further _ _ => result _ (T.trans calculates further)) _ _
    · exact .dangling

theorem quotient :
    T.Follows c T.Same (Primitive.quotient m args) (Primitive.quotient m' args') := by
  cases same with
  | nil => exact fail _ _
  | cons first rest =>
    refine (numbers engines (.cons first rest) _).andThen fun d later ns => ?_
    have calculates := T.trans calculates later
    split
    · exact result _ calculates
    · exact foldlM (fun _ further _ _ => result _ (T.trans calculates further)) _ _
    · exact .dangling

theorem remainder :
    T.Follows c T.Same (Primitive.remainder m args) (Primitive.remainder m' args') := by
  refine (two same "mod").bind ?_
  rintro d later ⟨v, w⟩ ⟨v', w'⟩ ⟨first, second⟩
  refine (number engines (T.looks_of_values first) "mod").andThen fun e further a => ?_
  have second := T.looks_of_values (T.values_later further second)
  refine (number engines second "mod").andThen fun f last b => ?_
  exact result _ (T.trans calculates (T.trans later (T.trans further last)))

end Arithmetic

theorem compare (name : String) (holds : Ordering → Bool) :
    T.Follows c T.values (Primitive.compare m name holds args)
      (Primitive.compare m' name holds args') :=
  (numbers engines same name).andThen fun _ _ _ => .atom _

theorem isBoundIn (frame : FrameId) :
    T.Follows c T.values (Primitive.isBoundIn m frame args)
      (Primitive.isBoundIn m' frame args') := by
  refine (one same _).bind fun d later v w known => ?_
  refine (symbolName engines (T.looks_of_values known) _ _).andThen fun e further name => ?_
  refine (T.glance? e frame name).bind fun f last found found' known => ?_
  cases known with
  | none => exact .atom _
  | some _ => exact .atom _

theorem texts : T.Follows c T.Same (Primitive.texts m args) (Primitive.texts m' args') := by
  refine (mapMSame same fun _ later _ _ known => ?_).andThen fun _ _ _ => .same
  exact engines.plain (T.looks_of_values (T.values_later later known))

theorem print : T.Follows c T.values
    (do Run.write m.world (← Primitive.texts m args); return .nil)
    (do Run.write m'.world (← Primitive.texts m' args'); return .nil) := by
  rw [engines.world]
  refine (texts engines same).andThen fun d _ text => ?_
  exact (T.output _ text).andThen fun _ _ _ => .atom _

theorem printLine : T.Follows c T.values
    (do Run.writeLine m.world (← Primitive.texts m args); return .nil)
    (do Run.writeLine m'.world (← Primitive.texts m' args'); return .nil) := by
  rw [engines.world]
  refine (texts engines same).andThen fun d _ text => ?_
  exact (T.outputLine _ text).andThen fun _ _ _ => .atom _

theorem allTexts (name wanted : String) :
    T.Follows c T.Same (args.mapM (Primitive.text m name wanted))
      (args'.mapM (Primitive.text m' name wanted)) :=
  mapMSame same fun _ later _ _ known =>
    text engines (T.looks_of_values (T.values_later later known)) _ _

theorem dump (traced : T.Traced) :
    T.Follows c T.values (Primitive.dump m args) (Primitive.dump m' args') := by
  refine (errorOf engines same _).bind fun d later f g faults => ?_
  rw [engines.room, engines.world]
  have written (report : Store.Written) {e : T.Moment} : T.Follows e T.values
      (do Run.writeLine m'.world (← Run.ofWritten report); return .nil : Run Value)
      (do Run.writeLine m'.world (← Run.ofWritten report); return .nil) :=
    (ofWritten _).andThen fun f _ _ => (T.outputLine _ _).andThen fun _ _ _ => .atom _
  exact (T.report traced faults _).andThen fun _ _ report => written report

theorem raise : T.Follows c T.values (Primitive.raise m args) (Primitive.raise m' args') := by
  have again {d : T.Moment} (later : T.Later c d) : T.Follows d T.values
      (do throw (.fault (← m.again (← Primitive.errorOf m "throw-error" args))) : Run Value)
      (do throw (.fault (← m'.again (← Primitive.errorOf m' "throw-error" args')))) := by
    refine (errorOf engines (T.all_later later same) _).bind fun e further f g known => ?_
    exact (engines.again known).bind fun _ _ _ _ known => T.follows_throwFault known
  refine (expectBetween same _ _ _).andThen fun d later _ => ?_
  match same with
  | .nil | .cons _ .nil | .cons _ (.cons _ (.cons _ _)) => exact again later
  | .cons first (.cons second .nil) =>
    have fresh {e : T.Moment} (further : T.Later d e) (kind : String) : T.Follows e T.values
        (do throw (.fault (← m.fault kind (some _))) : Run Value)
        (do throw (.fault (← m'.fault kind (some _)))) :=
      (engines.fault kind (T.values_later (T.trans later further) second)).bind
        fun _ _ _ _ faults => T.follows_throwFault faults
    have refused : T.Follows d T.Same (Primitive.failType m _ _ _ : Run String) _ :=
      failType engines (T.looks_of_values (T.values_later later first)) "throw-error"
        "kind must be a symbol"
    have refuses := refused.andThen fun e further kind => fresh further kind
    cases T.matches_of_values first with
    | atom a =>
      cases a with
      | symbol kind => exact Follows.same.andThen fun e further kind => fresh further kind
      | string kind => exact Follows.same.andThen fun e further kind => fresh further kind
      | _ => exact refuses
    | _ => exact refuses

theorem readForm (frame : FrameId) :
    T.Follows c T.values (Primitive.readForm m frame args)
      (Primitive.readForm m' frame args') := by
  refine (expectBetween same _ _ _).andThen fun d later _ => ?_
  cases same with
  | nil => exact (glance _ _).bind fun e further v w known => readFrom engines known
  | cons first _ =>
    exact (Follows.value (T.values_later later first)).bind fun e further v w known =>
      readFrom engines (T.looks_of_values known)

theorem loadPath (called : T.callers c frame) :
    T.Follows c T.values (Primitive.loadPath m frame args)
      (Primitive.loadPath m' frame args') := by
  refine (one same _).bind fun d later v w known => ?_
  refine (text engines (T.looks_of_values known) _ _).andThen fun e further path => ?_
  rw [engines.world, engines.room]
  refine loadFile _ _ ?_ (T.callers_later (T.trans later further) called) _ _
  exact fun f last v w frame known shown => engines.eval known shown none

theorem applyTo {call call' : Primitive.Caller} (calls : T.Calls c frame call call') :
    T.Follows c T.Steps (Primitive.applyTo m call frame args)
      (Primitive.applyTo m' call' frame args') := by
  refine (two same "apply").bind ?_
  rintro d later ⟨f, operands⟩ ⟨g, operands'⟩ ⟨first, second⟩
  refine (engines.items _ _ second).bind fun e further items items' known => ?_
  exact calls e (T.trans later further) f g _ _ (T.values_later further first) known

omit engines in
theorem evalForm (called : T.callers c frame) : T.Follows c T.Steps
    (do return Step.tail (← Primitive.one "eval" args) (← Run.topLevel frame) none)
    (do return Step.tail (← Primitive.one "eval" args') (← Run.topLevel frame) none) := by
  refine (one same _).bind fun d later v w known => ?_
  refine (T.topLevel (T.callers_later later called)).bind ?_
  rintro e further top _ ⟨rfl, inside⟩
  exact .pure fun f last =>
    .tail _ (T.frames_later last inside) (T.values_later (T.trans further last) known)

omit engines same in
theorem listForms {entries entries' : List TraceEntry}
    (same : List.Forall₂ (fun a b => T.values c a.form b.form) entries entries') :
    T.Follows c T.values (Run.list (entries.map (·.form))) (Run.list (entries'.map (·.form))) :=
  Simulation.list (List.forall₂_map_left_iff.mpr (List.forall₂_map_right_iff.mpr same))

omit engines in
theorem ofOne (name : String) {f g : Value → Run Value}
    (each : ∀ d v w, T.values d v w → T.Follows d T.values (f v) (g w)) :
    T.Follows c T.Steps (Primitive.value (Primitive.one name args >>= f))
      (Primitive.value (Primitive.one name args' >>= g)) :=
  ((one same name).bind fun d _ v w => each d v w).yields

omit engines in
theorem ofTwo (name : String) {f g : Value × Value → Run Value}
    (each : ∀ d v w v' w', T.values d v w → T.values d v' w' →
      T.Follows d T.values (f (v, v')) (g (w, w'))) :
    T.Follows c T.Steps (Primitive.value (Primitive.two name args >>= f))
      (Primitive.value (Primitive.two name args' >>= g)) :=
  ((two same name).bind fun d _ p q known => each d p.1 q.1 p.2 q.2 known.1 known.2).yields

theorem ofError (name : String) {f g : Fault → Run Value}
    (each : ∀ d a b, T.faults d a b → T.Follows d T.values (f a) (g b)) :
    T.Follows c T.Steps (Primitive.value (Primitive.errorOf m name args >>= f))
      (Primitive.value (Primitive.errorOf m' name args' >>= g)) :=
  ((errorOf engines same name).bind fun d _ a b => each d a b).yields

omit engines same in
/-- A computation that yields the same to both, and the value made of it. -/
theorem made {x y : Run α} {f : α → Run Value} (first : T.Follows c T.Same x y)
    (each : ∀ d a, T.Follows d T.values (f a) (f a)) :
    T.Follows c T.Steps (Primitive.value (x >>= f)) (Primitive.value (y >>= f)) :=
  (first.andThen fun d _ a => each d a).yields

/-- Primitives follow each other where arithmetic may have no result. -/
theorem runPrimitive {b : T.Moment} (calculates : T.Later (T.calculating b) c)
    {call call' : Primitive.Caller} (calls : T.Calls c frame call call') (called : T.callers c frame)
    (p : Primitive) (shown : T.Traced ∨ p.showsTrace = false) :
    T.Follows c T.Steps (p.run m call frame args) (p.run m' call' frame args') := by
  have traced (shows : p.showsTrace = true) : T.Traced := by
    rcases shown with traced | hidden
    · exact traced
    · cases shows.symm.trans hidden
  cases p with
  | add => exact made (sum engines same calculates) T.ofNumber
  | sub => exact made (difference engines same calculates) T.ofNumber
  | mul => exact made (product engines same calculates) T.ofNumber
  | div => exact made (quotient engines same calculates) T.ofNumber
  | mod => exact made (remainder engines same calculates) T.ofNumber
  | numEq | lt | le | gt | ge => exact (compare engines same _ _).yields
  | not => exact (test same _ fun known => congrArg _ known.isTruthy_eq).yields
  | isCons | isPair => exact (test same _ Value.Matches.isPair_eq).yields
  | isNull => exact (test same _ Value.Matches.isNil_eq).yields
  | isSymbol => exact (test same _ fun known => congrArg _ known.symbol?_eq).yields
  | isString | isChar => exact (test same _ fun known => known.isKind_eq _).yields
  | isNumber => exact (test same _ fun known => congrArg _ known.number?_eq).yields
  | isError => exact (test same _ Value.Matches.isErrorValue_eq).yields
  | isBound => exact (isBoundIn engines same frame).yields
  | same =>
    refine ofTwo same _ fun d v w v' w' first second => ?_
    simp only [T.isSame_eq first second]
    exact .atom _
  | equal =>
    exact ofTwo same _ fun d v w v' w' first second =>
      (Simulation.equal engines first second).andThen fun _ _ _ => .atom _
  | isList =>
    exact ofOne same _ fun d v w known => (engines.isProperList known).andThen fun _ _ _ => .atom _
  | isProcedure =>
    exact ofOne same _ fun d v w known =>
      (isProcedureWith (congrArg _) (T.looks_of_values known)).andThen fun _ _ _ => .atom _
  | isExpander =>
    exact ofOne same _ fun d v w known =>
      (isProcedureWith id (T.looks_of_values known)).andThen fun _ _ _ => .atom _
  | cons => exact ofTwo same _ fun d v w v' w' first second => T.cons first second
  | car =>
    exact ofOne same _ fun d v w known =>
      (pair engines _ known).bind fun _ _ _ _ known => engines.car known
  | cdr =>
    exact ofOne same _ fun d v w known =>
      (pair engines _ known).bind fun _ _ _ _ known => engines.cdr known
  | list => exact (Simulation.list same).yields
  | apply => exact applyTo engines same calls
  | eval => exact evalForm same called
  | expand => exact ofOne same _ fun d v w known => expandFully engines known frame
  | expandOnce => exact ofOne same _ fun d v w known => Simulation.expandOnce engines known frame
  | gensym => exact (newSymbol same).yields
  | loadFile => exact (loadPath engines same called).yields
  | raiseError => exact (raise engines same).yields
  | errorType => exact ofError engines same _ fun d f g faults => T.kind_eq faults ▸ .atom _
  | errorValue =>
    exact ofError engines same _ fun d f g faults => .value (getD_rel (T.value_rel faults))
  | errorSource =>
    exact ofError engines same _ fun d f g faults => .value (getD_rel (T.source_rel faults))
  | errorTrace =>
    exact ofError engines same _ fun d f g faults => listForms (T.trace_rel (traced rfl) faults)
  | dumpTraceback => exact (dump engines same (traced rfl)).yields
  | stringAppend => exact made (allTexts engines same _ _) fun _ _ => .atom _
  | symbolToString =>
    exact ofOne same _ fun d v w known =>
      (symbolName engines (T.looks_of_values known) _ _).andThen fun _ _ _ => .atom _
  | stringToSymbol =>
    exact ofOne same _ fun d v w known =>
      (text engines (T.looks_of_values known) _ _).andThen fun _ _ _ => .atom _
  | repr =>
    exact ofOne same _ fun d v w known =>
      (engines.readable (T.looks_of_values known)).andThen fun _ _ _ => .atom _
  | print => exact (print engines same).yields
  | printLine => exact (printLine engines same).yields
  | read => exact (readForm engines same frame).yields
  | openInputString =>
    exact ofOne same _ fun d v w known =>
      (text engines (T.looks_of_values known) _ _).andThen fun e _ _ => T.newInput e _

end Primitives

end Simulation

end LazyLisp
