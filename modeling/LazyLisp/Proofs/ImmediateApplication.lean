import LazyLisp.Proofs.ArgumentBinding
import LazyLisp.Proofs.BodyForms
import LazyLisp.Proofs.SharedNames

/-!
A `let` form is a lambda form that is applied where it stands.

The two go through different steps. The application makes a closure that nothing else can refer to,
and both make pairs for a body of several forms, at different times. So all that is made behind these
gets other names, and nothing else is different.
-/

namespace LazyLisp

/-- The form `(let ((name expr) ...) form ...)`. -/
inductive IsLet (pairs : List (String × Value)) (forms : List Value) (v : Value) : Prop where
  | intro {bindings : Value} {items : List Value} :
      Spine v (.symbol "let" :: bindings :: forms) .nil → Spine bindings items .nil →
      List.Forall₂ (fun item p => Spine item [.symbol p.1, p.2] .nil) items pairs →
      IsLet pairs forms v

/-- The form `((lambda (name ...) form ...) expr ...)`. -/
inductive IsApplication (pairs : List (String × Value)) (forms : List Value) (v : Value) : Prop where
  | intro {head params : Value} : Spine v (head :: pairs.map (·.2)) .nil →
      Spine head (.symbol "lambda" :: params :: forms) .nil →
      Spine params (pairs.map fun p => .symbol p.1) .nil → IsApplication pairs forms v

def Store.enter (s : Store) (outer : FrameId) (names : List String) (values : List Value) : Store :=
  s.pushFrame ⟨some outer, Frame.bindEach [] (names.zip values)⟩

def evaluateEach (w : World) (fuel : Nat) (room : Option Nat) (exprs : List Value)
    (frame : FrameId) : Run (List Value) := exprs.mapM (evaluate w fuel room · frame none)

section Forms

variable {w : World} {fuel : Nat} {room : Option Nat} {pairs : List (String × Value)}
  {forms exprs : List Value} {v : Value} {frame : FrameId} {s : Store}

theorem sourced_evaluateEach (w : World) (fuel : Nat) (room : Option Nat) (exprs : List Value)
    (frame : FrameId) : (evaluateEach w fuel room exprs frame).Sourced :=
  .mapM (fun expr => .evaluate w fuel room expr frame none) exprs

theorem evaluateEach_of_le (finished : Finished (evaluateEach w fuel room exprs frame s)) {more : Nat}
    (less : fuel ≤ more) :
    evaluateEach w more room exprs frame s = evaluateEach w fuel room exprs frame s :=
  eq_of_moreFuel (Likeness.mapM (fun expr => (moreFuel_engines w less room).eval expr frame none) _)
    finished

theorem length_of_mapM {α β : Type} {f : α → Run β} {items : List α} {results : List β}
    {s t : Store} (ended : items.mapM f s = .ok results t) : results.length = items.length := by
  induction items generalizing results s with
  | nil =>
    cases ended
    rfl
  | cons item items ih =>
    rw [List.mapM_cons] at ended
    obtain ⟨b, u, -, rest⟩ := Run.of_bind_ok ended
    obtain ⟨bs, x, others, same⟩ := Run.of_bind_ok rest
    cases same
    rw [List.length_cons, List.length_cons, ih others]

theorem mapM_runBinding_of_spines (m : Engine) (frame : FrameId) {items : List Value}
    (spines : List.Forall₂ (fun item p => Spine item [.symbol p.1, p.2] .nil) items pairs) :
    items.mapM (SpecialForm.runBinding m frame) =
      ((pairs.map (·.2)).mapM (m.eval · frame none) >>= fun values =>
        pure ((pairs.map (·.1)).zip values)) := by
  induction spines with
  | nil => rfl
  | @cons item p items pairs spine _ ih =>
    rw [List.mapM_cons, runBinding_of_spine m spine, ih, List.map_cons, List.mapM_cons]
    simp only [bind_assoc, pure_bind]
    rfl

theorem step_isLet (isLet : IsLet pairs forms v) (m : Engine) (frame : FrameId) (s : Store) :
    step m v frame true s = ((pairs.map (·.2)).mapM (m.eval · frame none) >>= fun values t =>
      (bodyExpr forms >>= fun body => pure (.tail body t.frames.size none))
        (t.enter frame (pairs.map (·.1)) values)) s := by
  obtain ⟨spine, list, spines⟩ := isLet
  refine (step_of_spine rfl spine m frame true s).trans ?_
  refine (Run.bind_of_ok (items_of_spine m _ _ list s)).trans ?_
  rw [mapM_runBinding_of_spines m frame spines, bind_assoc]
  refine congrFun (bind_congr fun values => funext fun t => ?_) s
  rw [pure_bind]
  have opened : Run.newFrame frame t = .ok t.frames.size (t.pushFrame ⟨some frame, []⟩) := rfl
  refine (Run.bind_of_ok opened).trans ?_
  exact Run.bind_of_ok (forIn_defineEach [] _ t)

theorem evaluate_isLambda (fits : Fits 1 room) {head params : Value}
    (spine : Spine head (.symbol "lambda" :: params :: forms) .nil)
    (names : Spine params (pairs.map fun p => .symbol p.1) .nil) (frame : FrameId) (s : Store) :
    ∃ c count, c.signature = ⟨pairs.map (·.1), none⟩ ∧ IsBody (splitDoc forms).2 c.body ∧
      c.frame = frame ∧ c.name = none ∧ ∀ w fuel,
        evaluate w (fuel + 1) room head frame none s = .ok (.procedure s.procedures.size)
          { s.pushProcedure (.closure c) with nextMark := s.nextMark + count } := by
  obtain ⟨body, count, isBody, made⟩ := exists_bodyExpr (splitDoc forms).2 s
  let sig : Signature := ⟨pairs.map (·.1), none⟩
  have spelled : sig.datum.Spells params := by
    refine @Signature.spells_datum params (pairs.map (·.1)) _ ?_ none rfl
    rwa [List.map_map]
  refine ⟨⟨sig, body, frame, none, (splitDoc forms).1⟩, count, rfl, isBody, rfl, rfl, ?_⟩
  intro w fuel
  refine evaluate_of_value fits.descend ?_
  refine (step_of_spine rfl spine _ frame true s).trans (Run.map_of_ok ?_)
  have closed : SpecialForm.makeClosure (.evaluating w fuel (lower 1 room)) frame none params forms s =
      .ok ⟨sig, body, frame, none, (splitDoc forms).1⟩ { s with nextMark := s.nextMark + count } := by
    refine (Run.bind_of_ok (signature_of_spells _ spelled s)).trans ?_
    exact Run.bind_of_ok made
  exact Run.bind_of_ok closed

/-- An application goes on with the body of the closure, which nothing has touched. -/
theorem apply_closure (fits : Fits 1 room) {ref : Nat} {c : Closure}
    (held : s.procedures[ref]? = some (.closure c)) {names : List String}
    (signature : c.signature = ⟨names, none⟩) {values : List Value}
    (count : values.length = names.length) (w : World) (fuel : Nat) (frame : FrameId) :
    Call.apply (.evaluating w fuel room) true (.procedure ref) values frame s =
      .ok (.tail c.body s.frames.size c.name) (s.enter c.frame names values) := by
  have accepts : c.signature.accepts values.length = true := by
    simp [signature, Signature.accepts, count]
  have bound := Signature.bind_of_accepts accepts c.frame s
  rw [signature] at bound
  rw [apply_eq _ fits.descend]
  refine (Run.bind_of_ok (procedure_of_held held)).trans ?_
  change Call.closure _ true c values s = _
  rw [Call.closure, signature]
  exact Run.bind_of_ok bound

section Runs

variable {name : Option String} {t : Store} {values : List Value}

theorem evaluate_isLet_of_error (fits : Fits 1 room) (isLet : IsLet pairs forms v) {e : Interrupt}
    (failed : evaluateEach w fuel (lower 1 room) (pairs.map (·.2)) frame s = .error e t) :
    withoutTrace (evaluate w (fuel + 1) room v frame name s) = .error e.untraced t := by
  have stepped := step_isLet isLet (.evaluating w fuel (lower 1 room)) frame s
  rw [evaluate_of_error fits.descend (stepped.trans (Run.bind_of_error failed))]
  exact (sourced_evaluateEach w fuel _ _ _).withoutTrace_leaving failed _ _ _

/-- How a `let` form is evaluated if the names of its bindings have values. -/
theorem evaluate_isLet_of_ok (fits : Fits 1 room) (isLet : IsLet pairs forms v) (t : Store)
    (values : List Value) : ∃ body count, IsBody forms body ∧ ∀ fuel,
      evaluateEach w fuel (lower 1 room) (pairs.map (·.2)) frame s = .ok values t →
      evaluate w (fuel + 1) room v frame name s =
        evaluate w fuel room body t.frames.size none
          { t.enter frame (pairs.map (·.1)) values with nextMark := t.nextMark + count } := by
  obtain ⟨body, count, isBody, made⟩ :=
    exists_bodyExpr forms (t.enter frame (pairs.map (·.1)) values)
  refine ⟨body, count, isBody, fun fuel ended => ?_⟩
  have stepped := step_isLet isLet (.evaluating w fuel (lower 1 room)) frame s
  exact evaluate_of_tail fits.descend
    (stepped.trans ((Run.bind_of_ok ended).trans (Run.bind_of_ok made)))

theorem evaluate_isApplication (fits : Fits 2 room) (isApplication : IsApplication pairs forms v)
    (frame : FrameId) (s : Store) :
    ∃ c count, IsBody (splitDoc forms).2 c.body ∧ ∀ w fuel name,
      let operands := evaluateEach w (fuel + 1) (lower 1 room) (pairs.map (·.2)) frame
      let made := { s.pushProcedure (.closure c) with nextMark := s.nextMark + count }
      (∀ e t, operands made = .error e t →
        withoutTrace (evaluate w (fuel + 2) room v frame name s) = .error e.untraced t) ∧
      ∀ values t, operands made = .ok values t →
        t.procedures[s.procedures.size]? = some (.closure c) →
        evaluate w (fuel + 2) room v frame name s =
          evaluate w (fuel + 1) room c.body t.frames.size none
            (t.enter frame (pairs.map (·.1)) values) := by
  obtain @⟨head, params, spine, lambda, names⟩ := isApplication
  obtain ⟨c, count, signature, isBody, inside, unnamed, closed⟩ :=
    evaluate_isLambda fits.lower lambda names frame s
  refine ⟨c, count, isBody, fun w fuel name => ?_⟩
  intro operands made
  let m : Engine := .evaluating w (fuel + 1) (lower 1 room)
  have stepped : step m v frame true s = (operands >>= fun values =>
      Call.apply m true (.procedure s.procedures.size) values frame) made := by
    cases spine with
    | cons rest =>
      have plain : head.symbol?.bind SpecialForm.ofName? = none := by
        cases lambda
        rfl
      rw [step_pair]
      refine (Run.bind_of_ok (items_of_spine m _ _ rest s)).trans ?_
      rw [plain]
      refine (Run.bind_of_ok (closed w fuel)).trans ?_
      refine applicationWith_of_canCall ⟨s.procedures.size, .closure c, rfl, ?_, rfl⟩ _ _
      exact s.getElem?_pushProcedure _
  have deeper := (fits.mono (Nat.le_succ 1)).descend
  constructor
  · intro e t failed
    rw [evaluate_of_error deeper (stepped.trans (Run.bind_of_error failed))]
    exact (sourced_evaluateEach w _ _ _ _).withoutTrace_leaving failed _ _ _
  · intro values t ended held
    have length : values.length = (pairs.map (·.1)).length := by
      rw [length_of_mapM ended, List.length_map, List.length_map]
    have applied := apply_closure fits.lower held signature length w (fuel + 1) frame
    rw [inside, unnamed] at applied
    exact evaluate_of_tail deeper (stepped.trans ((Run.bind_of_ok ended).trans applied))

end Runs

end Forms

namespace Renaming

variable {ρ : Renaming} {s t t' : Store}

theorem evaluateEach {c : Store} (w : World) (fuel : Nat) (room : Option Nat) {exprs exprs' : List Value}
    (same : (ρ.upTo c).All exprs exprs') (frame : FrameId) :
    ρ.Follows c All (LazyLisp.evaluateEach w fuel room exprs frame)
      (LazyLisp.evaluateEach w fuel room exprs' frame) :=
  Following.mapM (T := ρ.following) relations.stable_values same (fun _ later _ _ known _ le =>
    evaluate w fuel room (le.values (later.values known)) frame none) c (.refl _)

theorem evaluateForms {c : Store} (w : World) (fuel : Nat) (room : Option Nat)
    {forms forms' : List Value} (same : (ρ.upTo c).All forms forms') (frame : FrameId) :
    ρ.Follows c Values (LazyLisp.evaluateForms w fuel room forms frame)
      (LazyLisp.evaluateForms w fuel room forms' frame) := by
  refine (runSequence (blind_evaluating ρ w fuel _) true frame same).bind fun d older x y steps => ?_
  cases steps with
  | value known => exact .value known
  | tail frame name known => exact evaluate w fuel room known frame name

theorem Outcomes.finished {α β : Type} {c : Store} {R : Renaming → α → β → Prop}
    {r : EStateM.Result Interrupt Store α} {r' : EStateM.Result Interrupt Store β}
    (ended : ρ.Outcomes c R r r') : Finished r ↔ Finished r' := by
  cases ended with
  | ok => exact ⟨fun _ => finished_ok _ _, fun _ => finished_ok _ _⟩
  | @error e e' t t' _ same _ =>
    have alike : e = .outOfFuel ↔ e' = .outOfFuel := by
      cases same with
      | fault => simp
      | same => rfl
    constructor
    · intro finished
      exact finished_error (fun out => finished t (by rw [alike.mpr out])) t'
    · intro finished
      exact finished_error (fun out => finished t' (by rw [alike.mp out])) t

theorem Interrupts.untraced {σ : Renaming} {e e' : Interrupt} (same : σ.Interrupts e e') :
    σ.Interrupts e.untraced e'.untraced := by
  cases same with
  | fault faults => exact .fault { faults with trace := .nil, elided := rfl }
  | @same e plain =>
    cases e with
    | fault f => cases plain
    | _ => exact .same rfl

theorem Outcomes.withoutTrace {c : Store} {R : Renaming → Value → Value → Prop}
    {r r' : EStateM.Result Interrupt Store Value} (ended : ρ.Outcomes c R r r') :
    ρ.Outcomes c R (LazyLisp.withoutTrace r) (LazyLisp.withoutTrace r') := by
  cases ended with
  | ok older same stores => exact .ok older same stores
  | error older same stores => exact .error older same.untraced stores

theorem exists_closure (closed : s.Closed) (c : Closure) (count : Nat) :
    ∃ ρ : Renaming, ρ.Keeps s ∧ ρ.spare s.procedures.size = some (.closure c) ∧
      ρ.Stores s { s.pushProcedure (.closure c) with nextMark := s.nextMark + count } := by
  have marked : (closed.skipMarks 0 count).Stores s { s with nextMark := s.nextMark + count } :=
    closed.stores_skipMarks 0 count
  have keeps := (keeps_unchanged s).skipMarks (.refl s) closed 0 count
  refine ⟨marked.skipProcedure (.closure c), keeps.skipProcedure (.refl s) marked _, ?_,
    marked.stores_skipProcedure (.closure c)⟩
  exact if_pos rfl

/-- Both computations have made a frame for the same names, and the first one more pairs. -/
theorem exists_frame (keeps : ρ.Keeps s) (older : Older s t) (stores : ρ.Stores t t')
    {values values' : List Value} (same : (ρ.upTo t).All values values') {names : List String}
    (length : values.length = names.length) (frame : FrameId) (count : Nat) :
    ∃ σ : Renaming, σ.Keeps s ∧
      σ.Stores { t.enter frame names values with nextMark := t.nextMark + count }
        (t'.enter frame names values') := by
  have bound := bind ⟨names, none⟩ same frame t t' (.refl t) stores
  rw [Signature.bind_of_accepts (by simp [Signature.accepts, length]),
    Signature.bind_of_accepts (by simp [Signature.accepts, ← same.length_eq, length])] at bound
  cases bound with
  | ok later _ entered =>
    exact ⟨entered.skipMarks count 0, keeps.skipMarks (older.trans later) entered count 0,
      entered.stores_skipMarks count 0⟩

end Renaming

/-- The outcomes are the same but for the forms that a fault has left and the names of what has been
made since. -/
def Store.Agree (s : Store) (r r' : EStateM.Result Interrupt Store Value) : Prop :=
  ∃ ρ : Renaming, ρ.Keeps s ∧ ρ.Outcomes s Renaming.Values (withoutTrace r) (withoutTrace r')

/-- Both forms have come to their bodies, in frames with the same names. -/
inductive Entered (w : World) (fuel fuel' : Nat) (room : Option Nat) (forms : List Value) (s : Store) :
    EStateM.Result Interrupt Store Value → EStateM.Result Interrupt Store Value → Prop where
  | intro {ρ : Renaming} {t t' : Store} {body body' : Value} (frame : FrameId) :
      ρ.Keeps s → Older s t → ρ.Stores t t' → IsBody forms body →
      IsBody (splitDoc forms).2 body' →
      Entered w fuel fuel' room forms s (evaluate w fuel room body frame none t)
        (evaluate w fuel' room body' frame none t')

structure Opened (room : Option Nat) (pairs : List (String × Value)) (forms : List Value) (u : Value)
    (frame : FrameId) (s made : Store) (body : Value) (ρ : Renaming) : Prop where
  keeps : ρ.Keeps s
  stores : ρ.Stores s made
  isBody : IsBody (splitDoc forms).2 body
  failed : ∀ w fuel name e t,
    evaluateEach w (fuel + 1) (lower 1 room) (pairs.map (·.2)) frame made = .error e t →
    withoutTrace (evaluate w (fuel + 2) room u frame name s) = .error e.untraced t
  ended : ∀ w fuel name values t t', ρ.Stores t t' →
    evaluateEach w (fuel + 1) (lower 1 room) (pairs.map (·.2)) frame made = .ok values t' →
    evaluate w (fuel + 2) room u frame name s =
      evaluate w (fuel + 1) room body t'.frames.size none
        (t'.enter frame (pairs.map (·.1)) values)

section Agreement

variable {w : World} {fuel fuel' : Nat} {room : Option Nat} {pairs : List (String × Value)}
  {forms : List Value} {u v body : Value} {frame : FrameId} {name : Option String}
  {s made : Store} {ρ : Renaming} {r r' : EStateM.Result Interrupt Store Value}

theorem exists_opened (fits : Fits 2 room) (closed : s.Closed)
    (isApplication : IsApplication pairs forms u) (frame : FrameId) :
    ∃ made body ρ, Opened room pairs forms u frame s made body ρ := by
  obtain ⟨c, count, isBody, runs⟩ := evaluate_isApplication fits isApplication frame s
  obtain ⟨ρ, keeps, spare, stores⟩ := Renaming.exists_closure closed c count
  refine ⟨_, c.body, ρ, keeps, stores, isBody, fun w fuel name => (runs w fuel name).1, ?_⟩
  intro w fuel name values t t' related ended
  exact (runs w fuel name).2 values t' ended (related.spare spare)

namespace Opened

variable (opened : Opened room pairs forms u frame s made body ρ)

include opened

theorem operands (owned : ∀ p ∈ pairs, s.Owns p.2) (w : World) (fuel : Nat) :
    ρ.Outcomes s Renaming.All (evaluateEach w fuel (lower 1 room) (pairs.map (·.2)) frame s)
      (evaluateEach w fuel (lower 1 room) (pairs.map (·.2)) frame made) := by
  refine Renaming.evaluateEach w fuel _ (opened.keeps.all (.refl s) ?_) frame s made (.refl s)
    opened.stores
  intro expr member
  obtain ⟨p, inside, rfl⟩ := List.mem_map.mp member
  exact owned p inside

theorem agree_or_entered (fits : Fits 2 room) (isLet : IsLet pairs forms v)
    (operands : ρ.Outcomes s Renaming.All
      (evaluateEach w fuel (lower 1 room) (pairs.map (·.2)) frame s)
      (evaluateEach w (fuel' + 1) (lower 1 room) (pairs.map (·.2)) frame made)) :
    s.Agree (evaluate w (fuel + 1) room v frame name s)
        (evaluate w (fuel' + 2) room u frame name s) ∨
      Entered w fuel (fuel' + 1) room forms s (evaluate w (fuel + 1) room v frame name s)
        (evaluate w (fuel' + 2) room u frame name s) := by
  have less := fits.mono (Nat.le_succ 1)
  generalize first : evaluateEach w fuel _ _ frame s = x at operands
  generalize second : evaluateEach w (fuel' + 1) _ _ frame made = y at operands
  cases operands with
  | @error e e' t t' older same stores =>
    refine .inl ⟨ρ, opened.keeps, ?_⟩
    rw [evaluate_isLet_of_error less isLet first, opened.failed w fuel' name e' t' second]
    exact .error older same.untraced stores
  | @ok values values' t t' older same stores =>
    obtain ⟨expr, count, isBody, runs⟩ := evaluate_isLet_of_ok less isLet t values
    have length : values.length = (pairs.map (·.1)).length := by
      rw [length_of_mapM first, List.length_map, List.length_map]
    obtain ⟨σ, keeps, entered⟩ :=
      Renaming.exists_frame opened.keeps older stores same length frame count
    rw [runs fuel first, opened.ended w fuel' name values' t t' stores second,
      ← stores.frames.size_eq]
    refine .inr (.intro _ keeps ?_ entered isBody opened.isBody)
    exact ⟨Nat.le_trans older.marks (Nat.le_add_right _ _), older.procedures⟩

end Opened

namespace Entered

theorem forms_follow (owned : ∀ form ∈ forms, s.Owns form) (keeps : ρ.Keeps s) {t t' : Store}
    (older : Older s t) (stores : ρ.Stores t t') (fits : Fits 2 room) (w : World) (fuel : Nat)
    (frame : FrameId) :
    ρ.Outcomes s Renaming.Values (evaluateForms w fuel room forms frame t)
      (evaluateForms w fuel room (splitDoc forms).2 frame t') := by
  rw [evaluateForms_splitDoc fits]
  have follows := Renaming.evaluateForms w fuel room (keeps.all (.refl s) owned) frame
  exact (follows t t' older stores).since older

variable (owned : ∀ form ∈ forms, s.Owns form) (fits : Fits 2 room)

include owned fits

theorem agree_of_left (entered : Entered w fuel (fuel + 1) room forms s r r')
    (finished : Finished r) : s.Agree r r' := by
  obtain @⟨ρ, t, t', body, body', frame, keeps, older, stores, isBody, isBody'⟩ := entered
  have less := fits.mono (Nat.le_succ 1)
  have left := evaluateForms_of_body less isBody finished
  have follows := forms_follow owned keeps older stores fits w fuel frame
  have ends := follows.finished.mp (finished_withoutTrace left.symm finished)
  refine ⟨ρ, keeps, ?_⟩
  rw [← left, body_of_evaluateForms less isBody' ends]
  exact follows.withoutTrace

theorem agree_of_right (entered : Entered w (fuel + 1) fuel room forms s r r')
    (finished : Finished r') : s.Agree r r' := by
  obtain @⟨ρ, t, t', body, body', frame, keeps, older, stores, isBody, isBody'⟩ := entered
  have less := fits.mono (Nat.le_succ 1)
  have right := evaluateForms_of_body less isBody' finished
  have follows := forms_follow owned keeps older stores fits w fuel frame
  have ends := follows.finished.mpr (finished_withoutTrace right.symm finished)
  refine ⟨ρ, keeps, ?_⟩
  rw [body_of_evaluateForms less isBody ends, ← right]
  exact follows.withoutTrace

end Entered

/-- What a fault of the operands makes of a form shows whether they have an end. -/
theorem finished_of_failed {α : Type} {x : EStateM.Result Interrupt Store α}
    (failed : ∀ e t, x = .error e t → withoutTrace r = .error e.untraced t)
    (finished : Finished r) : Finished x := by
  rintro t rfl
  have same : withoutTrace r = withoutTrace (.error .outOfFuel t) := failed _ t rfl
  exact finished_withoutTrace same finished t rfl

/-- A `let` form and the application of a lambda form to the expressions of its bindings, in one
store and frame: where one of them has an end, so has the other one, with two more steps at most,
and the outcomes agree. -/
theorem let_agrees_with_application (w : World) (fits : Fits 2 room) (closed : s.Closed)
    (exprs : ∀ p ∈ pairs, s.Owns p.2) (bodies : ∀ form ∈ forms, s.Owns form)
    (isLet : IsLet pairs forms v) (isApplication : IsApplication pairs forms u) (fuel : Nat)
    (frame : FrameId) (name : Option String) :
    (Finished (evaluate w fuel room v frame name s) →
      s.Agree (evaluate w fuel room v frame name s)
        (evaluate w (fuel + 1) room u frame name s)) ∧
    (Finished (evaluate w fuel room u frame name s) →
      s.Agree (evaluate w (fuel + 2) room v frame name s)
        (evaluate w fuel room u frame name s)) := by
  obtain ⟨made, body, ρ, opened⟩ := exists_opened fits closed isApplication frame
  have less := fits.mono (Nat.le_succ 1)
  constructor
  · intro finished
    cases fuel with
    | zero => exact absurd rfl (finished s)
    | succ fuel =>
      have ends := finished_of_failed
        (fun e t failed => evaluate_isLet_of_error less isLet failed) finished
      have operands := opened.operands exprs w (fuel + 1)
      rw [evaluateEach_of_le ends (Nat.le_succ fuel)] at operands
      rcases opened.agree_or_entered fits isLet operands with agree | entered
      · exact agree
      · exact entered.agree_of_left bodies fits finished
  · intro finished
    cases fuel with
    | zero => exact absurd rfl (finished s)
    | succ fuel =>
      have later := evaluate_of_le finished (Nat.le_add_right (fuel + 1) 1)
      rw [← later] at finished ⊢
      have operands := opened.operands exprs w (fuel + 1)
      have ends := operands.finished.mpr (finished_of_failed
        (fun e t failed => opened.failed w fuel name e t failed) finished)
      rw [← evaluateEach_of_le ends (Nat.le_succ (fuel + 1))] at operands
      rcases opened.agree_or_entered fits isLet operands with agree | entered
      · exact agree
      · exact entered.agree_of_right bodies fits finished

end Agreement

def capture : Value := .pair 0 (.symbol "lambda") (.pair 1 .nil (.pair 2 (.symbol "x") .nil))

def letCapture : Value :=
  .pair 3 (.symbol "let") (.pair 4 (.pair 5
      (.pair 6 (.symbol "x") (.pair 7 (.atom (.int 1)) .nil))
      (.pair 8 (.pair 9 (.symbol "x") (.pair 10 (.atom (.int 2)) .nil)) .nil))
    (.pair 11 (.string "text") (.pair 12 capture .nil)))

def applyCapture : Value :=
  .pair 3 (.pair 4 (.symbol "lambda") (.pair 5
      (.pair 6 (.symbol "x") (.pair 7 (.symbol "x") .nil))
      (.pair 8 (.string "text") (.pair 9 capture .nil))))
    (.pair 10 (.atom (.int 1)) (.pair 11 (.atom (.int 2)) .nil))

/-- A new store, and a closure that the body returns: the one that the application makes for itself
comes before it. -/
theorem let_agrees_with_application_capture :
    let s := { Store.empty with nextMark := 3 }
    Fits 2 none ∧ s.Closed ∧
      IsLet [("x", .atom (.int 1)), ("x", .atom (.int 2))] [.string "text", capture] letCapture ∧
      IsApplication [("x", .atom (.int 1)), ("x", .atom (.int 2))] [.string "text", capture]
        applyCapture ∧
      (after (evaluate bareWorld 3 none letCapture 0 none s)).procedures.size = 1 ∧
      (after (evaluate bareWorld 4 none applyCapture 0 none s)).procedures.size = 2 ∧
      s.Agree (evaluate bareWorld 3 none letCapture 0 none s)
        (evaluate bareWorld 4 none applyCapture 0 none s) := by
  intro s
  have fits : Fits 2 none := fits_none 2
  have closed : s.Closed := Renaming.Stores.mark Store.closed_empty 3
  have isLet : IsLet [("x", .atom (.int 1)), ("x", .atom (.int 2))] [.string "text", capture]
      letCapture := by
    refine .intro (.cons (.cons (.cons (.cons .nil)))) (.cons (.cons .nil)) ?_
    exact .cons (.cons (.cons .nil)) (.cons (.cons (.cons .nil)) .nil)
  have isApplication : IsApplication [("x", .atom (.int 1)), ("x", .atom (.int 2))]
      [.string "text", capture] applyCapture :=
    .intro (.cons (.cons (.cons .nil))) (.cons (.cons (.cons (.cons .nil)))) (.cons (.cons .nil))
  have exprs : ∀ p ∈ [("x", Value.atom (.int 1)), ("x", .atom (.int 2))], s.Owns p.2 := by
    simp only [List.forall_mem_cons]
    exact ⟨.atom _, .atom _, nofun⟩
  have bodies : ∀ form ∈ [Value.string "text", capture], s.Owns form := by
    simp only [List.forall_mem_cons]
    refine ⟨.atom _, ?_, nofun⟩
    have made (k : Nat) (inside : k < 3) : (Renaming.unchanged.upTo s).marks k k := ⟨inside, rfl⟩
    exact .pair (made 0 (by decide)) (.atom _)
      (.pair (made 1 (by decide)) (.atom _) (.pair (made 2 (by decide)) (.atom _) (.atom _)))
  have finished : Finished (evaluate bareWorld 3 none letCapture 0 none s) := by
    rintro t ⟨⟩
  refine ⟨fits, closed, isLet, isApplication, rfl, rfl, ?_⟩
  exact (let_agrees_with_application bareWorld fits closed exprs bodies isLet isApplication 3 0
    none).1 finished

end LazyLisp
