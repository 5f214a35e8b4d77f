import LazyLisp.Proofs.Recording

/-!
Tracebacks.

A fault notes the forms that it leaves up to a limit, and counts the others. What it has to account
for is told by a complete run: there a fault notes every form, an error that is raised again goes on
with all that it had noted, and the limit only stands between the errors and the procedures that
show them. A run with a limit is the complete run as the limit lets one see it.
-/

namespace LazyLisp

namespace Fault

/-- Note that the fault leaves a form, however many it has left. -/
def note (f : Fault) (form : Value) (name : Option String) : Fault :=
  { f with source := f.source <|> some form, trace := f.trace.push ⟨form, name⟩ }

/-- What a limit lets one see of a fault that has noted more. -/
def limited (limit : Nat) (f : Fault) : Fault :=
  { f with trace := f.trace.take limit, elided := f.elided + (f.trace.size - limit) }

def IsRescue (f : Fault) : Prop :=
  ∃ mark args, f.untraced = rescue (.pair mark (.symbol "catch-error") args)

/-- The fault has noted every form that it has left, and its source is the first of them, unless it
was made where evaluation ran out of room. -/
structure Complete (f : Fault) : Prop where
  elided : f.elided = 0
  begins : f.IsRescue ∨ f.source = f.trace[0]?.map (·.form)

theorem size_limited (limit : Nat) (f : Fault) :
    (f.limited limit).trace.size = min limit f.trace.size := by
  simp [limited]

/-- What a limit shows is the same whether it is kept from form to form or set at the end. -/
theorem limited_note (limit : Nat) (f : Fault) (form : Value) (name : Option String) :
    (f.note form name).limited limit = (f.limited limit).leave form name limit := by
  rcases Nat.lt_or_ge f.trace.size limit with room | full
  · simp [limited, note, leave, room, Nat.succ_le_of_lt room, Nat.sub_eq_zero_of_le, Nat.le_of_lt room]
  · have counted : f.trace.size + 1 - limit = f.trace.size - limit + 1 := by omega
    simp [limited, note, leave, full, counted, Nat.add_assoc]

theorem Fresh.limited {f : Fault} (fresh : f.Fresh) (limit : Nat) : f.limited limit = f := by
  have none (f : Fault) (empty : f.trace = #[]) : f.limited limit = f := by
    obtain ⟨kind, value, summary, source, trace, elided, cause, offset⟩ := f
    obtain rfl : trace = #[] := empty
    simp [Fault.limited]
  cases fresh with
  | raised _ empty _ => exact none f empty
  | rescue => exact none _ rfl

theorem Fresh.complete {f : Fault} (fresh : f.Fresh) : f.Complete := by
  cases fresh with
  | raised source empty elided =>
    refine ⟨elided, .inr ?_⟩
    rw [source, empty]
    rfl
  | @rescue mark args => exact ⟨rfl, .inl ⟨mark, args, rfl⟩⟩

theorem Complete.again {f : Fault} {summary : String} (complete : f.Complete)
    (shown : f.ShownAs summary) : (f.again summary).Complete := by
  refine ⟨complete.elided, complete.begins.imp ?_ id⟩
  rintro ⟨mark, args, same⟩
  have kind : f.kind = Kind.recursionError := congrArg Fault.kind same
  have value : f.value = some (.string "maximum recursion depth exceeded") :=
    congrArg Fault.value same
  have text := shown _ value
  rw [kind, value] at text
  obtain rfl : Kind.recursionError ++ ": " ++ "maximum recursion depth exceeded" = summary :=
    Except.ok.inj text
  exact ⟨mark, args, congrArg (Fault.again · _) same⟩

theorem Complete.note {f : Fault} (complete : f.Complete) (form : Value) (name : Option String) :
    (f.note form name).Complete := by
  refine ⟨complete.elided, complete.begins.imp ?_ ?_⟩
  · rintro ⟨mark, args, same⟩
    refine ⟨mark, args, ?_⟩
    have source : f.source = some (.pair mark (.symbol "catch-error") args) :=
      congrArg Fault.source same
    have kept : (f.source <|> some form) = f.source := by rw [source]; rfl
    rw [← same]
    exact congrArg (fun source => { f.untraced with source }) kept
  · intro begins
    change (f.source <|> some form) = (f.trace.push ⟨form, name⟩)[0]?.map (·.form)
    rw [begins, Array.getElem?_push]
    rcases Nat.eq_zero_or_pos f.trace.size with empty | left
    · rw [if_pos empty.symm, Array.getElem?_eq_none (Nat.le_of_eq empty)]
      rfl
    · rw [if_neg (Nat.ne_of_lt left), Array.getElem?_eq_getElem left]
      rfl

end Fault

/-- What a limit lets one see of the errors. -/
def Store.limited (limit : Nat) (s : Store) : Store :=
  { s with errors := s.errors.map (Fault.limited limit) }

def Run.viewing {α : Type} (limit : Nat) (x : Run α) : Run α := fun s =>
  match x (s.limited limit) with
  | .ok a t => .ok a { t with errors := s.errors }
  | .error e t => .error e { t with errors := s.errors }

/-- The recorder of a complete run. Whoever looks at the store sees the errors as the limit shows
them. -/
def Recorder.complete (limit : Nat) (watch : Run Unit) : Recorder where
  passes := Run.viewing limit watch
  leaves := Fault.note
  shows := Run.viewing limit

/-- A run, watched from store to store, in which faults note all the forms that they leave: one for
each evaluation that a fault ends. -/
def evaluateComplete (w : World) (watch : Run Unit) :
    (fuel : Nat) → (room : Option Nat) → Value → FrameId → Option String → Run Value :=
  (Recorder.complete w.traceLimit.toNat watch).evaluate w

/-- A computation leaves the errors alone, and the faults that it raises are new. -/
structure Run.Reads {α : Type} (x : Run α) : Prop where
  errors : ∀ s, (after (x s)).errors = s.errors
  raises : ∀ s f t, x s = .error (.fault f) t → f.Fresh

namespace Run.Reads

variable {α β : Type} {x : Run α} {f : α → Run β}

theorem pure (a : α) : Reads (pure a : Run α) := ⟨fun _ => rfl, by rintro s f t ⟨⟩⟩

theorem throw {e : Interrupt} (plain : e.isFault = false) : Reads (throw e : Run α) := by
  refine ⟨fun _ => rfl, ?_⟩
  rintro s f t ⟨⟩
  cases plain

theorem bind (first : x.Reads) (rest : ∀ a, (f a).Reads) : (x >>= f).Reads := by
  constructor
  · intro s
    have kept := first.errors s
    change (after (EStateM.bind x f s)).errors = _
    unfold EStateM.bind
    cases ended : x s with
    | ok a t =>
      rw [ended] at kept
      exact ((rest a).errors t).trans kept
    | error e t =>
      rw [ended] at kept
      exact kept
  · intro s g u raised
    rcases Run.of_bind_error raised with raised | ⟨a, t, -, raised⟩
    · exact first.raises s g u raised
    · exact (rest a).raises t g u raised

theorem map {f : α → β} (first : x.Reads) : (f <$> x).Reads := by
  rw [map_eq_pure_bind]
  exact first.bind fun _ => pure _

theorem look {f : Store → Run β} (rest : ∀ s, (f s).Reads) : (get >>= f).Reads :=
  bind ⟨fun _ => rfl, by rintro s f t ⟨⟩⟩ rest

theorem modifyGet {f : Store → α × Store} (errors : ∀ s, (f s).2.errors = s.errors) :
    Reads (modifyGet f : Run α) :=
  ⟨errors, by rintro s f t ⟨⟩⟩

theorem throwFresh {f : Fault} (fresh : f.Fresh) :
    Reads (MonadExcept.throw (.fault f) : Run α) := by
  refine ⟨fun _ => rfl, ?_⟩
  rintro s f t ⟨⟩
  exact fresh

theorem fail (kind message : String) : Reads (Run.fail kind message : Run α) :=
  throwFresh (.raised rfl rfl rfl)

theorem held (found : Option α) : (Run.held found).Reads := by
  cases found with
  | some a => exact pure a
  | none => exact throw rfl

theorem ofWritten (text : Except WriteFailure α) : (Run.ofWritten text).Reads := by
  unfold Run.ofWritten
  split
  · exact pure _
  all_goals exact throw rfl

theorem list (items : List Value) : (Run.list items).Reads := modifyGet fun _ => rfl

theorem write (w : World) (text : String) : (Run.write w text).Reads := by
  unfold Run.write
  split
  · exact modifyGet fun _ => rfl
  · exact throw rfl

theorem errorOf (m : Engine) (name : String) (args : List Value) :
    (Primitive.errorOf m name args).Reads := by
  refine bind (bind ?_ fun _ => held _) fun v => ?_
  · unfold Primitive.expect
    split
    · exact pure ()
    · exact fail _ _
  · split
    · exact look fun _ => held _
    · exact bind (look fun _ => ofWritten _) fun _ => fail _ _

theorem catchArithmetic {x : Run Step} (reads : x.Reads) (name : String) :
    (Call.catchArithmetic name x).Reads := by
  constructor
  · intro s
    rw [← reads.errors s, Call.catchArithmetic]
    split
    · next ended => rw [ended]; rfl
    · rfl
  · intro s f t raised
    rw [Call.catchArithmetic] at raised
    split at raised
    · cases raised
      exact .raised rfl rfl rfl
    · exact reads.raises s f t raised

end Run.Reads

theorem Call.runWith_of_value {m : Engine} {again : Primitive.Caller} {tail : Bool}
    {args : List Value} {frame : FrameId} {p : Primitive} {x : Run Value}
    (value : p.run m again frame args = .value <$> x) :
    runWith m again tail args frame (.primitive p) = catchArithmetic p.name (.value <$> x) := by
  funext s
  change EStateM.bind (catchArithmetic p.name (p.run m again frame args)) _ s = _
  rw [value, catchArithmetic_eq_either]
  simp only [EStateM.bind, Run.either, Functor.map, EStateM.map]
  cases x s with
  | ok v t => rfl
  | error e t =>
    cases e with
    | breakdown b => cases b <;> rfl
    | _ => rfl

theorem Primitive.errorOf_of_room {m m' : Engine} (same : m.room = m'.room) (name : String)
    (args : List Value) : errorOf m name args = errorOf m' name args := by
  unfold errorOf failType Engine.readable
  rw [same]

/-- The procedures that show what faults have noted take nothing of the engine but its surroundings
and the room, and only read the errors. -/
theorem Call.reads_of_showsTrace {m m' : Engine} (same : m.room = m'.room)
    (world : m.world = m'.world) (again again' : Primitive.Caller) (tail : Bool) (args : List Value) (frame : FrameId)
    {p : Procedure} (shows : p.showsTrace = true) :
    runWith m' again' tail args frame p = runWith m again tail args frame p ∧
      (runWith m again tail args frame p).Reads := by
  have of_value {p : Primitive} {x : Engine → Run Value}
      (value : ∀ m again, p.run m again frame args = .value <$> x m) (rooms : x m' = x m)
      (reads : (x m).Reads) :
      runWith m' again' tail args frame (.primitive p) =
          runWith m again tail args frame (.primitive p) ∧
        (runWith m again tail args frame (.primitive p)).Reads := by
    rw [runWith_of_value (value m again), runWith_of_value (value m' again'), rooms]
    exact ⟨rfl, reads.map.catchArithmetic _⟩
  cases p with
  | primitive p =>
    cases p with
    | errorTrace =>
      refine of_value (x := fun m => do
        let f ← Primitive.errorOf m "error-trace" args
        Run.list (f.trace.toList.map (·.form))) (fun _ _ => rfl) ?_ ?_
      · simp only [Primitive.errorOf_of_room same]
      · exact (Run.Reads.errorOf m _ args).bind fun _ => .list _
    | dumpTraceback =>
      refine of_value (x := fun m => Primitive.dump m args) (fun _ _ => rfl) ?_ ?_
      · simp only [Primitive.dump, Primitive.errorOf_of_room same, same, world]
      · refine (Run.Reads.errorOf m _ args).bind fun _ => .look fun _ => ?_
        refine (Run.Reads.ofWritten _).bind fun _ => Run.Reads.bind ?_ fun _ => .pure _
        exact (Run.Reads.write _ _).bind fun _ => .write _ _
    | _ => cases shows
  | _ => cases shows

def recording (limit : Nat) : Likeness :=
  { Likeness.exactly with
    faults f g := f = g.limited limit ∧ g.Complete
    fresh f isFresh := ⟨(isFresh.limited limit).symm, isFresh.complete⟩
    untraced := by
      rintro _ g ⟨rfl, -⟩
      rfl
    again := by
      rintro _ g summary ⟨rfl, complete⟩ shown
      exact ⟨rfl, complete.again shown⟩
    lost_faults _ _ _ _ lost := lost.elim }

theorem eq_limited_of_stores {limit : Nat} {s s' : Store}
    (alike : (recording limit).Stores s s') : s = s'.limited limit := by
  cases alike with
  | @intro errors same _ =>
    have errors : s.errors = errors.map (Fault.limited limit) := by
      refine Array.ext_getElem? fun ref => ?_
      rw [Array.getElem?_map]
      rcases same.cases ref with ⟨first, second⟩ | ⟨f, g, first, second, rfl, -⟩
      · rw [first, second]
        rfl
      · rw [first, second]
        rfl
    rw [Store.limited]
    dsimp only
    rw [← errors]

theorem alike_viewing {α : Type} {limit : Nat} {x : Run α} (reads : x.Reads) :
    (recording limit).Alike Eq x (Run.viewing limit x) := by
  refine ⟨?_, fun _ lost => lost.elim⟩
  intro s s' stores
  have kept := reads.errors s
  have fresh := reads.raises s
  rw [Run.viewing, ← eq_limited_of_stores stores]
  have later {t : Store} (kept : t.errors = s.errors) :
      (recording limit).Stores t { t with errors := s'.errors } :=
    .intro (kept ▸ stores.errors) trivial
  cases ended : x s with
  | ok a t =>
    rw [ended] at kept
    exact .ok rfl (later kept)
  | error e t =>
    rw [ended] at kept
    refine .error ?_ (later kept)
    cases e with
    | fault f => exact .fault ((recording limit).fresh f (fresh f t ended))
    | _ => exact .same rfl

theorem OnlyLooks.reads {watch : Run Unit} (looks : OnlyLooks watch) : watch.Reads := by
  constructor
  · intro s
    rcases looks s with goesOn | ⟨e, -, ended⟩
    · rw [goesOn]
      rfl
    · rw [ended]
      rfl
  · intro s f t raised
    rcases looks s with goesOn | ⟨e, uncaught, ended⟩
    · rw [goesOn] at raised
      cases raised
    · rw [ended] at raised
      cases raised
      exact absurd rfl (uncaught.fault f)

theorem recording_recorders (limit : Nat) {watch : Run Unit} (looks : OnlyLooks watch) :
    (recording limit).Recorders (.watching limit watch) (.complete limit watch) where
  passes := alike_viewing looks.reads
  leaves := by
    rintro _ g form name ⟨rfl, complete⟩
    exact ⟨(Fault.limited_note limit g form name).symm, complete.note form name⟩
  shows := by
    intro m m' again again' alike _ tail args frame p shows
    obtain ⟨same, reads⟩ :=
      Call.reads_of_showsTrace alike.room alike.world again again' tail args frame shows
    change (recording limit).Alike Eq _ (Run.viewing limit _)
    rw [same]
    exact alike_viewing reads
  settles _ := ⟨fun _ _ _ => trivial, fun _ _ _ _ lost => lost⟩

/-- What a run has come to, and what the complete run has come to there. They start without errors;
they go on by evaluations, to the end or up to where a watch ends them, and by what leaves the errors
alone. -/
inductive Recorded (w : World) : Store → Store → Prop where
  | start {s} : s.errors = #[] → Recorded w s s
  | evaluated {s s' watch} (fuel room expr frame name) : Recorded w s s' → OnlyLooks watch →
      Recorded w (after (evaluateWatched w watch fuel room expr frame name s))
        (after (evaluateComplete w watch fuel room expr frame name s'))
  | changed {s s' t} : Recorded w s s' → t.errors = s.errors →
      Recorded w t { t with errors := s'.errors }

section Runs

variable {w : World} (allowed : 0 ≤ w.traceLimit) {watch : Run Unit} (looks : OnlyLooks watch)
  {s s' : Store}

include allowed looks

theorem outcomes_of_stores (stores : (recording w.traceLimit.toNat).Stores s s') (fuel : Nat)
    (room : Option Nat) (expr : Value) (frame : FrameId) (name : Option String) :
    (recording w.traceLimit.toNat).Outcomes Eq (evaluateWatched w watch fuel room expr frame name s)
      (evaluateComplete w watch fuel room expr frame name s') := by
  have alike := recording_recorders w.traceLimit.toNat looks
  rw [Int.toNat_of_nonneg allowed] at alike
  exact (alike.evaluate w fuel room expr frame name).outcomes s s' stores

theorem stores_after (stores : (recording w.traceLimit.toNat).Stores s s') (fuel : Nat)
    (room : Option Nat) (expr : Value) (frame : FrameId) (name : Option String) :
    (recording w.traceLimit.toNat).Stores
      (after (evaluateWatched w watch fuel room expr frame name s))
      (after (evaluateComplete w watch fuel room expr frame name s')) :=
  (outcomes_of_stores allowed looks stores fuel room expr frame name).stores (fun _ _ _ => id)
    fun _ => id

end Runs

theorem stores_of_recorded {w : World} (allowed : 0 ≤ w.traceLimit) {s s' : Store}
    (recorded : Recorded w s s') : (recording w.traceLimit.toNat).Stores s s' := by
  induction recorded with
  | @start s empty =>
    refine .intro ⟨rfl, ?_⟩ trivial
    intro ref f g found _
    rw [empty] at found
    cases found
  | evaluated fuel room expr frame name _ looks stores =>
    exact stores_after allowed looks stores fuel room expr frame name
  | changed _ errors stores => exact .intro (errors ▸ stores.errors) trivial

theorem noted_of_evaluateComplete {w : World} {fuel : Nat} {room : Option Nat} {expr : Value}
    {frame : FrameId} {name : Option String} {s t : Store} {f : Fault}
    (raised : evaluateComplete w (pure ()) fuel room expr frame name s = .error (.fault f) t) :
    ∃ (g : Fault) (form : Value) (inName : Option String), f = g.note form inName := by
  induction fuel generalizing expr frame name s with
  | zero => cases raised
  | succ fuel ih =>
    cases deeper : descend room with
    | none =>
      rw [evaluateComplete, Recorder.evaluate_full _ w fuel deeper] at raised
      cases raised
    | some inner =>
      rw [evaluateComplete, Recorder.evaluate_succ _ w fuel deeper] at raised
      change (Recorder.complete _ (pure ())).proceed _ expr name _ s = _ at raised
      unfold Recorder.proceed Run.either at raised
      split at raised
      · next step s' _ =>
        cases step with
        | value v => cases raised
        | tail expr frame name => exact ih raised
      · next e s' _ =>
        cases e with
        | fault g =>
          cases raised
          exact ⟨g, expr, name, rfl⟩
        | _ => cases raised

/-- What a fault tells of the forms that it has left: all of them, innermost first, if the limit
allows that many, and otherwise how many there are beyond the limit. `complete` has noted all. -/
structure Fault.Accounts (limit : Int) (f complete : Fault) : Prop where
  within : f.trace.size ≤ limit
  full : 0 < f.elided → f.trace.size = limit
  source : f.source.isSome = true
  count : f.trace.size + f.elided = complete.trace.size
  innermost : f.trace = complete.trace.take limit.toNat
  begins : 1 ≤ limit → ¬ f.IsRescue → f.trace[0]?.map (·.form) = f.source
  same : f.untraced = complete.untraced

theorem Fault.accounts_note {limit : Int} (allowed : 0 ≤ limit) {g : Fault} {form : Value}
    {name : Option String} (complete : (g.note form name).Complete) :
    ((g.note form name).limited limit.toNat).Accounts limit (g.note form name) := by
  obtain ⟨bound, rfl⟩ : ∃ bound : Nat, limit = bound := ⟨limit.toNat, by omega⟩
  rw [Int.toNat_natCast]
  have size := size_limited bound (g.note form name)
  have elided : ((g.note form name).limited bound).elided = (g.note form name).trace.size - bound := by
    rw [limited, complete.elided, Nat.zero_add]
  constructor
  · rw [size]
    omega
  · rw [size, elided]
    omega
  · change (g.source <|> some form).isSome = true
    cases g.source <;> rfl
  · rw [size, elided]
    omega
  · rfl
  · intro one other
    have left : 0 < (g.note form name).trace.size := by simp [note]
    have first : ((g.note form name).limited bound).trace[0]? = (g.note form name).trace[0]? := by
      change ((g.note form name).trace.extract 0 bound)[0]? = _
      rw [Array.getElem?_extract, if_pos (by omega)]
    rw [first]
    exact (complete.begins.resolve_left other).symm
  · rfl

/-- A fault that ends an evaluation accounts for every evaluation that it has ended, those before an
error value was raised again included; all else is as in the complete run, and so are the error
values, as the limit lets one see them. Whatever error value the evaluation comes to is still there,
unchanged, wherever it ends or is ended. -/
theorem evaluate_accounts {w : World} (allowed : 0 ≤ w.traceLimit) {s s' : Store}
    (recorded : Recorded w s s') (fuel : Nat) (room : Option Nat) (expr : Value) (frame : FrameId)
    (name : Option String) :
    (∀ f t, evaluate w fuel room expr frame name s = .error (.fault f) t →
      ∃ complete t',
        evaluateComplete w (pure ()) fuel room expr frame name s' = .error (.fault complete) t' ∧
        f.Accounts w.traceLimit complete) ∧
    after (evaluate w fuel room expr frame name s) =
      (after (evaluateComplete w (pure ()) fuel room expr frame name s')).limited
        w.traceLimit.toNat ∧
    ∀ ref f stop, OnlyLooks stop →
      ComesTo (Store.Remembers ref f) stop w fuel room expr frame name s →
      (after (evaluateWatched w stop fuel room expr frame name s)).Remembers ref f := by
  have stores := stores_of_recorded allowed recorded
  have ended := outcomes_of_stores allowed onlyLooks_pure stores fuel room expr frame name
  have later := stores_after allowed onlyLooks_pure stores fuel room expr frame name
  rw [evaluateWatched_pure] at ended later
  refine ⟨?_, eq_limited_of_stores later, fun _ _ _ looks comes => remembers_of_comesTo looks comes⟩
  intro f t raised
  rw [raised] at ended
  generalize complete : evaluateComplete w (pure ()) fuel room expr frame name s' = r at ended
  cases ended with
  | error same _ =>
    cases same with
    | fault same =>
      obtain ⟨rfl, isComplete⟩ := same
      obtain ⟨g, form, inName, rfl⟩ := noted_of_evaluateComplete complete
      exact ⟨_, _, rfl, Fault.accounts_note allowed isComplete⟩
    | same plain => cases plain
  | lost lost => exact (lost.false (fun _ _ _ => id) fun _ => id).elim

def narrowWorld : World := { bareWorld with traceLimit := 1 }

def raisingStore : Store :=
  after ((do Run.define 0 "throw-error" (← Run.newProcedure (.primitive .raiseError)) : Run Unit)
    .empty)

def caughtError : Value :=
  (Value.ofDatum 0 (Datum.list [.symbol "define", .symbol "e",
    Datum.list [.symbol "catch-error", Datum.list [.symbol "if"]]])).1

def caughtStore (eval : Nat → Option Nat → Value → FrameId → Option String → Run Value) : Store :=
  after (eval 5 none caughtError 0 none raisingStore)

def raisedAgain : Value :=
  (Value.ofDatum 6 (Datum.list [.symbol "throw-error", .symbol "e"])).1

def noted : EStateM.Result Interrupt Store Value → Option (Nat × Nat)
  | .error (.fault f) _ => some (f.trace.size, f.elided)
  | _ => none

theorem evaluate_accounts_raisedAgain :
    0 ≤ narrowWorld.traceLimit ∧
    Recorded narrowWorld (caughtStore (evaluate narrowWorld))
      (caughtStore (evaluateComplete narrowWorld (pure ()))) ∧
    (∃ f t complete t',
      evaluate narrowWorld 5 none raisedAgain 0 none (caughtStore (evaluate narrowWorld)) =
        .error (.fault f) t ∧
      evaluateComplete narrowWorld (pure ()) 5 none raisedAgain 0 none
        (caughtStore (evaluateComplete narrowWorld (pure ()))) = .error (.fault complete) t' ∧
      f.Accounts 1 complete ∧ f.trace.size = 1 ∧ f.elided = 1 ∧ complete.trace.size = 2) ∧
    ∃ f, (caughtStore (evaluate narrowWorld)).Remembers 0 f ∧
      (after (evaluate narrowWorld 5 none raisedAgain 0 none
        (caughtStore (evaluate narrowWorld)))).Remembers 0 f := by
  have allowed : 0 ≤ narrowWorld.traceLimit := by decide
  have recorded : Recorded narrowWorld (caughtStore (evaluate narrowWorld))
      (caughtStore (evaluateComplete narrowWorld (pure ()))) := by
    rw [← evaluateWatched_pure]
    exact .evaluated 5 none caughtError 0 none (.start rfl) onlyLooks_pure
  obtain ⟨accounts, -, remembers⟩ :=
    evaluate_accounts allowed recorded 5 none raisedAgain 0 none
  refine ⟨allowed, recorded, ?_, ?_⟩
  · have ended : noted (evaluate narrowWorld 5 none raisedAgain 0 none
        (caughtStore (evaluate narrowWorld))) = some (1, 1) := by decide +kernel
    generalize evaluate narrowWorld 5 none raisedAgain 0 none _ = r at accounts ended
    match r with
    | .error (.fault f) t =>
      obtain ⟨complete, t', raised, accounts⟩ := accounts f t rfl
      obtain ⟨one, elided⟩ : f.trace.size = 1 ∧ f.elided = 1 := by simpa [noted] using ended
      have count := accounts.count
      exact ⟨f, t, complete, t', rfl, raised, accounts, one, elided, by omega⟩
  · have one : (caughtStore (evaluate narrowWorld)).errors.size = 1 := by decide +kernel
    have kept := Array.getElem?_eq_getElem (one ▸ Nat.zero_lt_one)
    have later := remembers 0 _ (pure ()) onlyLooks_pure (.inl kept)
    rw [evaluateWatched_pure] at later
    exact ⟨_, kept, later⟩

end LazyLisp
