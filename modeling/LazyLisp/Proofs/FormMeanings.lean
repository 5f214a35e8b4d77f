import LazyLisp.Proofs.FormExpansion

/-!
What forms of the prelude mean, and what their expansions come to.

The meaning of a form is given by how its parts end, one after the other, each in the frame of the
form. What a form expands to comes to the ending that the meaning gives, and where the meaning gives
none, its evaluation has no end either.
-/

namespace LazyLisp

/-- What a step of evaluation may come to. -/
inductive Ending where
  | value (v : Value)
  /-- A form is next, in tail position. -/
  | tail (form : Value) (frame : FrameId)
  | failure (e : Interrupt)

def Ending.result : Ending → Store → EStateM.Result Interrupt Store Step
  | value v, t => .ok (.value v) t
  | tail form frame, t => .ok (.tail form frame none) t
  | failure e, t => .error e t

/-- The evaluation of a form comes to the ending. A failure has left some form before. -/
def Behaves (w : World) (room : Option Nat) (form : Value) (frame : FrameId) (name : Option String)
    (s : Store) : Ending → Store → Prop
  | .value v, t => Eventually fun fuel => evaluate w fuel room form frame name s = .ok v t
  | .tail next inner, t => Continues w room form frame name s next inner t
  | .failure e, t => ∃ last, Eventually fun fuel =>
    evaluate w fuel room form frame name s = leaving w.traceLimit last none e t

def Halts (w : World) (room : Option Nat) (form : Value) (frame : FrameId) (name : Option String)
    (s : Store) : Prop :=
  ∃ fuel, Finished (evaluate w fuel room form frame name s)

section Meanings

variable (w : World) (room : Option Nat) (frame : FrameId)

inductive Precedes (form : Value) (s : Store) (next : Value → Store → Ending → Store → Prop) :
    Ending → Store → Prop where
  | fails {e t} : Ends w (lower 1 room) form frame s (.error e t) →
      Precedes form s next (.failure e) t
  | goesOn {v t ending u} : Ends w (lower 1 room) form frame s (.ok v t) → next v t ending u →
      Precedes form s next ending u

def BodyComes : List Value → Store → Ending → Store → Prop
  | [], s, ending, t => ending = .value .nil ∧ t = s
  | [form], s, ending, t => ending = .tail form frame ∧ t = s
  | form :: next :: rest, s, ending, t =>
    Precedes w room frame form s (fun _ u ending t => BodyComes (next :: rest) u ending t) ending t

def BranchComes (taken : Bool) (body : List Value) (s : Store) (ending : Ending) (t : Store) :
    Prop :=
  if taken then BodyComes w room frame body s ending t else ending = .value .nil ∧ t = s

/-- `cond`: the tests are evaluated in order, up to the first that is truthy or `else`. -/
def CondComes : List (Value × List Value) → Store → Ending → Store → Prop
  | [], s, ending, t => ending = .value .nil ∧ t = s
  | (test, body) :: clauses, s, ending, t =>
    if test.isSymbolNamed "else" then BodyComes w room frame body s ending t
    else Precedes w room frame test s (fun v u ending t =>
      if v.isTruthy then BodyComes w room frame body u ending t
      else CondComes clauses u ending t) ending t

def TestComes (on : Bool) (test : Value) (body : List Value) (s : Store) (ending : Ending)
    (t : Store) : Prop :=
  Precedes w room frame test s (fun v u ending t =>
    BranchComes w room frame (v.isTruthy == on) body u ending t) ending t

def assertionFault (expr : Value) (summary : String) : Fault :=
  { kind := "assertion-error", value := some expr, summary }

def raising (expr : Value) : Store.Written → Interrupt
  | .ok text => .fault (assertionFault expr text)
  | .error .tooDeep => .overflow
  | .error .tooManyDigits => .breakdown .tooManyDigits
  | .error .endless => .outOfFuel

/-- `assert`: a new frame names the value of the expression. If it is truthy, that is the value;
otherwise the fault is raised, provided that `throw-error` is what it was. -/
def AssertComes (name : String) (expr : Value) (s : Store) (ending : Ending) (t : Store) : Prop :=
  Precedes w room frame expr s (fun v u ending t =>
    t = u.pushFrame ⟨some frame, [(name, v)]⟩ ∧
    if v.isTruthy then ending = .value v
    else ∃ owner ref, Frame.find? u.frames "throw-error" frame = some (owner, .procedure ref) ∧
      u.procedures[ref]? = some (.primitive .raiseError) ∧
      ending = .failure (raising expr (t.summary (lower 1 room) "assertion-error" (some expr))))
    ending t

end Meanings

theorem Precedes.mono {w : World} {room : Option Nat} {frame : FrameId} {form : Value} {s t : Store}
    {next next' : Value → Store → Ending → Store → Prop} {ending : Ending}
    (precedes : Precedes w room frame form s next ending t)
    (implies : ∀ v u ending t, next v u ending t → next' v u ending t) :
    Precedes w room frame form s next' ending t := by
  cases precedes with
  | fails ended => exact .fails ended
  | goesOn ended comes => exact .goesOn ended (implies _ _ _ _ comes)

section Endings

variable {w : World} {room : Option Nat} {form next : Value} {frame inner : FrameId}
  {name : Option String} {s t u : Store} {ending : Ending}

theorem Ends.endsIn {r : EStateM.Result Interrupt Store Value}
    (ended : Ends w room form frame s r) : EndsIn w room form frame s r := by
  obtain ⟨finished, fuel, rfl⟩ := ended
  exact ⟨fuel, fun more less => evaluate_of_le finished less⟩

theorem Eventually.of_add {P : Nat → Prop} {k : Nat} (holds : Eventually fun fuel => P (fuel + k)) :
    Eventually P := by
  obtain ⟨least, holds⟩ := holds
  refine ⟨least + k, fun fuel enough => ?_⟩
  have held : P (fuel - k + k) := holds (fuel - k) (by omega)
  rwa [Nat.sub_add_cancel (by omega)] at held

/-- What a form goes on with comes to the same ending. -/
theorem Continues.behaves (continues : Continues w room form frame name s next inner t)
    (behaves : Behaves w room next inner none t ending u) :
    Behaves w room form frame name s ending u := by
  obtain ⟨k, continues⟩ := continues
  cases ending with
  | value v =>
    refine .of_add (k := k) ((continues.both behaves).mono ?_)
    exact fun fuel both => both.1.trans both.2
  | failure e =>
    obtain ⟨last, behaves⟩ := behaves
    refine ⟨last, .of_add (k := k) ((continues.both behaves).mono ?_)⟩
    exact fun fuel both => both.1.trans both.2
  | tail last around =>
    obtain ⟨j, behaves⟩ := behaves
    refine ⟨j + k, ?_⟩
    have later : Eventually fun fuel => evaluate w (fuel + j + k) room form frame name s =
        evaluate w (fuel + j) room next inner none t := by
      obtain ⟨least, continues⟩ := continues
      exact ⟨least, fun fuel enough => continues (fuel + j) (by omega)⟩
    refine (later.both behaves).mono fun fuel both => ?_
    rw [← Nat.add_assoc]
    exact both.1.trans both.2

theorem Continues.halts (continues : Continues w room form frame name s next inner t)
    (halts : Halts w room form frame name s) : Halts w room next inner none t := by
  obtain ⟨k, least, continues⟩ := continues
  obtain ⟨fuel, finished⟩ := halts
  refine ⟨max least fuel, ?_⟩
  rw [← continues _ (by omega), evaluate_of_le finished (by omega)]
  exact finished

section Steps

variable {k : Nat} (fits : Fits (k + 1) room)

include fits

/-- The evaluation of a form comes to what its step comes to. -/
theorem behaves_of_step (stepped : Eventually fun fuel =>
      step (.evaluating w fuel (lower 1 room)) form frame true s = ending.result t) :
    Behaves w room form frame none s ending t := by
  cases ending with
  | value v =>
    exact .succ (stepped.mono fun fuel stepped => evaluate_of_value fits.descend stepped)
  | tail next inner =>
    exact ⟨1, stepped.mono fun fuel stepped => evaluate_of_tail fits.descend stepped⟩
  | failure e =>
    exact ⟨form, .succ (stepped.mono fun fuel stepped => evaluate_of_error fits.descend stepped)⟩

theorem Halts.step (halts : Halts w room form frame name s) :
    ∃ fuel, Finished (LazyLisp.step (.evaluating w fuel (lower 1 room)) form frame true s) := by
  obtain ⟨fuel, finished⟩ := halts
  cases fuel with
  | zero => exact absurd rfl (finished s)
  | succ fuel =>
    refine ⟨fuel, fun t lost => finished t ?_⟩
    rw [evaluate_of_error fits.descend lost]
    rfl

end Steps

/-- What is evaluated first comes to an end, and so does what is left if it has a value. -/
theorem ends_of_bind {fuel : Nat} {α : Type} {rest : Value → Run α}
    (finished : Finished ((evaluate w fuel room form frame none >>= rest) s)) :
    (∃ e t, Ends w room form frame s (.error e t)) ∨
      ∃ v t, Ends w room form frame s (.ok v t) ∧ Finished (rest v t) := by
  cases ended : evaluate w fuel room form frame none s with
  | error e t =>
    rw [Run.bind_of_error ended] at finished
    refine .inl ⟨e, t, ?_, fuel, ended⟩
    rintro u ⟨⟩
    exact finished _ rfl
  | ok v t =>
    rw [Run.bind_of_ok ended] at finished
    exact .inr ⟨v, t, ⟨finished_ok v t, fuel, ended⟩, finished⟩

end Endings

section Parts

variable {k : Nat} {w : World} {room : Option Nat} (fits : Fits (k + 1) room) {frame : FrameId}
  {v : Value} {forms : List Value} {s t : Store} {ending : Ending}

include fits

theorem behaves_nil (comes : ending = .value .nil ∧ t = s) :
    Behaves w room .nil frame none s ending t := by
  obtain ⟨rfl, rfl⟩ := comes
  exact behaves_of_step fits (.always fun _ => rfl)

section If

variable {test yes no : Value} (spine : Spine v [.symbol "if", test, yes, no] .nil)

include spine

/-- `if` comes to what the branch comes to that it chooses. -/
theorem behaves_if (comes : Precedes w room frame test s
      (fun c u => Behaves w room (if c.isTruthy then yes else no) frame none u) ending t) :
    Behaves w room v frame none s ending t := by
  have stepped := step_of_spine rfl spine
  cases comes with
  | fails ended =>
    apply behaves_of_step fits
    refine ended.endsIn.mono fun fuel ended => (stepped _ frame true s).trans ?_
    exact Run.bind_of_error ended
  | @goesOn c u _ _ ended behaves =>
    have chosen :
        Behaves w room v frame none s (.tail (if c.isTruthy then yes else no) frame) u := by
      apply behaves_of_step fits
      refine ended.endsIn.mono fun fuel ended => (stepped _ frame true s).trans ?_
      refine (Run.bind_of_ok ended).trans ?_
      by_cases truthy : c.isTruthy
      · rw [if_pos truthy, if_pos truthy]
        rfl
      · rw [if_neg truthy, if_neg truthy]
        rfl
    exact Continues.behaves chosen behaves

/-- Where `if` comes to an end, so do its test and the branch that it chooses. -/
theorem precedes_of_halts (halts : Halts w room v frame none s) {next : Value → Store → Ending →
      Store → Prop} (branch : ∀ c u, Halts w room (if c.isTruthy then yes else no) frame none u →
      ∃ ending t, next c u ending t) :
    ∃ ending t, Precedes w room frame test s next ending t := by
  obtain ⟨fuel, finished⟩ := halts.step fits
  rw [step_of_spine rfl spine] at finished
  rcases ends_of_bind finished with ⟨e, t, ended⟩ | ⟨c, t, ended, -⟩
  · exact ⟨_, t, .fails ended⟩
  · have chosen : Continues w room v frame none s (if c.isTruthy then yes else no) frame t := by
      have behaves : Behaves w room (if c.isTruthy then yes else no) frame none t
          (.tail (if c.isTruthy then yes else no) frame) t := ⟨0, .always fun _ => rfl⟩
      exact behaves_if fits spine (.goesOn ended behaves)
    obtain ⟨ending, u, comes⟩ := branch c t (chosen.halts halts)
    exact ⟨ending, u, .goesOn ended comes⟩

end If

omit fits in
theorem runSequence_of_comes (comes : BodyComes w room frame forms s ending t) :
    Eventually fun fuel => SpecialForm.runSequence (.evaluating w fuel (lower 1 room)) true frame
      forms s = ending.result t := by
  induction forms generalizing s with
  | nil =>
    obtain ⟨rfl, rfl⟩ := comes
    exact .always fun _ => rfl
  | cons form forms ih =>
    cases forms with
    | nil =>
      obtain ⟨rfl, rfl⟩ := comes
      exact .always fun _ => rfl
    | cons next rest =>
      cases comes with
      | fails ended => exact ended.endsIn.mono fun fuel ended => Run.bind_of_error ended
      | goesOn ended comes =>
        refine (ended.endsIn.both (ih comes)).mono fun fuel both => ?_
        exact (Run.bind_of_ok both.1).trans both.2

omit fits in
theorem comes_of_runSequence {fuel : Nat} (finished : Finished
      (SpecialForm.runSequence (.evaluating w fuel (lower 1 room)) true frame forms s)) :
    ∃ ending t, BodyComes w room frame forms s ending t := by
  induction forms generalizing s with
  | nil => exact ⟨_, s, rfl, rfl⟩
  | cons form forms ih =>
    cases forms with
    | nil => exact ⟨_, s, rfl, rfl⟩
    | cons next rest =>
      rcases ends_of_bind finished with ⟨e, t, ended⟩ | ⟨v, t, ended, finished⟩
      · exact ⟨_, t, .fails ended⟩
      · obtain ⟨ending, u, comes⟩ := ih finished
        exact ⟨ending, u, .goesOn ended comes⟩

section Sequence

variable (spine : Spine v (.symbol "begin" :: forms) .nil)

include spine

theorem behaves_sequence (comes : BodyComes w room frame forms s ending t) :
    Behaves w room v frame none s ending t := by
  apply behaves_of_step fits
  refine (runSequence_of_comes comes).mono fun fuel ran => ?_
  refine (step_of_spine rfl spine _ frame true s).trans ?_
  exact ran

theorem comes_of_halts_sequence (halts : Halts w room v frame none s) :
    ∃ ending t, BodyComes w room frame forms s ending t := by
  obtain ⟨fuel, finished⟩ := halts.step fits
  rw [step_of_spine rfl spine] at finished
  exact comes_of_runSequence finished

end Sequence

theorem behaves_body (isBody : IsBody forms v) (comes : BodyComes w room frame forms s ending t) :
    Behaves w room v frame none s ending t := by
  cases isBody with
  | empty => exact behaves_nil fits comes
  | one =>
    obtain ⟨rfl, rfl⟩ := comes
    exact ⟨0, .always fun _ => rfl⟩
  | several spine => exact behaves_sequence fits spine comes

theorem comes_of_halts_body (isBody : IsBody forms v) (halts : Halts w room v frame none s) :
    ∃ ending t, BodyComes w room frame forms s ending t := by
  cases isBody with
  | empty => exact ⟨_, s, rfl, rfl⟩
  | one => exact ⟨_, s, rfl, rfl⟩
  | several spine => exact comes_of_halts_sequence fits spine halts

theorem behaves_branch {taken : Bool} (isBranch : IsBranch taken forms v)
    (comes : BranchComes w room frame taken forms s ending t) :
    Behaves w room v frame none s ending t := by
  cases taken with
  | true => exact behaves_sequence fits isBranch comes
  | false =>
    obtain rfl : v = .nil := isBranch
    exact behaves_nil fits comes

theorem comes_of_halts_branch {taken : Bool} (isBranch : IsBranch taken forms v)
    (halts : Halts w room v frame none s) :
    ∃ ending t, BranchComes w room frame taken forms s ending t := by
  cases taken with
  | true => exact comes_of_halts_sequence fits isBranch halts
  | false => exact ⟨_, s, rfl, rfl⟩

theorem behaves_nests {clauses : List (Value × List Value)} (nests : Nests clauses v)
    (comes : CondComes w room frame clauses s ending t) :
    Behaves w room v frame none s ending t := by
  induction nests generalizing s ending t with
  | nil => exact behaves_nil fits comes
  | otherwise isElse isBody =>
    rw [CondComes, if_pos isElse] at comes
    exact behaves_body fits isBody comes
  | test isTest isBody _ spine ih =>
    rw [CondComes, isTest, if_neg Bool.false_ne_true] at comes
    refine behaves_if fits spine (comes.mono fun c u ending t comes => ?_)
    by_cases truthy : c.isTruthy
    · rw [if_pos truthy] at comes ⊢
      exact behaves_body fits isBody comes
    · rw [if_neg truthy] at comes ⊢
      exact ih comes

theorem comes_of_halts_nests {clauses : List (Value × List Value)} (nests : Nests clauses v)
    (halts : Halts w room v frame none s) :
    ∃ ending t, CondComes w room frame clauses s ending t := by
  induction nests generalizing s with
  | nil => exact ⟨_, s, rfl, rfl⟩
  | otherwise isElse isBody =>
    simp only [CondComes, if_pos isElse]
    exact comes_of_halts_body fits isBody halts
  | test isTest isBody _ spine ih =>
    simp only [CondComes, isTest, if_neg Bool.false_ne_true]
    refine precedes_of_halts fits spine halts fun c u halts => ?_
    by_cases truthy : c.isTruthy
    · rw [if_pos truthy] at halts
      simp only [if_pos truthy]
      exact comes_of_halts_body fits isBody halts
    · rw [if_neg truthy] at halts
      simp only [if_neg truthy]
      exact ih halts

end Parts

end LazyLisp
