import LazyLisp.Eval.Evaluate

/-!
Tail positions. A step that is not in tail position does what the same step in tail position does and
then evaluates what that one left open.
-/

namespace LazyLisp

def Engine.finish (m : Engine) : Step → Run Step
  | .value v => return .value v
  | .tail expr frame name => .value <$> m.eval expr frame name

section Finish

variable (m : Engine)

theorem Engine.inTail_false (expr : Value) (frame : FrameId) (name : Option String) :
    m.inTail false expr frame name = m.inTail true expr frame name >>= m.finish := rfl

theorem map_value_bind_finish (x : Run Value) :
    (Step.value <$> x) >>= m.finish = Step.value <$> x := by
  rw [map_eq_pure_bind, bind_assoc]
  rfl

theorem fail_bind {α β : Type} (kind message : String) (f : α → Run β) :
    (Run.fail kind message : Run α) >>= f = Run.fail kind message := rfl

end Finish

namespace SpecialForm

variable (m : Engine) (frame : FrameId)

theorem runSequence_false (forms : List Value) :
    runSequence m false frame forms = runSequence m true frame forms >>= m.finish := by
  fun_induction runSequence m false frame forms with
  | case1 => rfl
  | case2 last => rfl
  | case3 form rest more ih =>
    rw [runSequence, bind_assoc, ih]
    exact more

theorem runIf_false (args : List Value) :
    runIf m false frame args = runIf m true frame args >>= m.finish := by
  unfold runIf
  split
  · rw [bind_assoc]
    congr 1
    funext v
    split <;> rfl
  · rw [bind_assoc]
    congr 1
    funext v
    split <;> rfl
  · rfl

theorem runLogic_false (stopAt : Bool) (forms : List Value) :
    runLogic m stopAt false frame forms = runLogic m stopAt true frame forms >>= m.finish := by
  fun_induction runLogic m stopAt false frame forms with
  | case1 => rfl
  | case2 last => rfl
  | case3 form rest more ih =>
    rw [runLogic, bind_assoc]
    · congr 1
      funext v
      split
      · rfl
      · exact ih
    · exact more

theorem runLet_false (args : List Value) :
    runLet m false frame args = runLet m true frame args >>= m.finish := by
  unfold runLet
  split
  · simp only [bind_assoc, Engine.inTail_false]
  · rfl

theorem run_false (form : SpecialForm) (args : List Value) :
    form.run m args frame false = form.run m args frame true >>= m.finish := by
  cases form with
  | assign | defineExpander | quote | quasiquote | lambda | caseLambda | define | lazyCons
  | catchError => exact (map_value_bind_finish m _).symm
  | unquote | unquoteSplicing => rfl
  | sequence => exact runSequence_false m frame args
  | cond => exact runIf_false m frame args
  | letBindings => exact runLet_false m frame args
  | conj | disj => exact runLogic_false m frame _ args

end SpecialForm

namespace Call

variable (m : Engine)

theorem closure_false (c : Closure) (args : List Value) :
    closure m false c args = closure m true c args >>= m.finish := by
  unfold closure
  rw [bind_assoc]
  rfl

theorem runWith_false (again : Primitive.Caller) (args : List Value) (frame : FrameId)
    (p : Procedure) :
    runWith m again false args frame p = runWith m again true args frame p >>= m.finish := by
  cases p with
  | closure c => exact closure_false m c args
  | cases clauses name doc =>
    simp only [runWith, bind_assoc, closure_false]
  | primitive p =>
    simp only [runWith, bind_assoc]
    congr 1
    funext step
    cases step <;> rfl
  | expander x => rfl

theorem apply_false (f : Value) (args : List Value) (frame : FrameId) :
    apply m false f args frame = apply m true f args frame >>= m.finish := by
  unfold apply applyWithin
  cases descend m.room with
  | none => rfl
  | some room =>
    cases f with
    | procedure ref => simp only [applyWith, bind_assoc, runWith_false]
    | _ => simp only [applyWith, bind_assoc, fail_bind]

end Call

/-- A step that is not in tail position evaluates what the step in tail position leaves open. -/
theorem step_false (m : Engine) (expr : Value) (frame : FrameId) :
    step m expr frame false = step m expr frame true >>= m.finish := by
  have application (f : Value) (args : List Value) :
      applicationWith (Call.apply m) m f args frame false =
        applicationWith (Call.apply m) m f args frame true >>= m.finish := by
    unfold applicationWith
    cases f with
    | procedure ref =>
      simp only [bind_assoc]
      congr 1
      funext p
      cases p <;> simp only [bind_assoc, Engine.inTail_false, Call.apply_false]
    | _ => simp only [bind_assoc, fail_bind]
  have form : formWith (Call.apply m) m expr frame false =
      formWith (Call.apply m) m expr frame true >>= m.finish := by
    unfold formWith
    simp only [bind_assoc]
    congr 1
    funext head
    congr 1
    funext rest
    congr 1
    funext args
    split
    · exact SpecialForm.run_false m frame _ args
    · simp only [bind_assoc, application]
  unfold step stepWith
  split
  · exact (map_value_bind_finish m _).symm
  · exact form
  · exact form
  · rfl

end LazyLisp
