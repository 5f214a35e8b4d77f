import LazyLisp.Proofs.ExplicitExpansion
import LazyLisp.Proofs.Templates

/-!
Quasiquotation as substitution.

Where nothing in a template is quoted again, the parts that are evaluated are put in place from left
to right, and the rest of the template is copied. Nothing fails but the evaluation of a part, or a
splice of something that is no list.
-/

namespace LazyLisp

namespace Template

/-- A template of eager pairs in which nothing is quoted again. The parts to be evaluated have one
operand each, and what is spliced is the head of a pair. -/
inductive IsFlat : Value → Prop where
  | leaf {v} : v.isPair = false → isKeyword v = false → IsFlat v
  | unquote {mark mark' expr} : IsFlat (.pair mark (.symbol "unquote") (.pair mark' expr .nil))
  | splice {mark mark' mark'' expr rest} : IsFlat rest →
      IsFlat (.pair mark (.pair mark' (.symbol "unquote-splicing") (.pair mark'' expr .nil)) rest)
  | pair {mark head rest} : IsFlat head → IsFlat rest → IsFlat (.pair mark head rest)

/-- Put the values of the operands in the places where they stand. -/
def substitute (m : Engine) (frame : FrameId) : Value → Run Value
  | .pair _ (.symbol "unquote") (.pair _ expr .nil) => m.eval expr frame none
  | .pair _ (.pair _ (.symbol "unquote-splicing") (.pair _ expr .nil)) rest => do
    let items ← m.items Fault.Kind.typeError "list for unquote-splicing" (← m.eval expr frame none)
    Run.listWith items (← substitute m frame rest)
  | .pair _ head rest => do Run.cons (← substitute m frame head) (← substitute m frame rest)
  | v => return v

/-- Substitution stops: the evaluation of an operand fails, or a value to be spliced has no items.
What stands to the left has been put in place before. -/
inductive Stops (m : Engine) (frame : FrameId) : Value → Store → Interrupt → Store → Prop where
  | unquote {mark mark' expr s e u} : m.eval expr frame none s = .error e u →
      Stops m frame (.pair mark (.symbol "unquote") (.pair mark' expr .nil)) s e u
  | splice {mark mark' mark'' expr rest s e u} : m.eval expr frame none s = .error e u →
      Stops m frame
        (.pair mark (.pair mark' (.symbol "unquote-splicing") (.pair mark'' expr .nil)) rest) s e u
  | noList {mark mark' mark'' expr rest s v t e u} : m.eval expr frame none s = .ok v t →
      m.items Fault.Kind.typeError "list for unquote-splicing" v t = .error e u →
      Stops m frame
        (.pair mark (.pair mark' (.symbol "unquote-splicing") (.pair mark'' expr .nil)) rest) s e u
  | behind {mark mark' mark'' expr rest s v t items t' e u} : m.eval expr frame none s = .ok v t →
      m.items Fault.Kind.typeError "list for unquote-splicing" v t = .ok items t' →
      Stops m frame rest t' e u →
      Stops m frame
        (.pair mark (.pair mark' (.symbol "unquote-splicing") (.pair mark'' expr .nil)) rest) s e u
  | head {mark head rest s e u} : IsFlat head → Stops m frame head s e u →
      Stops m frame (.pair mark head rest) s e u
  | rest {mark head rest s v t e u} : IsFlat head → substitute m frame head s = .ok v t →
      Stops m frame rest t e u → Stops m frame (.pair mark head rest) s e u

theorem IsFlat.wellFormed {v : Value} (flat : IsFlat v) (below : Nat → Nat) (keeps : Value → Prop) :
    WellFormed below keeps 1 v := by
  induction flat with
  | leaf leaf plain => exact .leaf leaf plain
  | unquote => exact .evaluated
  | splice _ ih => exact .spliced ih
  | pair _ _ ihHead ihRest => exact .pair ihHead ihRest

theorem IsFixed.isFlat {v : Value} (fixed : IsFixed v) : IsFlat v := by
  induction fixed with
  | leaf leaf plain => exact .leaf leaf plain
  | pair _ _ ihHead ihRest => exact .pair ihHead ihRest

theorem cons_eq (car cdr : Value) (s : Store) :
    Run.cons car cdr s = .ok (.pair s.nextMark car cdr) { s with nextMark := s.nextMark + 1 } := rfl

section Substitute

variable {m : Engine} {frame : FrameId} {mark mark' mark'' : Nat} {v expr head rest : Value}

theorem substitute_leaf (leaf : v.isPair = false) : substitute m frame v = pure v := by
  cases v with
  | pair mark head rest => cases leaf
  | _ => rfl

theorem substitute_unquote : substitute m frame
    (.pair mark (.symbol "unquote") (.pair mark' expr .nil)) = m.eval expr frame none := rfl

theorem substitute_splice : substitute m frame
    (.pair mark (.pair mark' (.symbol "unquote-splicing") (.pair mark'' expr .nil)) rest) = (do
      let items ← m.items Fault.Kind.typeError "list for unquote-splicing" (← m.eval expr frame none)
      Run.listWith items (← substitute m frame rest)) := rfl

theorem substitute_pair (flat : IsFlat head) : substitute m frame (.pair mark head rest) = (do
    Run.cons (← substitute m frame head) (← substitute m frame rest)) := by
  have formed := flat.wellFormed id fun _ => True
  rw [substitute]
  · exact fun _ _ same => absurd same (ne_symbol_of_isKeyword rfl formed.isKeyword_eq_false)
  · exact fun _ _ _ same => absurd same formed.ne_splice

theorem fill_of_isFlat {below : Nat → Nat} (flat : IsFlat v) :
    fill below m frame 1 v = substitute m frame v := by
  induction flat with
  | leaf leaf => rw [fill_leaf m frame leaf, substitute_leaf leaf]
  | unquote => rw [fill_evaluated, substitute_unquote]
  | splice _ ih =>
    rw [fill_spliced, substitute_splice, ih, spliced, bind_assoc]
  | pair headFlat _ ihHead ihRest =>
    have formed := headFlat.wellFormed below fun _ => True
    rw [fill_pair m frame formed, substitute_pair headFlat, ihHead, ihRest]

theorem stops_of_substitute (flat : IsFlat v) {s u : Store} {e : Interrupt}
    (failed : substitute m frame v s = .error e u) : Stops m frame v s e u := by
  induction flat generalizing s with
  | leaf leaf =>
    rw [substitute_leaf leaf] at failed
    cases failed
  | unquote =>
    rw [substitute_unquote] at failed
    exact .unquote failed
  | splice _ ih =>
    rw [substitute_splice] at failed
    rcases Run.of_bind_error failed with failed | ⟨v, t, evaluated, failed⟩
    · exact .splice failed
    rcases Run.of_bind_error failed with failed | ⟨items, t', listed, failed⟩
    · exact .noList evaluated failed
    rcases Run.of_bind_error failed with failed | ⟨rest, _, _, failed⟩
    · exact .behind evaluated listed (ih failed)
    · cases failed
  | pair headFlat _ ihHead ihRest =>
    rw [substitute_pair headFlat] at failed
    rcases Run.of_bind_error failed with failed | ⟨v, t, filled, failed⟩
    · exact .head headFlat (ihHead failed)
    rcases Run.of_bind_error failed with failed | ⟨rest, _, _, failed⟩
    · exact .rest headFlat filled (ihRest failed)
    · rw [cons_eq] at failed
      cases failed

end Substitute

theorem substitute_of_isFixed (m : Engine) (frame : FrameId) {v : Value} (fixed : IsFixed v)
    (s : Store) :
    ∃ copy, copy.unmarked = v.unmarked ∧
      substitute m frame v s = .ok copy { s with nextMark := s.nextMark + v.pairs } := by
  induction fixed generalizing s with
  | @leaf v leaf =>
    refine ⟨v, rfl, ?_⟩
    rw [substitute_leaf leaf]
    cases v with
    | pair mark head rest => cases leaf
    | _ => rfl
  | @pair mark head rest headFixed _ ihHead ihRest =>
    obtain ⟨newHead, sameHead, filledHead⟩ := ihHead s
    obtain ⟨newRest, sameRest, filledRest⟩ := ihRest { s with nextMark := s.nextMark + head.pairs }
    refine ⟨.pair (s.nextMark + head.pairs + rest.pairs) newHead newRest, ?_, ?_⟩
    · rw [Value.unmarked, sameHead, sameRest, Value.unmarked]
    · have marks : s.nextMark + (Value.pair mark head rest).pairs =
          s.nextMark + head.pairs + rest.pairs + 1 := by
        rw [Value.pairs]
        omega
      rw [substitute_pair headFixed.isFlat, Run.bind_of_ok filledHead, Run.bind_of_ok filledRest,
        cons_eq, marks]

theorem inMessage_eq (m : Engine) (v : Value) (s : Store) :
    m.inMessage v s = Run.ofWritten (s.inMessage m.world.halves m.room v) s := rfl

theorem failWith_of_text {α : Type} (m : Engine) (kind message : String) {v : Value} {s : Store}
    {text : String} (written : s.inMessage m.world.halves m.room v = .ok text) :
    (m.failWith kind message v : Run α) s =
      .error (.fault (.ofMessage kind (message ++ text))) s := by
  have shown : m.inMessage v s = .ok text s := by
    rw [inMessage_eq, written]
    rfl
  exact Run.bind_of_ok shown

/-- The evaluation of a quoted template puts the values of its operands in place. -/
theorem evaluate_quasiquotation_of_isFlat {template : Value} (flat : IsFlat template) (w : World)
    {fuel : Nat} {room inner : Option Nat} (deeper : descend room = some inner)
    (enough : depth template ≤ fuel) (fits : Fits (depth template) inner) (mark mark' : Nat)
    (frame : FrameId) (name : Option String) :
    let m := Engine.evaluating w fuel inner
    let form := quasiquotation mark mark' template
    evaluate w (fuel + 1) room form frame name =
      (substitute m frame template).either pure (leaving w.traceLimit form name) ∧
    (∀ s e t, substitute m frame template s = .error e t → Stops m frame template s e t) ∧
    (∀ v items s, Spine v items .nil →
      m.items Fault.Kind.typeError "list for unquote-splicing" v s = .ok items s) ∧
    (∀ v items tail s text, Spine v items tail → tail.isPair = false → tail.isNil = false →
      s.inMessage w.halves inner v = .ok text →
      m.items Fault.Kind.typeError "list for unquote-splicing" v s =
        .error (.fault (.ofMessage Fault.Kind.typeError
          ("not a proper list for unquote-splicing: " ++ text))) s) ∧
    (IsFixed template → ∀ s, ∃ copy, copy.unmarked = template.unmarked ∧
      evaluate w (fuel + 1) room form frame name s =
        .ok copy { s with nextMark := s.nextMark + template.pairs }) := by
  intro m form
  have substitutes : evaluate w (fuel + 1) room form frame name =
      (substitute m frame template).either pure (leaving w.traceLimit form name) := by
    have formed := flat.wellFormed id fun _ => True
    rw [evaluate_quasiquotation w fuel deeper, copy_of_wellFormed formed enough fits,
      fill_of_isFlat flat]
  refine ⟨substitutes, fun s e t => stops_of_substitute flat, ?_, ?_, ?_⟩
  · exact fun v items s spine => items_of_spine m _ _ spine s
  · intro v items tail s text spine ends improper written
    rw [items_of_improper m _ _ spine ends improper]
    exact failWith_of_text m _ _ written
  · intro fixed s
    obtain ⟨copy, same, filled⟩ := substitute_of_isFixed m frame fixed s
    refine ⟨copy, same, ?_⟩
    rw [substitutes, Run.either, filled]
    rfl

def mixedTemplate : Value :=
  .pair 0 (.atom (.int 1)) (.pair 1
    (.pair 2 (.symbol "unquote-splicing") (.pair 3 (.pair 4 (.symbol "quote") (.pair 5
      (.pair 6 (.atom (.int 2)) (.pair 7 (.atom (.int 3)) .nil)) .nil)) .nil))
    (.pair 8 (.symbol "unquote") (.pair 9
      (.pair 10 (.symbol "quote") (.pair 11 (.atom (.int 4)) .nil)) .nil)))

theorem evaluate_quasiquotation_of_isFlat_mixed :
    IsFlat mixedTemplate ∧
    evaluate bareWorld 6 none (quasiquotation 12 13 mixedTemplate) 0 none
        { Store.empty with nextMark := 14 } =
      .ok (.pair 16 (.atom (.int 1)) (.pair 15 (.atom (.int 2)) (.pair 14 (.atom (.int 3))
        (.atom (.int 4))))) { Store.empty with nextMark := 17 } := by
  have flat : IsFlat mixedTemplate := .pair (.leaf rfl rfl) (.splice .unquote)
  refine ⟨flat, ?_⟩
  have enough : depth mixedTemplate ≤ 5 := by decide
  rw [(evaluate_quasiquotation_of_isFlat flat bareWorld rfl enough (fits_none _) 12 13 0 none).1]
  with_unfolding_all rfl

def longNumber : Int := Int.ofNat (Decimal.tenTo maxDigits)

theorem hasText_longNumber : hasText longNumber = false := by
  rw [hasText, longNumber]
  generalize Decimal.tenTo maxDigits = bound
  simp

theorem inMessage_longNumber (m : Engine) (s : Store) :
    m.inMessage (.atom (.int longNumber)) s = .error (.breakdown .tooManyDigits) s := by
  have written : s.inMessage m.world.halves m.room (.atom (.int longNumber)) =
      .error .tooManyDigits := by
    rw [Store.inMessage, Atom.hasText, hasText_longNumber]
    rfl
  rw [inMessage_eq, written]
  rfl

def longSplice : Value :=
  .pair 0 (.pair 1 (.symbol "unquote-splicing") (.pair 2 (.atom (.int longNumber)) .nil)) .nil

/-- What is no list and has no text is spliced without a fault that could be caught. -/
theorem evaluate_quasiquotation_longSplice :
    IsFlat longSplice ∧
    evaluate bareWorld 1 none (.atom (.int longNumber)) 0 none Store.empty =
      .ok (.atom (.int longNumber)) Store.empty ∧
    evaluate bareWorld 5 none (quasiquotation 3 4 longSplice) 0 none Store.empty =
      .error (.breakdown .tooManyDigits) Store.empty := by
  have flat : IsFlat longSplice := .splice (.leaf rfl rfl)
  refine ⟨flat, rfl, ?_⟩
  let m := Engine.evaluating bareWorld 4 none
  have improper : (Value.atom (.int longNumber)).isNil = false := rfl
  have noItems : m.items Fault.Kind.typeError "list for unquote-splicing" (.atom (.int longNumber))
      Store.empty = .error (.breakdown .tooManyDigits) Store.empty := by
    rw [items_of_improper m _ _ .nil rfl improper]
    exact Run.bind_of_error (inMessage_longNumber m Store.empty)
  have evaluated : m.eval (.atom (.int longNumber)) 0 none Store.empty =
      .ok (.atom (.int longNumber)) Store.empty := rfl
  have stopped : substitute m 0 longSplice Store.empty =
      .error (.breakdown .tooManyDigits) Store.empty := by
    rw [longSplice, substitute]
    exact (Run.bind_of_ok evaluated).trans (Run.bind_of_error noItems)
  have formed := flat.wellFormed id fun _ => True
  rw [evaluate_quasiquotation bareWorld 4 rfl, copy_of_wellFormed formed (by decide) (fits_none _),
    fill_of_isFlat flat, Run.either, stopped]
  rfl

end Template

end LazyLisp
