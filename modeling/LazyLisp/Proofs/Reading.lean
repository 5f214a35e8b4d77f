import LazyLisp.Proofs.JoinedText
import LazyLisp.Proofs.LazyHalves
import LazyLisp.Proofs.Running

/-!
Reads one after the other from one input. A read that does not find the end takes at least one
character, whether or not a form comes of it, so that the end is found at last.
-/

namespace LazyLisp

namespace Input

variable {limit : Option Nat} {text : List Char}

theorem firstForm_none_of_ok {d : Datum} {stop : Nat} (found : firstForm limit text = .ok (d, stop)) :
    firstForm none text = .ok (d, stop) := by
  rcases firstForm_limit limit text with deep | same
  · cases deep.symm.trans found
  · exact same ▸ found

/-- The outcome of a read that does not find the end. -/
def GoesOn : Except ReadFailure Datum → Prop
  | .ok _ => True
  | .error (.error e) => e.issue ≠ .endOfInput
  | .error (.breakdown _) => False

theorem size_readFrom_lt (p : Input) (buffer : List Char) (pending : List (List Char))
    (goesOn : GoesOn (readFrom limit p buffer pending).1) :
    (readFrom limit p buffer pending).2.size < buffer.length + pending.flatten.length := by
  have finished (buffer : List Char) (pending : List (List Char))
      (goesOn : GoesOn (p.finish buffer pending (firstForm limit buffer)).1) :
      (p.finish buffer pending (firstForm limit buffer)).2.size <
        buffer.length + pending.flatten.length := by
    cases found : firstForm limit buffer with
    | ok result =>
      obtain ⟨d, stop⟩ := result
      have bounds := parseForms_of_firstForm (firstForm_none_of_ok found)
      simp only [finish, size, List.length_drop]
      omega
    | error failure =>
      cases failure with
      | breakdown b =>
        rw [found] at goesOn
        exact goesOn.elim
      | error e =>
        have nonempty : buffer ≠ [] := by
          rintro rfl
          have nothing : lex [] = ⟨[], none⟩ := lex_of_blank rfl
          have ended : firstForm limit [] = .error (.error ⟨.endOfInput, 0⟩) := by
            simp [firstForm, nothing]
          rw [ended] at goesOn
          exact goesOn rfl
        have some_character := List.length_pos_iff.mpr nonempty
        simp only [finish, size, List.length_nil]
        omega
  induction pending generalizing buffer with
  | nil => exact finished buffer [] goesOn
  | cons line rest ih =>
    rw [readFrom] at goesOn ⊢
    by_cases wants : wantsMore (firstForm limit buffer) = true
    · simp only [wants, if_true] at goesOn ⊢
      have smaller := ih (buffer ++ line) goesOn
      simp only [List.length_append, List.flatten_cons] at smaller ⊢
      omega
    · simp only [wants] at goesOn ⊢
      exact finished buffer (line :: rest) goesOn

theorem size_read_lt (p : Input) (goesOn : GoesOn (p.read limit).1) :
    (p.read limit).2.size < p.size :=
  size_readFrom_lt p p.buffer p.pending goesOn

end Input

section Reading

variable {room : Option Nat} {input : Nat} {s t : Store}

/-- What a read of an input does, if the input is there. -/
theorem readInput_eq {p : Input} (held : s.inputs[input]? = some p) :
    Run.readInput room input s =
      (match (p.read room).1 with
        | .ok d => Run.ofDatum d
        | .error failure => Run.readFailure failure)
        { s with inputs := s.inputs.setIfInBounds input (p.read room).2 } := by
  have found : (do Run.held (← get).inputs[input]? : Run Input) s = .ok p s := by
    change (Run.held s.inputs[input]? : Run Input) s = _
    rw [held]
    rfl
  exact Run.bind_of_ok found

theorem readInput_of_missing (missing : s.inputs[input]? = none) :
    Run.readInput room input s = .error .dangling s := by
  have failed : (Run.held s.inputs[input]? : Run Input) s = .error .dangling s := by
    rw [missing]
    rfl
  have looked : (get : Run Store) s = .ok s s := rfl
  exact (Run.bind_of_ok looked).trans (Run.bind_of_error failed)

theorem kind_ofReadError (e : ReadError) :
    (Fault.ofReadError e).kind = Fault.Kind.endOfInput ↔ e.issue = .endOfInput := by
  by_cases ended : e.issue = .endOfInput
  · simp [Fault.ofReadError, Fault.ofMessage, ended]
  · simp [Fault.ofReadError, Fault.ofMessage, ended, Fault.Kind.readError, Fault.Kind.endOfInput]

/-- A read leaves all but the inputs and the marks as it is. -/
theorem after_readInput (room : Option Nat) (input : Nat) (s : Store) :
    { after (Run.readInput room input s) with inputs := s.inputs, nextMark := s.nextMark } = s := by
  cases held : s.inputs[input]? with
  | none =>
    rw [readInput_of_missing held]
    rfl
  | some p =>
    rw [readInput_eq held]
    cases (p.read room).1 with
    | ok d => rfl
    | error failure =>
      cases failure with
      | error e => rfl
      | breakdown b => cases b <;> rfl

def Shrinks (input : Nat) (s t : Store) : Prop :=
  ∃ p q, s.inputs[input]? = some p ∧ t.inputs[input]? = some q ∧ q.size < p.size

theorem inputs_set {p q : Input} (held : s.inputs[input]? = some p) :
    (s.inputs.setIfInBounds input q)[input]? = some q := by
  obtain ⟨bound, -⟩ := Array.getElem?_eq_some_iff.mp held
  simp [bound]

theorem shrinks_of_ok {form : Value} (read : Run.readInput room input s = .ok form t) :
    Shrinks input s t ∧ ∃ d mark, form = (Value.ofDatum mark d).1 := by
  cases held : s.inputs[input]? with
  | none => cases read.symm.trans (readInput_of_missing held)
  | some p =>
    rw [readInput_eq held] at read
    cases outcome : (p.read room).1 with
    | ok d =>
      rw [outcome] at read
      cases read
      have goesOn : Input.GoesOn (p.read room).1 := by
        rw [outcome]
        trivial
      exact ⟨⟨p, _, held, inputs_set held, p.size_read_lt goesOn⟩, d, _, rfl⟩
    | error failure =>
      rw [outcome] at read
      cases failure with
      | error e => cases read
      | breakdown b => cases b <;> cases read

theorem shrinks_of_error {e : ReadError} (goesOn : e.issue ≠ .endOfInput)
    (read : Run.readInput room input s = .error (.fault (.ofReadError e)) t) :
    Shrinks input s t := by
  cases held : s.inputs[input]? with
  | none => cases read.symm.trans (readInput_of_missing held)
  | some p =>
    rw [readInput_eq held] at read
    cases outcome : (p.read room).1 with
    | ok d =>
      rw [outcome] at read
      cases read
    | error failure =>
      rw [outcome] at read
      cases failure with
      | breakdown b => cases b <;> cases read
      | error found =>
        obtain ⟨same, rfl⟩ := EStateM.Result.error.inj read
        have kind : (Fault.ofReadError found).kind = (Fault.ofReadError e).kind :=
          congrArg Fault.kind (Interrupt.fault.inj same)
        have goesOn : Input.GoesOn (p.read room).1 := by
          rw [outcome]
          intro ended
          rw [(kind_ofReadError found).mpr ended] at kind
          exact goesOn ((kind_ofReadError e).mp kind.symm)
        exact ⟨p, _, held, inputs_set held, p.size_read_lt goesOn⟩

theorem wellFounded_shrinks (input : Nat) : WellFounded fun t s : Store => Shrinks input s t := by
  refine Subrelation.wf ?_ (measure fun s : Store => s.inputs[input]?.elim 0 Input.size).wf
  rintro t s ⟨p, q, before, after, less⟩
  simpa [WellFoundedRelation.rel, InvImage, before, after] using less

end Reading

end LazyLisp
