import LazyLisp.Proofs.Acceptance
import LazyLisp.Proofs.JoinedText

/-!
The breakdowns in which reading can end: an integer with too many digits, and a form that nests too
deep for the limit.
-/

namespace LazyLisp

def ReadFailure.Possible (f : ReadFailure) : Prop :=
  ∀ b, f = .breakdown b → b = .tooManyDigits ∨ b = .nestedTooDeep

theorem Atom.eq_tooManyDigits_of_ofWord {word : List Char} {b : Breakdown} (nonempty : word ≠ [])
    (failed : ofWord word = .error b) : b = .tooManyDigits := by
  unfold ofWord at failed
  split at failed
  · split at failed <;> cases failed
    rfl
  · rw [if_neg (by simpa using nonempty)] at failed
    split at failed <;> cases failed

theorem eq_tooManyDigits_of_parseFormFrom {failure : Option ReadError} {stack : List OpenForm}
    {pos stop : Nat} {ts : List Token} {b : Breakdown} (lexical : ∀ t ∈ ts, t.IsLexical)
    (parsed : parseFormFrom failure stack pos ts = .failed (.breakdown b) stop) :
    b = .tooManyDigits := by
  induction ts generalizing stack pos with
  | nil => cases parsed
  | cons t ts ih =>
    rw [parseFormFrom] at parsed
    split at parsed
    · cases parsed
    · exact ih (fun u member => lexical u (List.mem_cons_of_mem t member)) parsed
    · next fed =>
      obtain ⟨rfl, -⟩ := ParsedForm.failed.inj parsed
      have known := lexical t List.mem_cons_self
      obtain ⟨kind, failed⟩ := Move.breakdown_of_feed known fed
      obtain ⟨chars, rest, found⟩ := known.exists_next
      have shape := Lexeme.shape_of_next found
      simp only [kind, Lexeme.Shape] at shape
      exact Atom.eq_tooManyDigits_of_ofWord shape failed

namespace Input

variable {limit : Option Nat} {f : ReadFailure}

/-- Without a limit a text never nests too deep. -/
theorem eq_tooManyDigits_of_firstForm {text : List Char} {b : Breakdown}
    (found : firstForm none text = .error (.breakdown b)) : b = .tooManyDigits := by
  rcases firstForm_cases text with ⟨-, other⟩ | ⟨d, stop, -, other⟩ | ⟨g, stop, parsed, same, -⟩
  · cases found.symm.trans other
  · cases found.symm.trans other
  · cases found.symm.trans same
    exact eq_tooManyDigits_of_parseFormFrom (fun t member => ⟨text, t, member, rfl, rfl⟩) parsed

theorem possible_of_firstForm {text : List Char} (found : firstForm limit text = .error f) :
    f.Possible := by
  rintro b rfl
  rcases firstForm_limit limit text with deep | same
  · cases found.symm.trans deep
    exact .inr rfl
  · exact .inl (eq_tooManyDigits_of_firstForm (same.symm.trans found))

theorem possible_of_finish {p : Input} {buffer : List Char} {pending : List (List Char)}
    {outcome : Except ReadFailure (Datum × Nat)} (possible : ∀ g, outcome = .error g → g.Possible)
    (failed : (p.finish buffer pending outcome).1 = .error f) : f.Possible := by
  match outcome with
  | .ok (d, stop) => cases failed
  | .error (.error e) =>
    cases failed
    exact possible _ rfl
  | .error (.breakdown b) =>
    cases failed
    exact possible _ rfl

theorem possible_of_read {p : Input} (failed : (p.read limit).1 = .error f) : f.Possible := by
  unfold read at failed
  generalize p.buffer = buffer, p.pending = pending at failed
  induction pending generalizing buffer with
  | nil => exact possible_of_finish (fun _ => possible_of_firstForm) failed
  | cons line rest ih =>
    rw [readFrom] at failed
    split at failed
    · exact ih _ failed
    · exact possible_of_finish (fun _ => possible_of_firstForm) failed

theorem possible_of_forms {p : Input} (failed : (p.forms limit).2 = some f) : f.Possible := by
  unfold forms at failed
  generalize p.size + 1 = fuel, #[] = done at failed
  induction fuel generalizing p done with
  | zero => cases failed
  | succ fuel ih =>
    rw [formsWithin] at failed
    split at failed
    · exact ih _ failed
    · cases failed
    · next read =>
      cases failed
      exact possible_of_read (congrArg Prod.fst read)

end Input

end LazyLisp
