import LazyLisp.Proofs.ByteStream
import LazyLisp.Proofs.TameRuns

/-!
The evaluation service answers every request that it understands.

A request gets one line as its answer, an object that says whether all went well, whatever the bytes
of the request are. The exception is a request to evaluate something that is no text: it stops the
connection, and the requests behind it get no answer. Besides, an evaluation may stop it that comes
to no end, nests too deep, meets an integer with too many digits, loads a file that is no text, asks
for a path of which the system says nothing, or writes what the standard output has no code for.
-/

namespace LazyLisp

namespace Json

end Json

namespace Response

end Response

namespace Server

/-- The interrupts that stop a connection whatever the form of the request. -/
def Excused : Interrupt → Prop
  | .overflow | .outOfFuel | .dangling => True
  | .breakdown .tooManyDigits | .breakdown .fileNotText => True
  | .breakdown .pathRefused | .breakdown .unencodable => True
  | _ => False

def AsksForNonText (w : World) (line : List UInt8) : Prop :=
  ∃ text fields code, Text.decode line = .ok text ∧
    Json.parse w.halves w.room text = .ok (.object fields) ∧
    (Json.object fields).field? "cmd" = some (.string "eval") ∧
    (Json.object fields).field? "code" = some code ∧ ∀ text, code ≠ .string text

section Answering

variable {w : World} {fuel : Nat}

theorem excused_of_ofWritten {α : Type} {written : Except WriteFailure α} {s t : Store}
    {e : Interrupt} (stopped : Run.ofWritten written s = .error e t) : Excused e := by
  unfold Run.ofWritten at stopped
  split at stopped
  · cases stopped
  all_goals
    cases stopped
    trivial

theorem excused_of_possible {e : Interrupt} (possible : e.Possible false)
    (other : ∀ f, e ≠ .fault f) : Excused e := by
  cases e with
  | fault f => exact absurd rfl (other f)
  | breakdown b => cases b <;> trivial
  | _ => trivial

theorem excused_of_eval {code : String} {s t : Store} {e : Interrupt}
    (stopped : eval w fuel code s = .error e t) : Excused e := by
  have tame : Tame false (do
      let v ← Session.eval w fuel code
      return Response.result (← Run.ofWritten ((← get).readable w.room v))) := by
    refine (Tame.session w fuel code).bind fun v => ?_
    refine .look (fun text s => by rw [Store.readable_logged]) fun s => ?_
    exact (Tame.ofWritten _).map
  unfold eval Run.catchFault at stopped
  split at stopped
  · exact excused_of_ofWritten stopped
  · next other =>
    refine excused_of_possible (tame.ends s e t stopped) ?_
    rintro f rfl
    exact other f t stopped

theorem answerLine_of_asksForNonText {line : List UInt8} (asks : AsksForNonText w line)
    (s : Store) : answerLine w fuel line s = .error (.breakdown .codeNotText) s := by
  obtain ⟨text, fields, code, decoded, parsed, command, given, nonText⟩ := asks
  have refusal : answer w fuel (.object fields) = throw (.breakdown .codeNotText) := by
    unfold answer
    rw [command, given]
    cases code with
    | string text => exact absurd rfl (nonText text)
    | _ => rfl
  simp only [answerLine, decoded, parsed, refusal]
  rfl

/-- Whatever the bytes of a line are, only a request to evaluate what is no text is left without an
answer by its form. -/
theorem excused_of_answerLine {line : List UInt8} (sound : ¬ AsksForNonText w line) {s t : Store}
    {e : Interrupt} (stopped : answerLine w fuel line s = .error e t) : Excused e := by
  simp only [answerLine] at stopped
  cases decoded : Text.decode line with
  | error _ =>
    rw [decoded] at stopped
    cases stopped
  | ok text =>
    simp only [decoded] at stopped
    cases parsed : Json.parse w.halves w.room text with
    | error failure =>
      rw [parsed] at stopped
      cases failure <;> cases stopped <;> trivial
    | ok request =>
      rw [parsed] at stopped
      cases request with
      | object fields =>
        change answer w fuel (.object fields) s = .error e t at stopped
        generalize same : answer w fuel (.object fields) = run at stopped
        unfold answer at same
        split at same
        · next command =>
          split at same
          · subst same
            exact excused_of_eval stopped
          · subst same
            exact excused_of_eval stopped
          · next code nonText given =>
            exact absurd ⟨text, fields, code, decoded, parsed, command, given, nonText⟩ sound
        · subst same
          cases stopped
      | _ => cases stopped

/-- How serving requests ends: all of them have an answer, or the one after those that have is the
first that can stop the connection. -/
inductive Ends (w : World) (requests : List (List UInt8)) (answers : Nat) :
    Option Interrupt → Prop where
  | all : answers = requests.length → (∀ line ∈ requests, ¬ AsksForNonText w line) →
      Ends w requests answers none
  | nonText {line} : requests[answers]? = some line → AsksForNonText w line →
      Ends w requests answers (some (.breakdown .codeNotText))
  | excused {e} : answers < requests.length → Excused e → Ends w requests answers (some e)

theorem Ends.cons {line : List UInt8} {requests : List (List UInt8)} {answers : Nat}
    {ending : Option Interrupt} (ends : Ends w requests answers ending)
    (sound : ¬ AsksForNonText w line) : Ends w (line :: requests) (answers + 1) ending := by
  cases ends with
  | all count others => exact .all (by simp [count]) (by simpa using ⟨sound, others⟩)
  | nonText found asks => exact .nonText (by simpa using found) asks
  | excused less excused => exact .excused (by simpa using less) excused

theorem Handles.ends {requests : List (List UInt8)} {s : Store} {served : Served}
    (handles : Handles w fuel requests s served) :
    Ends w requests served.sent.length served.ending := by
  induction handles with
  | done => exact .all rfl (by simp)
  | answered answered _ ih =>
    refine ih.cons fun asks => ?_
    cases (answerLine_of_asksForNonText asks _).symm.trans answered
  | @stopped line rest s e t stopped =>
    by_cases asks : AsksForNonText w line
    · cases (answerLine_of_asksForNonText asks s).symm.trans stopped
      exact .nonText rfl asks
    · exact .excused (by simp) (excused_of_answerLine asks stopped)

end Answering

end Server

end LazyLisp
