import LazyLisp.Proofs.Observation
import LazyLisp.Server

/-!
A connection brings its bytes in chunks, and where they are cut does not matter.

The bytes alone determine the lines that have ended, so that a connection is served as if all lines
were there from the start: each that is not blank is answered in turn, up to the first that stops
the service, and what follows the last newline is ignored.
-/

namespace LazyLisp

namespace Server

def newline : UInt8 := 0x0A

/-- The bytes are lines, each with a newline behind it, and what follows the last of them. -/
structure Lines (bytes : List UInt8) (lines : List (List UInt8)) (last : List UInt8) : Prop where
  whole : bytes = lines.flatMap (· ++ [newline]) ++ last
  ended : ∀ line ∈ lines, newline ∉ line
  unended : newline ∉ last

/-- The lines that are to be answered: without the blanks around them, and only if there is
something left. -/
def requests (lines : List (List UInt8)) : List (List UInt8) :=
  (lines.map trimBytes).filter (!·.isEmpty)

/-- The requests are answered in order, up to the first interruption. -/
inductive Handles (w : World) (fuel : Nat) : List (List UInt8) → Store → Served → Prop where
  | done {s} : Handles w fuel [] s ⟨[], none, s⟩
  | answered {line rest s response t served} : answerLine w fuel line s = .ok response t →
      Handles w fuel rest t served →
      Handles w fuel (line :: rest) s (served.after [response.toJson.render w.halves ++ "\n"])
  | stopped {line rest s e t} : answerLine w fuel line s = .error e t →
      Handles w fuel (line :: rest) s ⟨[], some e, t⟩

theorem cutLinesFrom_of_newline (soFar rest : List UInt8) :
    cutLinesFrom soFar (newline :: rest) =
      (soFar.reverse :: (cutLines rest).1, (cutLines rest).2) := rfl

theorem cutLinesFrom_of_ne {b : UInt8} (inside : b ≠ newline) (soFar rest : List UInt8) :
    cutLinesFrom soFar (b :: rest) = cutLinesFrom (b :: soFar) rest := by
  rw [cutLinesFrom, if_neg]
  simpa [newline] using inside

theorem cutLinesFrom_append {part : List UInt8} (inside : newline ∉ part)
    (soFar rest : List UInt8) :
    cutLinesFrom soFar (part ++ rest) = cutLinesFrom (part.reverse ++ soFar) rest := by
  induction part generalizing soFar with
  | nil => rfl
  | cons b part ih =>
    rw [List.mem_cons, not_or] at inside
    rw [List.cons_append, cutLinesFrom_of_ne (Ne.symm inside.1), ih inside.2]
    simp

theorem cutLines_of_lines {bytes last : List UInt8} {lines : List (List UInt8)}
    (cut : Lines bytes lines last) : cutLines bytes = (lines, last) := by
  obtain ⟨rfl, ended, inside⟩ := cut
  induction lines with
  | nil =>
    rw [List.flatMap_nil, List.nil_append, cutLines, ← List.append_nil last,
      cutLinesFrom_append inside]
    simp [cutLinesFrom]
  | cons line lines ih =>
    have rest := ih fun other member => ended other (List.mem_cons_of_mem line member)
    rw [List.flatMap_cons, List.append_assoc, List.append_assoc, cutLines,
      cutLinesFrom_append (ended line List.mem_cons_self), List.singleton_append,
      cutLinesFrom_of_newline, rest]
    simp

theorem lines_cutLinesFrom {soFar : List UInt8} (inside : newline ∉ soFar) (bytes : List UInt8) :
    Lines (soFar.reverse ++ bytes) (cutLinesFrom soFar bytes).1 (cutLinesFrom soFar bytes).2 := by
  induction bytes generalizing soFar with
  | nil => exact ⟨by simp [cutLinesFrom], by simp [cutLinesFrom], by simpa [cutLinesFrom]⟩
  | cons b rest ih =>
    by_cases ends : b = newline
    · subst ends
      have further : Lines rest (cutLines rest).1 (cutLines rest).2 := ih List.not_mem_nil
      rw [cutLinesFrom_of_newline]
      refine ⟨?_, ?_, further.unended⟩
      · rw [List.flatMap_cons, List.append_assoc, ← further.whole, List.append_assoc,
          List.singleton_append]
      · rintro line (_ | ⟨_, member⟩)
        · simpa using inside
        · exact further.ended line member
    · have longer : newline ∉ b :: soFar := by simp [inside, Ne.symm ends]
      rw [cutLinesFrom_of_ne ends]
      simpa using ih longer

theorem lines_cutLines (bytes : List UInt8) : Lines bytes (cutLines bytes).1 (cutLines bytes).2 :=
  lines_cutLinesFrom List.not_mem_nil bytes

theorem cutLines_append (bytes more : List UInt8) :
    cutLines (bytes ++ more) = ((cutLines bytes).1 ++ (cutLines ((cutLines bytes).2 ++ more)).1,
      (cutLines ((cutLines bytes).2 ++ more)).2) := by
  have first := lines_cutLines bytes
  have second := lines_cutLines ((cutLines bytes).2 ++ more)
  refine cutLines_of_lines ⟨?_, ?_, second.unended⟩
  · rw [List.flatMap_append, List.append_assoc, ← second.whole, ← List.append_assoc, ← first.whole]
  · intro line member
    rcases List.mem_append.mp member with member | member
    · exact first.ended line member
    · exact second.ended line member

section Answering

variable (w : World) (fuel : Nat)

theorem answerLines_append (lines more : List (List UInt8)) (s : Store) :
    answerLines w fuel (lines ++ more) s =
      match (answerLines w fuel lines s).ending with
      | some _ => answerLines w fuel lines s
      | none => (answerLines w fuel more (answerLines w fuel lines s).store).after
          (answerLines w fuel lines s).sent := by
  induction lines generalizing s with
  | nil => rfl
  | cons line lines ih =>
    rw [List.cons_append, answerLines, answerLines]
    split
    · exact ih s
    · split
      · rfl
      · next response t _ =>
        rw [ih t]
        cases ending : (answerLines w fuel lines t).ending <;>
          simp [Served.after, ending]

/-- A connection is served as if its bytes had come at once. -/
theorem serveFrom_eq {chunks : List (List UInt8)} (nonempty : ∀ chunk ∈ chunks, chunk ≠ [])
    {buffer : List UInt8} (inside : newline ∉ buffer) (s : Store) :
    serveFrom w fuel buffer chunks s =
      answerLines w fuel (cutLines (buffer ++ chunks.flatten)).1 s := by
  induction chunks generalizing buffer s with
  | nil =>
    have cut : cutLines buffer = ([], buffer) := cutLines_of_lines ⟨rfl, by simp, inside⟩
    rw [List.flatten_nil, List.append_nil, cut]
    rfl
  | cons chunk chunks ih =>
    have present : chunk.isEmpty = false := by simpa using nonempty chunk List.mem_cons_self
    have rest := lines_cutLines (buffer ++ chunk)
    have later := ih (fun other member => nonempty other (List.mem_cons_of_mem chunk member))
      rest.unended
    rw [serveFrom, present, List.flatten_cons, ← List.append_assoc,
      cutLines_append (buffer ++ chunk), answerLines_append, ← later]
    exact if_neg Bool.false_ne_true

theorem handles_answerLines (lines : List (List UInt8)) (s : Store) :
    Handles w fuel (requests lines) s (answerLines w fuel lines s) := by
  induction lines generalizing s with
  | nil => exact .done
  | cons line lines ih =>
    rw [answerLines]
    by_cases blank : (trimBytes line).isEmpty = true
    · have skipped : requests (line :: lines) = requests lines := by
        simp [requests, List.isEmpty_iff.mp blank]
      rw [if_pos blank, skipped]
      exact ih s
    · have kept : requests (line :: lines) = trimBytes line :: requests lines := by
        simp [requests, blank]
      rw [if_neg blank, kept]
      split
      · next stopped => exact .stopped stopped
      · next answered => exact .answered answered (ih _)

/-- Connections that bring the same bytes are sent the same texts, end in the same way and leave the
same store, however the bytes are cut; and this is what answering the lines of the bytes in order
comes to. -/
theorem serve_eq_of_flatten_eq {chunks others : List (List UInt8)}
    (nonempty : ∀ chunk ∈ chunks, chunk ≠ []) (othersNonempty : ∀ chunk ∈ others, chunk ≠ [])
    (same : chunks.flatten = others.flatten) (s : Store) :
    serve w fuel chunks s = serve w fuel others s ∧
    ∃ lines last, Lines chunks.flatten lines last ∧
      Handles w fuel (requests lines) s (serve w fuel chunks s) := by
  have cut : serve w fuel chunks s = answerLines w fuel (cutLines chunks.flatten).1 s :=
    serveFrom_eq w fuel nonempty List.not_mem_nil s
  have cutOthers : serve w fuel others s = answerLines w fuel (cutLines others.flatten).1 s :=
    serveFrom_eq w fuel othersNonempty List.not_mem_nil s
  refine ⟨?_, _, _, lines_cutLines chunks.flatten, ?_⟩
  · rw [cut, cutOthers, same]
  · rw [cut]
    exact handles_answerLines w fuel _ s

end Answering

/-- The line `"é"` and the beginning of another one, cut inside the letter and between carriage
return and newline. -/
def splitLetter : List (List UInt8) := [[0x22, 0xC3], [0xA9, 0x22, 0x0D], [0x0A, 0x31]]

theorem serve_eq_of_flatten_eq_splitLetter :
    (∀ chunk ∈ splitLetter, chunk ≠ []) ∧ (∀ chunk ∈ [splitLetter.flatten], chunk ≠ []) ∧
    serve bareWorld 0 splitLetter .empty = serve bareWorld 0 [splitLetter.flatten] .empty := by
  have nonempty : ∀ chunk ∈ splitLetter, chunk ≠ [] := by decide
  have wholeNonempty : ∀ chunk ∈ [splitLetter.flatten], chunk ≠ [] := by decide
  exact ⟨nonempty, wholeNonempty,
    (serve_eq_of_flatten_eq bareWorld 0 nonempty wholeNonempty (by decide) .empty).1⟩

end Server

end LazyLisp
