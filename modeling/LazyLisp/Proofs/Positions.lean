import LazyLisp.Proofs.DefinitionPatterns
import LazyLisp.Proofs.ErrorPlaces
import LazyLisp.Proofs.ReadAccounts

/-!
From places to offsets and back.

Going to a line of a text and from its start to a column leads to an offset, and the place that was
computed for an offset leads there again: at the start of a line, at its end, on the first line and at
the end of the text. So the places in an outline stand for the names and for what the reader objects
to.
-/

namespace LazyLisp

namespace Position

/-- The offset of a place, lines being ended by the newline character only. A column is at most the
length of the line. -/
def offset? (text : List Char) (p : Position) : Option Nat :=
  let lines := text.splitOn '\n'
  match lines[p.line]? with
  | some line =>
    if p.column ≤ line.length then
      some (((lines.take p.line).map fun passed => passed.length + 1).sum + p.column)
    else none
  | none => none

section Cons

variable (c : Char) (text : List Char)

theorem offset?_start : offset? text ⟨0, 0⟩ = some 0 := by
  obtain ⟨line, lines, split⟩ := List.exists_cons_of_ne_nil (List.splitOn_ne_nil '\n' text)
  simp [offset?, split]

theorem offset?_newline (p : Position) :
    offset? ('\n' :: text) ⟨p.line + 1, p.column⟩ = (offset? text p).map (· + 1) := by
  rw [offset?, offset?, List.splitOn_cons_eq_if_modifyHead]
  simp only [beq_self_eq_true, if_true, List.getElem?_cons_succ, List.take_succ_cons]
  cases (text.splitOn '\n')[p.line]? with
  | none => rfl
  | some line =>
    simp only [List.map_cons, List.sum_cons, List.length_nil]
    split
    · rw [Option.map_some]
      congr 1
      omega
    · rfl

/-- A character on the first line moves the rest of this line and what follows. -/
theorem offset?_cons {c : Char} (inside : c ≠ '\n') (p : Position) :
    offset? (c :: text) ⟨p.line, if p.line = 0 then p.column + 1 else p.column⟩ =
      (offset? text p).map (· + 1) := by
  obtain ⟨line, lines, split⟩ := List.exists_cons_of_ne_nil (List.splitOn_ne_nil '\n' text)
  have further : (c :: text).splitOn '\n' = (c :: line) :: lines := by
    rw [List.splitOn_cons_eq_if_modifyHead, split]
    simp [inside]
  obtain ⟨l, column⟩ := p
  rw [offset?, offset?, further, split]
  cases l with
  | zero =>
    by_cases fits : column ≤ line.length <;> simp [fits]
  | succ l =>
    simp only [List.getElem?_cons_succ, List.take_succ_cons, List.map_cons, List.sum_cons,
      List.length_cons, Nat.succ_ne_zero, if_false]
    cases lines[l]? with
    | none => rfl
    | some here =>
      dsimp only
      split
      · rw [Option.map_some]
        congr 1
        omega
      · rfl

end Cons

/-- A further character in front of a text belongs to its last line if there is no other. -/
theorem length_lastLine (before : List Char) (c : Char) :
    ((before ++ [c]).takeWhile (· != '\n')).length =
      if '\n' ∈ before ∨ c = '\n' then (before.takeWhile (· != '\n')).length
      else (before.takeWhile (· != '\n')).length + 1 := by
  by_cases broken : '\n' ∈ before
  · have shorter : (before.takeWhile (· != '\n')).length ≠ before.length := by
      intro same
      have all := List.takeWhile_eq_self_iff.mp ((List.takeWhile_prefix _).eq_of_length same)
      simpa using all _ broken
    rw [List.takeWhile_append, if_neg shorter, if_pos (.inl broken)]
  · have all : ∀ d ∈ before, (d != '\n') = true := by
      intro d member
      rw [bne_iff_ne]
      rintro rfl
      exact broken member
    rw [List.takeWhile_append_of_pos all, List.takeWhile_eq_self_iff.mpr all]
    by_cases newline : c = '\n' <;> simp [newline, broken]

theorem ofOffset_newline (text : List Char) (offset : Nat) :
    ofOffset ('\n' :: text) (offset + 1) =
      ⟨(ofOffset text offset).line + 1, (ofOffset text offset).column⟩ := by
  simp [ofOffset, length_lastLine]

theorem ofOffset_cons {c : Char} (inside : c ≠ '\n') (text : List Char) (offset : Nat) :
    ofOffset (c :: text) (offset + 1) =
      ⟨(ofOffset text offset).line, if (ofOffset text offset).line = 0 then
        (ofOffset text offset).column + 1 else (ofOffset text offset).column⟩ := by
  by_cases broken : '\n' ∈ text.take offset <;>
    simp [ofOffset, length_lastLine, inside, broken, List.count_eq_zero]

theorem offset?_ofOffset {text : List Char} {offset : Nat} (within : offset ≤ text.length) :
    offset? text (ofOffset text offset) = some offset := by
  induction text generalizing offset with
  | nil =>
    obtain rfl : offset = 0 := by simpa using within
    exact offset?_start []
  | cons c text ih =>
    cases offset with
    | zero => exact offset?_start (c :: text)
    | succ offset =>
      have there := ih (Nat.le_of_succ_le_succ within)
      by_cases newline : c = '\n'
      · rw [newline, ofOffset_newline, offset?_newline, there, Option.map_some]
      · rw [ofOffset_cons newline, offset?_cons _ newline, there, Option.map_some]

end Position

end LazyLisp
