import LazyLisp.Proofs.CutText

/-!
Layout: what may stand between two tokens.

Blanks and comments are described without the lexer, by how they are spelled. A block comment ends
with the mark that closes it, and others may be nested in it; a line comment ends in front of a
newline or with the text. What the lexer passes over has this form, and where it finds no end of a
comment or of a string literal, there is none.
-/

namespace LazyLisp

def startsMark : List Char → Bool
  | '#' :: '|' :: _ | '|' :: '#' :: _ => true
  | _ => false

/-- What stands behind the mark that opens a block comment, up to and including the mark that closes
it. Marks are told from left to right, so that no character belongs to two of them. -/
inductive ClosesComment : List Char → Prop where
  | close : ClosesComment ['|', '#']
  | nested {inner rest} : ClosesComment inner → ClosesComment rest →
      ClosesComment ('#' :: '|' :: (inner ++ rest))
  | plain {c rest} : startsMark (c :: rest) = false → ClosesComment rest → ClosesComment (c :: rest)

/-- What stands behind the quote that opens a string literal, up to and including the quote that
closes it. A backslash takes the character behind it along. -/
inductive ClosesString : List Char → Prop where
  | close : ClosesString ['"']
  | escape {c rest} : ClosesString rest → ClosesString ('\\' :: c :: rest)
  | plain {c rest} : c ≠ '"' → c ≠ '\\' → ClosesString rest → ClosesString (c :: rest)

def OpenComment (text : List Char) : Prop :=
  ∃ rest, text = '#' :: '|' :: rest ∧ ∀ front, front <+: rest → ¬ ClosesComment front

def OpenString (text : List Char) : Prop :=
  ∃ rest, text = '"' :: rest ∧ ∀ front, front <+: rest → ¬ ClosesString front

/-- Blanks and comments in front of `rest`. -/
inductive Layout (rest : List Char) : List Char → Prop where
  | nil : Layout rest []
  | blank {c gap} : Text.isBlank c = true → Layout rest gap → Layout rest (c :: gap)
  | line {comment gap} : '\n' ∉ comment → (∀ c ∈ (gap ++ rest).head?, c = '\n') →
      Layout rest gap → Layout rest (';' :: (comment ++ gap))
  | block {body gap} : ClosesComment body → Layout rest gap →
      Layout rest ('#' :: '|' :: (body ++ gap))

namespace Layout

variable {rest gap : List Char}

theorem append {front : List Char} (first : Layout (gap ++ rest) front)
    (second : Layout rest gap) : Layout rest (front ++ gap) := by
  induction first with
  | nil => exact second
  | blank blank _ ih => exact .blank blank ih
  | line noBreak ends _ ih =>
    rw [List.cons_append, List.append_assoc]
    exact .line noBreak (by rwa [List.append_assoc]) ih
  | block closes _ ih =>
    rw [List.cons_append, List.cons_append, List.append_assoc]
    exact .block closes ih

theorem of_blanks (blanks : ∀ c ∈ gap, Text.isBlank c = true) : Layout rest gap := by
  induction gap with
  | nil => exact .nil
  | cons c gap ih =>
    exact .blank (blanks c List.mem_cons_self)
      (ih fun d member => blanks d (List.mem_cons_of_mem c member))

end Layout

theorem startsMark_append {c : Char} {front : List Char} (nonempty : front ≠ [])
    (rest : List Char) : startsMark (c :: (front ++ rest)) = startsMark (c :: front) := by
  obtain ⟨d, front, rfl⟩ := List.exists_cons_of_ne_nil nonempty
  simp only [List.cons_append, startsMark]
  split <;> simp_all

namespace ClosesComment

variable {body rest : List Char}

theorem ne_nil (closes : ClosesComment body) : body ≠ [] := by
  cases closes <;> simp

theorem blockEnd_append (closes : ClosesComment body) (depth count : Nat) (rest : List Char) :
    Lexeme.blockEnd depth count (body ++ rest) =
      match depth with
      | 0 => some (count + body.length, rest)
      | depth + 1 => Lexeme.blockEnd depth (count + body.length) rest := by
  induction closes generalizing depth count rest with
  | close => cases depth <;> simp [Lexeme.blockEnd]
  | @nested inner back _ _ ihInner ihBack =>
    have length : count + 2 + inner.length + back.length =
        count + ('#' :: '|' :: (inner ++ back)).length := by
      simp
      omega
    rw [List.cons_append, List.cons_append, Lexeme.blockEnd, List.append_assoc, ihInner]
    simp only [ihBack, length]
  | @plain c back noMark closes ih =>
    have length : count + 1 + back.length = count + (c :: back).length := by
      simp
      omega
    rw [← startsMark_append closes.ne_nil rest] at noMark
    rw [List.cons_append, Lexeme.blockEnd, ih, length]
    · rintro tail rfl same
      simp [same, startsMark] at noMark
    · rintro tail rfl same
      simp [same, startsMark] at noMark

end ClosesComment

theorem exists_closed_of_blockEnd {depth count length : Nat} {text rest : List Char}
    (found : Lexeme.blockEnd depth count text = some (length, rest)) :
    ∃ bodies : List (List Char), bodies.length = depth + 1 ∧
      (∀ body ∈ bodies, ClosesComment body) ∧ text = bodies.flatten ++ rest := by
  fun_induction Lexeme.blockEnd depth count text with
  | case1 depth count tail ih =>
    obtain ⟨bodies, size, closes, rfl⟩ := ih found
    obtain ⟨inner, more, rfl⟩ := List.exists_cons_of_length_eq_add_one size
    obtain ⟨back, bodies, rfl⟩ := List.exists_cons_of_length_eq_add_one (Nat.succ.inj size)
    simp only [List.mem_cons, forall_eq_or_imp] at closes
    refine ⟨('#' :: '|' :: (inner ++ back)) :: bodies, by simpa using size, ?_, by simp⟩
    simpa using ⟨.nested closes.1 closes.2.1, closes.2.2⟩
  | case2 count tail =>
    obtain ⟨-, rfl⟩ := Prod.mk.inj (Option.some.inj found)
    exact ⟨[['|', '#']], rfl, by simpa using .close, rfl⟩
  | case3 count tail depth ih =>
    obtain ⟨bodies, size, closes, rfl⟩ := ih found
    exact ⟨['|', '#'] :: bodies, by simp [size], by simpa using ⟨.close, closes⟩, rfl⟩
  | case4 depth count c tail noOpen noClose ih =>
    obtain ⟨bodies, size, closes, rfl⟩ := ih found
    obtain ⟨body, bodies, rfl⟩ := List.exists_cons_of_length_eq_add_one size
    simp only [List.mem_cons, forall_eq_or_imp] at closes
    have noMark : startsMark (c :: body) = false := by
      obtain ⟨d, body, rfl⟩ := List.exists_cons_of_ne_nil closes.1.ne_nil
      unfold startsMark
      split
      · next same => simp_all
      · next same => simp_all
      · rfl
    refine ⟨(c :: body) :: bodies, by simpa using size, ?_, by simp⟩
    simpa using ⟨.plain noMark closes.1, closes.2⟩
  | case5 => simp at found

theorem ClosesString.stringBody_append {body : List Char} (closes : ClosesString body)
    (soFar rest : List Char) :
    Lexeme.stringBody soFar (body ++ rest) = .closed (soFar.reverse ++ body) rest := by
  induction closes generalizing soFar with
  | close => simp [Lexeme.stringBody]
  | escape _ ih => simp [Lexeme.stringBody, ih]
  | plain _ noBackslash _ ih => simp [Lexeme.stringBody, noBackslash, ih]

namespace Lexeme

variable {text rest : List Char}

/-- What the lexer passes over as a comment is one. -/
theorem layout_of_comment {length : Nat} (found : next text = .comment length rest) :
    ∃ passed, text = passed ++ rest ∧ length = passed.length ∧ Layout rest passed := by
  unfold next at found
  split at found <;> (try split at found) <;>
    simp only [comment.injEq, reduceCtorEq] at found
  · next tail =>
    obtain ⟨rfl, rfl⟩ := found
    have noBreak : '\n' ∉ tail.takeWhile (· != '\n') := by
      intro member
      simpa using List.mem_takeWhile_imp member
    refine ⟨';' :: (tail.takeWhile (· != '\n') ++ []), by simp, by simp; omega, ?_⟩
    refine .line noBreak ?_ .nil
    intro c head
    have stops := List.head?_dropWhile_not (· != '\n') tail
    rw [List.nil_append] at head
    rw [Option.mem_def.mp head] at stops
    simpa using stops
  · next ended =>
    obtain ⟨rfl, rfl⟩ := found
    obtain ⟨passed, whole, rfl⟩ := append_of_blockEnd ended
    obtain ⟨bodies, size, closes, same⟩ := exists_closed_of_blockEnd ended
    obtain ⟨body, rfl⟩ := List.length_eq_one_iff.mp size
    rw [List.flatten_singleton] at same
    obtain rfl := List.append_cancel_right (whole.symm.trans same)
    refine ⟨'#' :: '|' :: (passed ++ []), by simp [whole], by simp; omega, ?_⟩
    exact .block (closes passed List.mem_cons_self) .nil

theorem openComment_of_next (found : next text = .openComment) : OpenComment text := by
  unfold next at found
  split at found <;> (try split at found) <;> simp only [reduceCtorEq] at found
  next tail _ unclosed =>
  refine ⟨tail, rfl, ?_⟩
  rintro front ⟨back, rfl⟩ closes
  simp [closes.blockEnd_append] at unclosed

theorem openString_of_stringBody {tail : List Char}
    (unclosed : ∀ body rest, stringBody ['"'] tail ≠ .closed body rest) :
    OpenString ('"' :: tail) := by
  refine ⟨tail, rfl, ?_⟩
  rintro front ⟨back, rfl⟩ closes
  exact unclosed _ back (closes.stringBody_append ['"'] back)

theorem openString_of_next (found : next text = .openString) : OpenString text := by
  unfold next at found
  split at found <;> (try split at found) <;> simp only [reduceCtorEq] at found
  next tail _ unclosed => exact openString_of_stringBody (by simp [unclosed])

/-- Nothing starts only at the end of the text and at a string literal that is not closed. -/
theorem openString_of_nothing (found : next text = .nothing) (nonempty : text ≠ []) :
    OpenString text := by
  unfold next at found
  split at found <;> (try split at found) <;> simp only [reduceCtorEq] at found
  · next tail _ unclosed => exact openString_of_stringBody (by simp [unclosed])
  · exact absurd rfl nonempty

end Lexeme

end LazyLisp
