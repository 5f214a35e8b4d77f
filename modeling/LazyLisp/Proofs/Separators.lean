import LazyLisp.Proofs.JoinedText
import LazyLisp.Proofs.WholeTexts

/-!
Texts apart.

Behind a text that can be read, and a newline, any layout may follow: a second text behind it is cut
into its own tokens, only further to the right. So the two texts can be read together if and only if
the second one can, and its forms follow those of the first one.
-/

namespace LazyLisp

/-- A text that stands further to the right can be cut into tokens if it can be cut alone, and has
the same ones. -/
theorem Lexed.Shifted.tokens {k : Nat} {l m : Lexed} (shifted : Shifted k l m) :
    (m.failure = none ↔ l.failure = none) ∧ m.tokens = l.tokens.map (Token.moved k) := by
  cases shifted with
  | moved => simp [Lexed.moved]
  | strange => simp

theorem Lexeme.next_line {comment rest : List Char} (noBreak : '\n' ∉ comment)
    (ends : ∀ c ∈ rest.head?, c = '\n') :
    next (';' :: (comment ++ rest)) = .comment (';' :: comment).length rest := by
  have passes : ∀ c ∈ comment, (c != '\n') = true := by
    intro c member
    simp only [bne_iff_ne]
    rintro rfl
    exact noBreak member
  have stops : rest.takeWhile (· != '\n') = [] ∧ rest.dropWhile (· != '\n') = rest := by
    cases rest with
    | nil => simp
    | cons c rest => simp [ends c rfl]
  simp only [next, List.takeWhile_append_of_pos passes, List.dropWhile_append_of_pos passes, stops]
  simp [Nat.add_comm]

theorem Lexeme.next_block {body : List Char} (closes : ClosesComment body) (rest : List Char) :
    next ('#' :: '|' :: (body ++ rest)) = .comment ('#' :: '|' :: body).length rest := by
  have length : 2 + body.length = ('#' :: '|' :: body).length := by
    simp
    omega
  simp only [next, closes.blockEnd_append, length]

/-- Layout in front of a text only moves its tokens. -/
theorem Layout.shifted {text gap : List Char} (layout : Layout text gap) :
    Lexed.Shifted gap.length (lex text) (lex (gap ++ text)) := by
  -- One comment, which is no blank, in front of what is known already.
  have comment (piece : List Char) {gap : List Char} {c : Char} (solid : Text.isBlank c = false)
      (found : Lexeme.next (c :: (piece ++ (gap ++ text))) =
        .comment (c :: piece).length (gap ++ text))
      (ih : Lexed.Shifted gap.length (lex text) (lex (gap ++ text))) :
      Lexed.Shifted (c :: (piece ++ gap)).length (lex text)
        (lex (c :: (piece ++ gap) ++ text)) := by
    have start : (c :: (piece ++ (gap ++ text))).dropWhile Text.isBlank =
        c :: (piece ++ (gap ++ text)) := by
      simp [solid]
    have none : blanks (c :: (piece ++ (gap ++ text))) = 0 := by
      simp [blanks, solid]
    have moved := lex_of_comment (start.symm ▸ found)
    have length : gap.length + (0 + (c :: piece).length) = (c :: (piece ++ gap)).length := by
      simp
      omega
    rw [List.cons_append, List.append_assoc, moved, none, ← length]
    exact ih.trans (.moved _)
  induction layout with
  | nil =>
    have shifted := Lexed.Shifted.moved (k := 0) (lex text)
    rwa [Lexed.moved_zero] at shifted
  | blank blank _ ih =>
    exact ih.trans (lex_append_of_isBlank (fun d member => List.mem_singleton.mp member ▸ blank) _)
  | line noBreak ends _ ih => exact comment _ (by decide) (Lexeme.next_line noBreak ends) ih
  | @block body gap closes _ ih =>
    exact comment ('|' :: body) (by decide) (Lexeme.next_block closes (gap ++ text)) ih

section Separators

variable {a b gap : List Char}

/-- The tokens of two texts with a newline and layout between them. -/
theorem lex_append_separator (sound : (lex a).failure = none) (whole : ¬ EndsInMark a)
    (layout : Layout b gap) :
    ((lex (a ++ '\n' :: (gap ++ b))).failure = none ↔ (lex b).failure = none) ∧
      ∃ k, (lex (a ++ '\n' :: (gap ++ b))).tokens =
        (lex a).tokens ++ (lex b).tokens.map (Token.moved k) := by
  obtain ⟨later, shifted, lexed⟩ := lex_append_line sound whole (gap ++ b)
  obtain ⟨sameFailure, sameTokens⟩ := (layout.shifted.trans shifted).tokens
  rw [lexed]
  exact ⟨sameFailure, _, congrArg _ sameTokens⟩

theorem reads_append_separator {ds : List Datum} (sound : (lex a).failure = none)
    (reads : Move.Reads [] (lex a).tokens ds []) (whole : ¬ EndsInMark a) (layout : Layout b gap) :
    ((lex (a ++ '\n' :: (gap ++ b))).failure = none ↔ (lex b).failure = none) ∧
      (∀ fs, Move.Reads [] (lex (a ++ '\n' :: (gap ++ b))).tokens fs [] ↔
        ∃ es, fs = ds ++ es ∧ Move.Reads [] (lex b).tokens es []) ∧
      nesting (lex (a ++ '\n' :: (gap ++ b))).tokens =
        max (nesting (lex a).tokens) (nesting (lex b).tokens) := by
  obtain ⟨later, k, tokens⟩ := lex_append_separator sound whole layout
  refine ⟨later, fun fs => ?_, ?_⟩
  · rw [tokens, reads.append_iff]
    simp only [Move.Reads.moved_iff]
  · rw [tokens, reads.nesting_append, nesting_moved]

/-- Two texts with a newline and layout between them are read one after the other. The first one
must not end in the mark of a character literal, which takes the newline for its character. -/
theorem readAll_append_separator {limit : Option Nat} {ds fs : List Datum}
    (read : readAll limit a = .ok ds) (whole : ¬ EndsInMark a) (layout : Layout b gap) :
    readAll limit (a ++ '\n' :: (gap ++ b)) = .ok fs ↔
      ∃ es, readAll limit b = .ok es ∧ fs = ds ++ es := by
  obtain ⟨sound, reads, fits⟩ := readAll_eq_ok_iff.mp read
  obtain ⟨later, joined, deep⟩ := reads_append_separator sound reads whole layout
  have room : (∀ most ∈ limit, nesting (lex (a ++ '\n' :: (gap ++ b))).tokens ≤ most) ↔
      ∀ most ∈ limit, nesting (lex b).tokens ≤ most := by
    simp only [deep, Nat.max_le]
    exact ⟨fun both most bound => (both most bound).2, fun second most bound =>
      ⟨fits most bound, second most bound⟩⟩
  rw [readAll_eq_ok_iff, later, room, joined]
  simp only [readAll_eq_ok_iff]
  constructor
  · rintro ⟨soundB, ⟨es, rfl, readsB⟩, roomB⟩
    exact ⟨es, ⟨soundB, readsB, roomB⟩, rfl⟩
  · rintro ⟨es, ⟨soundB, readsB, roomB⟩, rfl⟩
    exact ⟨soundB, ⟨es, rfl, readsB⟩, roomB⟩

theorem readAll_joined {limit : Option Nat} {ds es : List Datum} (first : readAll limit a = .ok ds)
    (whole : ¬ EndsInMark a) (layout : Layout b gap) (second : readAll limit b = .ok es) :
    readAll limit (a ++ '\n' :: (gap ++ b)) = .ok (ds ++ es) := by
  obtain ⟨soundA, readsA, fitsA⟩ := readAll_eq_ok_iff.mp first
  obtain ⟨soundB, readsB, fitsB⟩ := readAll_eq_ok_iff.mp second
  obtain ⟨later, joined, deep⟩ := reads_append_separator soundA readsA whole layout
  refine readAll_eq_ok_iff.mpr ⟨later.mpr soundB, (joined _).mpr ⟨es, rfl, readsB⟩, ?_⟩
  intro most held
  rw [deep]
  exact Nat.max_le.mpr ⟨fitsA most held, fitsB most held⟩

/-- A comment at the end of the first text, and comments of both kinds between the texts. -/
theorem readAll_append_separator_comments :
    ∃ ds es, readAll none ['f', ' ', ';'] = .ok ds ∧ readAll none ['\'', 'x'] = .ok es ∧
      readAll none (['f', ' ', ';'] ++ '\n' ::
        ([';', '(', '\n', '#', '|', ')', '"', '|', ';', '|', '#'] ++ ['\'', 'x'])) =
          .ok (ds ++ es) := by
  have first : readAll none ['f', ' ', ';'] = .ok [.symbol "f"] := by with_unfolding_all rfl
  have second : readAll none ['\'', 'x'] = .ok [Datum.list [.symbol "quote", .symbol "x"]] := by
    with_unfolding_all rfl
  have whole : ¬ EndsInMark ['f', ' ', ';'] := by
    rw [EndsInMark]
    decide +kernel
  have closes : ClosesComment [')', '"', '|', ';', '|', '#'] := by
    iterate 4 refine .plain rfl ?_
    exact .close
  have layout : Layout ['\'', 'x']
      (';' :: (['('] ++ '\n' :: '#' :: '|' :: ([')', '"', '|', ';', '|', '#'] ++ []))) :=
    .line (by decide) (by simp) (.blank rfl (.block closes .nil))
  exact ⟨_, _, first, second, (readAll_append_separator first whole layout).mpr ⟨_, second, rfl⟩⟩

end Separators

end LazyLisp
