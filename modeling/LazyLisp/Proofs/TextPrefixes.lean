import LazyLisp.Proofs.CutText

/-!
A text cut behind one of its tokens.

A lexeme is found again when the text behind it is cut short, wherever the cut is, since what a
lexeme takes along is decided by the characters up to its end and by the first one behind it. So the
text up to the end of a token has the tokens up to that one and no complaint.
-/

namespace LazyLisp

namespace Lexeme

variable {text rest : List Char}

theorem exists_passed_of_closed {soFar text body rest : List Char}
    (found : stringBody soFar text = .closed body rest) :
    ∃ passed, text = passed ++ rest ∧
      ∀ more, stringBody soFar (passed ++ more) = .closed body more := by
  fun_induction stringBody soFar text with
  | case1 => cases found
  | case2 soFar tail =>
    obtain ⟨rfl, rfl⟩ := Body.closed.inj found
    exact ⟨['"'], rfl, fun more => by simp [stringBody]⟩
  | case3 => cases found
  | case4 soFar c tail ih =>
    obtain ⟨passed, rfl, closes⟩ := ih found
    exact ⟨'\\' :: c :: passed, rfl, fun more => by simpa [stringBody] using closes more⟩
  | case5 soFar c tail noQuote noStray noEscape ih =>
    obtain ⟨passed, rfl, closes⟩ := ih found
    have plain : c ≠ '\\' := by
      rintro rfl
      cases passed with
      | nil =>
        have ended := closes []
        simp [stringBody] at ended
      | cons d passed => exact noEscape d (passed ++ rest) rfl rfl
    exact ⟨c :: passed, rfl, fun more => by simpa [stringBody, plain] using closes more⟩

theorem exists_passed_of_blockEnd {depth count length : Nat} {text rest : List Char}
    (found : blockEnd depth count text = some (length, rest)) :
    ∃ passed, text = passed ++ rest ∧
      ∀ more, blockEnd depth count (passed ++ more) = some (length, more) := by
  fun_induction blockEnd depth count text with
  | case1 depth count tail ih =>
    obtain ⟨passed, rfl, closes⟩ := ih found
    exact ⟨'#' :: '|' :: passed, rfl, fun more => by simpa [blockEnd] using closes more⟩
  | case2 count tail =>
    obtain ⟨rfl, rfl⟩ := Prod.mk.inj (Option.some.inj found)
    exact ⟨['|', '#'], rfl, fun more => by simp [blockEnd]⟩
  | case3 count tail depth ih =>
    obtain ⟨passed, rfl, closes⟩ := ih found
    exact ⟨'|' :: '#' :: passed, rfl, fun more => by simpa [blockEnd] using closes more⟩
  | case4 depth count c tail noOpen noClose ih =>
    obtain ⟨passed, rfl, closes⟩ := ih found
    refine ⟨c :: passed, rfl, fun more => ?_⟩
    -- A comment does not end without a further character, so that no mark is made by the cut.
    cases passed with
    | nil =>
      have ended := closes []
      simp [blockEnd] at ended
    | cons d passed =>
      rw [List.cons_append, List.cons_append, blockEnd]
      · exact closes more
      · intro rest hash bar
        exact noOpen _ hash (by rw [List.cons_append, (List.cons.inj bar).1])
      · intro rest bar hash
        exact noClose _ bar (by rw [List.cons_append, (List.cons.inj hash).1])
  | case5 => cases found

/-- A text has the same name of a character as a longer one, if it is long enough for it. -/
theorem charLength_eq_of_front {text longer : List Char} (front : text <+: longer)
    (enough : charLength longer ≤ text.length) : charLength text = charLength longer := by
  have shorter (name : List Char) (starts : name.isPrefixOf text = true) :
      name.isPrefixOf longer = true := by
    rw [List.isPrefixOf_iff_prefix] at starts ⊢
    exact starts.trans front
  cases known : namedChars.find? (·.isPrefixOf longer) with
  | none =>
    have unknown : namedChars.find? (·.isPrefixOf text) = none := by
      rw [List.find?_eq_none] at known ⊢
      exact fun name member starts => known name member (shorter name starts)
    simp only [charLength, known, unknown]
  | some name =>
    obtain ⟨starts, before, behind, names, others⟩ := List.find?_eq_some_iff_append.mp known
    have long : name.length ≤ text.length := by
      simpa only [charLength, known] using enough
    have again : namedChars.find? (·.isPrefixOf text) = some name := by
      refine List.find?_eq_some_iff_append.mpr ⟨?_, before, behind, names, ?_⟩
      · rw [List.isPrefixOf_iff_prefix] at starts ⊢
        exact List.prefix_of_prefix_length_le starts front long
      · intro other member
        have different := others other member
        simp only [Bool.not_eq_true'] at different ⊢
        refine Bool.eq_false_iff.mpr fun begins => ?_
        exact Bool.eq_false_iff.mp different (shorter other begins)
    simp only [charLength, known, again]

theorem StartsWord.of_prefix {c : Char} {more longer : List Char} (starts : StartsWord c longer)
    (front : more <+: longer) : StartsWord c more := by
  obtain ⟨behind, rfl⟩ := front
  refine ⟨starts.plain, ?_, ?_⟩
  · rintro rest hash rfl
    exact starts.noComment _ hash rfl
  · rintro d rest hash rfl
    exact starts.noLiteral d _ hash rfl

theorem takeWhile_append_take (p : Char → Bool) (text : List Char) (k : Nat) :
    (text.takeWhile p ++ (text.dropWhile p).take k).takeWhile p = text.takeWhile p ∧
      (text.takeWhile p ++ (text.dropWhile p).take k).dropWhile p = (text.dropWhile p).take k := by
  have passes : ∀ c ∈ text.takeWhile p, p c = true :=
    fun c member => List.all_eq_true.mp List.all_takeWhile c member
  rw [List.takeWhile_append_of_pos passes, List.dropWhile_append_of_pos passes]
  cases left : (text.dropWhile p).take k with
  | nil => simp
  | cons c more =>
    have stops : p c = false := by
      have head := List.head?_dropWhile_not p text
      cases whole : text.dropWhile p with
      | nil => simp [whole] at left
      | cons d rest =>
        cases k with
        | zero => simp at left
        | succ k =>
          rw [whole, List.take_succ_cons] at left
          rw [whole, (List.cons.inj left).1] at head
          exact head
    simp [stops]

theorem next_append_take_of_token {chars : List Char} {kind : Token.Kind}
    (found : next text = .token kind chars rest) (k : Nat) :
    next (chars ++ rest.take k) = .token kind chars (rest.take k) := by
  by_cases word : kind = .word
  · subst word
    obtain ⟨c, more, rfl, starts, rfl, rfl⟩ := startsWord_of_next found
    obtain ⟨taken, left⟩ := takeWhile_append_take isWordChar more k
    have front : more.takeWhile isWordChar ++ (more.dropWhile isWordChar).take k <+: more := by
      have whole := List.takeWhile_append_dropWhile (p := isWordChar) (l := more)
      conv_rhs => rw [← whole]
      exact (List.prefix_append_right_inj _).mpr (List.take_prefix _ _)
    rw [List.cons_append, next_of_startsWord (starts.of_prefix front), taken, left]
  · unfold next at found
    split at found <;> (try split at found) <;>
      simp only [token.injEq, reduceCtorEq] at found
    all_goals obtain ⟨rfl, rfl, rfl⟩ := found
    case h_1 chars closed =>
      obtain ⟨passed, rfl, closes⟩ := exists_passed_of_closed closed
      have spelled := append_of_closed closed
      rw [← List.append_assoc] at spelled
      obtain rfl := List.append_cancel_right spelled
      simp [next, closes]
    case h_6 tail noAt =>
      cases left : tail.take k with
      | nil => simp [next]
      | cons d more =>
        have noAt : d ≠ '@' := by
          rintro rfl
          have front : ('@' :: more) <+: tail := left ▸ List.take_prefix k tail
          obtain ⟨behind, whole⟩ := front
          exact noAt _ whole.symm
        simp [next, noAt]
    case h_10 c tail =>
      -- The mark, the name and what is left of the rest are the first characters of the text.
      generalize known : charLength (c :: tail) = length
      have positive : 0 < length := known ▸ charLength_pos _
      have within : length ≤ (c :: tail).length := known ▸ charLength_le
      obtain ⟨j, rfl⟩ := Nat.exists_eq_add_one.mpr positive
      have same : charLength ((c :: tail).take (j + 1 + k)) = j + 1 := by
        refine (charLength_eq_of_front (List.take_prefix _ _) ?_).trans known
        rw [known, List.length_take]
        omega
      rw [List.cons_append, List.cons_append, ← List.take_add]
      have first : (c :: tail).take (j + 1 + k) = c :: tail.take (j + k) := by
        rw [Nat.add_right_comm, List.take_succ_cons]
      rw [first] at same ⊢
      rw [next, same, ← first, List.take_take, List.drop_take]
      simp
    case h_12 => exact absurd rfl word
    all_goals simp [next]

theorem next_append_take_of_comment {length : Nat} (found : next text = .comment length rest) :
    ∃ passed, text = passed ++ rest ∧
      ∀ k, next (passed ++ rest.take k) = .comment length (rest.take k) := by
  unfold next at found
  split at found <;> (try split at found) <;>
    simp only [comment.injEq, reduceCtorEq] at found
  · next tail =>
    obtain ⟨rfl, rfl⟩ := found
    refine ⟨';' :: tail.takeWhile (· != '\n'), by simp, fun k => ?_⟩
    obtain ⟨taken, left⟩ := takeWhile_append_take (· != '\n') tail k
    simp [next, taken, left]
  · next ended =>
    obtain ⟨rfl, rfl⟩ := found
    obtain ⟨passed, rfl, closes⟩ := exists_passed_of_blockEnd ended
    exact ⟨'#' :: '|' :: passed, rfl, fun k => by simp [next, closes]⟩

end Lexeme

/-- A cut behind the first lexeme leaves the lexeme and the blanks in front of it as they are. -/
theorem dropWhile_isBlank_take {text lexeme rest : List Char}
    (found : text.dropWhile Text.isBlank = lexeme ++ rest) (nonempty : lexeme ≠ []) (k : Nat) :
    (text.take (blanks text + lexeme.length + k)).dropWhile Text.isBlank = lexeme ++ rest.take k ∧
      blanks (text.take (blanks text + lexeme.length + k)) = blanks text := by
  have whole := List.takeWhile_append_dropWhile (p := Text.isBlank) (l := text)
  rw [found, ← List.append_assoc] at whole
  have taken : text.take (blanks text + lexeme.length + k) =
      text.takeWhile Text.isBlank ++ lexeme ++ rest.take k := by
    have front : (text.takeWhile Text.isBlank ++ lexeme).length = blanks text + lexeme.length :=
      List.length_append
    have split := @List.take_length_add_append _ (text.takeWhile Text.isBlank ++ lexeme) rest k
    rwa [front, whole] at split
  have solid : (text.takeWhile Text.isBlank ++ lexeme).dropWhile Text.isBlank = lexeme ∧
      (text.takeWhile Text.isBlank ++ lexeme).takeWhile Text.isBlank =
        text.takeWhile Text.isBlank := by
    have cut := Lexeme.takeWhile_append_take Text.isBlank text lexeme.length
    rw [found, List.take_left] at cut
    exact ⟨cut.2, cut.1⟩
  have behind := dropWhile_isBlank_append (solid.1.symm ▸ nonempty) (rest.take k)
  rw [taken]
  refine ⟨by rw [behind.1, solid.1], ?_⟩
  rw [behind.2, blanks, solid.2, blanks]

/-- The text up to the end of a token has the tokens up to that one and no complaint. -/
theorem lex_take {text : List Char} {front back : List Token} {t : Token}
    (cut : (lex text).tokens = front ++ t :: back) :
    lex (text.take t.stop) = ⟨front ++ [t], none⟩ := by
  induction text using lexeme_induction generalizing front back t with
  | token text kind chars rest found ih =>
    have again (k : Nat) : lex (text.take (blanks text + chars.length + k)) =
        ((lex (rest.take k)).moved (blanks text + chars.length)).behind
          [⟨kind, String.ofList chars, blanks text, blanks text + chars.length⟩] := by
      obtain ⟨dropped, same⟩ := dropWhile_isBlank_take (Lexeme.append_of_token found).symm
        (Lexeme.ne_nil_of_token found) k
      have first := Lexeme.next_append_take_of_token found k
      rw [← dropped] at first
      rw [lex_of_token first, same]
    rw [lex_of_token found] at cut
    cases front with
    | nil =>
      obtain ⟨rfl, -⟩ := List.cons.inj cut
      have alone := again 0
      rw [List.take_zero, lex_nil] at alone
      exact alone
    | cons first front =>
      obtain ⟨rfl, later⟩ := List.cons.inj cut
      obtain ⟨before, behind, split, rfl, moved⟩ := List.map_eq_append_iff.mp later
      obtain ⟨u, after, rfl, rfl, rfl⟩ := List.map_eq_cons_iff.mp moved
      have stop : (u.moved (blanks text + chars.length)).stop =
          blanks text + chars.length + u.stop := Nat.add_comm _ _
      rw [stop, again, ih split]
      simp [Lexed.moved, Lexed.behind]
  | comment text length rest found ih =>
    obtain ⟨comment, whole, rfl⟩ := Lexeme.append_of_comment found
    obtain ⟨passed, whole', shorter⟩ := Lexeme.next_append_take_of_comment found
    obtain rfl : comment = passed := List.append_cancel_right (whole.symm.trans whole')
    have nonempty : comment ≠ [] := by
      rintro rfl
      have less := Lexeme.length_next_lt (by rw [found]; rfl)
      simp [whole] at less
    have again (k : Nat) : lex (text.take (blanks text + comment.length + k)) =
        (lex (rest.take k)).moved (blanks text + comment.length) := by
      obtain ⟨dropped, same⟩ := dropWhile_isBlank_take whole nonempty k
      have first := shorter k
      rw [← dropped] at first
      rw [lex_of_comment first, same]
    rw [lex_of_comment found] at cut
    obtain ⟨before, behind, split, rfl, moved⟩ := List.map_eq_append_iff.mp cut
    obtain ⟨u, after, rfl, rfl, rfl⟩ := List.map_eq_cons_iff.mp moved
    have stop : (u.moved (blanks text + comment.length)).stop =
        blanks text + comment.length + u.stop := Nat.add_comm _ _
    rw [stop, again, ih split]
    simp [Lexed.moved]
  | last text last => simp [tokens_of_last last] at cut

end LazyLisp
