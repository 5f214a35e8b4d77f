import LazyLisp.Proofs.IncrementalReading

/-!
Two texts joined by a newline.

A newline ends a word and a line comment, so that the lexemes of the first text end where it ends.
One word would go on: the mark of a character literal takes the newline for its character. Behind the
last form of the first text the second one is read as if it stood alone, only further to the right;
and where nothing in it can be read, an unexpected character may be taken for another one.
-/

namespace LazyLisp

theorem takeWhile_append_cons {p : Char → Bool} {c : Char} (stops : p c = false)
    (front back : List Char) :
    (front ++ c :: back).takeWhile p = front.takeWhile p ∧
      (front ++ c :: back).dropWhile p = front.dropWhile p ++ c :: back := by
  induction front with
  | nil => simp [stops]
  | cons d front ih =>
    by_cases holds : p d = true
    · simpa [holds] using ih
    · simp [holds]

namespace Lexeme

variable {text rest : List Char}

theorem StartsWord.append_newline {c : Char} {more : List Char} (starts : StartsWord c more)
    (notMark : c :: more ≠ ['#', '\\']) (back : List Char) :
    StartsWord c (more ++ '\n' :: back) := by
  refine ⟨starts.plain, ?_, ?_⟩
  · intro tail hash comment
    cases more with
    | nil => simp at comment
    | cons d more => exact starts.noComment more hash (by rw [(List.cons.inj comment).1])
  · intro d tail hash literal
    match more with
    | [] => simp at literal
    | [e] => exact notMark (by rw [hash, (List.cons.inj literal).1])
    | e :: f :: more => exact starts.noLiteral f more hash (by rw [(List.cons.inj literal).1])

theorem charLength_append_newline (text back : List Char) :
    charLength (text ++ '\n' :: back) = charLength text := by
  have same (name : List Char) (known : name ∈ namedChars) :
      name.isPrefixOf (text ++ '\n' :: back) = name.isPrefixOf text := by
    have noneBreaks : (namedChars.all fun name => name.all (· != '\n')) = true := by decide
    have noBreak : '\n' ∉ name := by
      intro member
      simpa using List.all_eq_true.mp (List.all_eq_true.mp noneBreaks name known) '\n' member
    rw [Bool.eq_iff_iff, List.isPrefixOf_iff_prefix, List.isPrefixOf_iff_prefix]
    refine ⟨fun front => ?_, fun front => front.trans (List.prefix_append text _)⟩
    rcases List.prefix_or_prefix_of_prefix front (List.prefix_append text _) with front | longer
    · exact front
    · obtain ⟨tail, rfl⟩ := longer
      rw [List.prefix_append_right_inj] at front
      cases tail with
      | nil => simp
      | cons d tail =>
        obtain ⟨rfl, -⟩ := List.cons_prefix_cons.mp front
        exact absurd (by simp) noBreak
  rw [charLength, charLength, List.find?_congr same]

theorem next_append_newline_of_token {chars : List Char} {kind : Token.Kind}
    (found : next text = .token kind chars rest) (notMark : chars ≠ ['#', '\\'])
    (back : List Char) :
    next (text ++ '\n' :: back) = .token kind chars (rest ++ '\n' :: back) := by
  by_cases word : kind = .word
  · subst word
    obtain ⟨c, more, rfl, starts, rfl, rfl⟩ := startsWord_of_next found
    have whole : c :: more ≠ ['#', '\\'] := by
      rintro ⟨⟩
      exact notMark (by decide)
    obtain ⟨taken, left⟩ := takeWhile_append_cons (by decide : isWordChar '\n' = false) more back
    rw [List.cons_append, next_of_startsWord (starts.append_newline whole back), taken, left]
  · unfold next at found
    split at found <;> (try split at found) <;>
      simp only [token.injEq, reduceCtorEq] at found
    all_goals obtain ⟨rfl, rfl, rfl⟩ := found
    case h_1 closed => simp [next, stringBody_append _ closed]
    case h_6 tail noAt =>
      cases tail with
      | nil => simp [next]
      | cons d tail =>
        have noAt : d ≠ '@' := by
          rintro rfl
          exact noAt tail rfl
        simp [next, noAt]
    case h_10 c tail =>
      have length := charLength_append_newline (c :: tail) back
      rw [List.cons_append, List.cons_append, List.cons_append, next, ← List.cons_append, length,
        List.take_append_of_le_length charLength_le, List.drop_append_of_le_length charLength_le]
    case h_12 => exact absurd rfl word
    all_goals simp [next]

/-- A comment in front of a newline is the same comment of the whole text: it has ended, or the
newline ends it. -/
theorem next_append_newline_of_comment {length : Nat} (found : next text = .comment length rest)
    (back : List Char) :
    next (text ++ '\n' :: back) = .comment length (rest ++ '\n' :: back) := by
  unfold next at found
  split at found <;> (try split at found) <;>
    simp only [comment.injEq, reduceCtorEq] at found
  · next tail =>
    obtain ⟨rfl, rfl⟩ := found
    obtain ⟨taken, left⟩ :=
      takeWhile_append_cons (p := (· != '\n')) (c := '\n') (by decide) tail back
    simp [next, taken, left]
  · next ended =>
    obtain ⟨rfl, rfl⟩ := found
    simp [next, blockEnd_append _ ended]

/-- The mark of a character literal is a word only at the end of the text. -/
theorem rest_of_mark {kind : Token.Kind} (found : next text = .token kind ['#', '\\'] rest) :
    rest = [] := by
  by_cases word : kind = .word
  · subst word
    obtain ⟨c, more, rfl, starts, same, rfl⟩ := startsWord_of_next found
    obtain ⟨rfl, taken⟩ := List.cons.inj same
    have whole := List.takeWhile_append_dropWhile (p := isWordChar) (l := more)
    rw [← taken] at whole
    cases left : more.dropWhile isWordChar with
    | nil => rfl
    | cons d rest =>
      rw [left] at whole
      exact absurd whole.symm (starts.noLiteral d rest rfl)
  · unfold next at found
    split at found <;> (try split at found) <;>
      simp only [token.injEq, reduceCtorEq] at found
    all_goals obtain ⟨rfl, same, rfl⟩ := found
    case h_1 tail _ _ closed =>
      have spelled := append_of_closed closed
      rw [same] at spelled
      simp at spelled
    case h_10 c tail =>
      have positive := charLength_pos (c :: tail)
      have none : (c :: tail).take (charLength (c :: tail)) = [] := by simpa using same
      simp at none
      omega
    case h_12 => exact absurd rfl word
    all_goals simp at same

end Lexeme

@[simp]
theorem Lexed.moved_zero (l : Lexed) : l.moved 0 = l := by
  have same : ReadError.moved 0 = id := rfl
  simp [moved, same]

/-- The last token of a text is the mark of a character literal with no character behind it. -/
def EndsInMark (text : List Char) : Prop := ∃ t ∈ (lex text).tokens.getLast?, t.text = "#\\"

section Lexing

variable {text : List Char}

theorem endsInMark_of_token {kind : Token.Kind} {chars rest : List Char}
    (found : Lexeme.next (text.dropWhile Text.isBlank) = .token kind chars rest) :
    (EndsInMark rest → EndsInMark text) ∧ (chars = ['#', '\\'] → EndsInMark text) := by
  constructor
  · rintro ⟨t, last, mark⟩
    refine ⟨t.moved (blanks text + chars.length), ?_, mark⟩
    rw [lex_of_token found]
    simp [Lexed.behind, Lexed.moved, List.getLast?_cons, Option.mem_def.mp last]
  · rintro rfl
    obtain rfl := Lexeme.rest_of_mark found
    rw [EndsInMark, lex_of_token found]
    simp [Lexed.behind, Lexed.moved]

theorem endsInMark_of_comment {length : Nat} {rest : List Char}
    (found : Lexeme.next (text.dropWhile Text.isBlank) = .comment length rest)
    (mark : EndsInMark rest) : EndsInMark text := by
  obtain ⟨t, last, mark⟩ := mark
  refine ⟨t.moved (blanks text + length), ?_, mark⟩
  rw [lex_of_comment found]
  simp [Lexed.moved, Option.mem_def.mp last]

/-- Tokens and blanks of a text that can be cut into tokens stay the same in front of a newline. -/
theorem lex_append_newline (sound : (lex text).failure = none) (whole : ¬ EndsInMark text)
    (back : List Char) :
    ∃ front gap, text = front ++ gap ∧ (∀ c ∈ gap, Text.isBlank c = true) ∧
      lex (text ++ '\n' :: back) =
        ((lex (gap ++ '\n' :: back)).moved front.length).behind (lex text).tokens := by
  induction text using lexeme_induction with
  | token text kind chars rest found ih =>
    have lexeme := dropWhile_ne_nil (found.trans_ne (by simp))
    obtain ⟨passed, same, taken⟩ := passed_of_token found
    obtain ⟨dropped, blanks⟩ := dropWhile_isBlank_append lexeme ('\n' :: back)
    obtain ⟨later, mark⟩ := endsInMark_of_token found
    have longer := Lexeme.next_append_newline_of_token found (fun same => whole (mark same)) back
    rw [← dropped] at longer
    have soundRest : (lex rest).failure = none := by
      simpa [lex_of_token found, Lexed.behind, Lexed.moved] using sound
    obtain ⟨front, gap, rfl, blank, lexed⟩ := ih soundRest fun mark => whole (later mark)
    refine ⟨passed ++ front, gap, by rw [same, List.append_assoc], blank, ?_⟩
    rw [lex_of_token longer, lex_of_token found, lexed, blanks, List.length_append, taken]
    simp [Lexed.moved, Lexed.behind, Nat.add_comm]
  | comment text length rest found ih =>
    have lexeme := dropWhile_ne_nil (found.trans_ne (by simp))
    obtain ⟨passed, same, taken⟩ := passed_of_comment found
    obtain ⟨dropped, blanks⟩ := dropWhile_isBlank_append lexeme ('\n' :: back)
    have longer := Lexeme.next_append_newline_of_comment found back
    rw [← dropped] at longer
    have soundRest : (lex rest).failure = none := by
      simpa [lex_of_comment found, Lexed.moved] using sound
    obtain ⟨front, gap, rfl, blank, lexed⟩ :=
      ih soundRest fun mark => whole (endsInMark_of_comment found mark)
    refine ⟨passed ++ front, gap, by rw [same, List.append_assoc], blank, ?_⟩
    rw [lex_of_comment longer, lex_of_comment found, lexed, blanks, List.length_append, taken]
    simp [Lexed.moved, Lexed.behind, Nat.add_comm]
  | last text last =>
    refine ⟨[], text, rfl, ?_, by simp [tokens_of_last last]⟩
    cases found : Lexeme.next (text.dropWhile Text.isBlank) with
    | token kind chars rest => simp [found, Lexeme.rest?] at last
    | comment length rest => simp [found, Lexeme.rest?] at last
    | openString => simp [lex_of_openString found] at sound
    | openComment => simp [lex_of_openComment found] at sound
    | nothing =>
      by_cases blank : text.dropWhile Text.isBlank = []
      · exact List.dropWhile_eq_nil_iff.mp blank
      · obtain ⟨c, -, lexed⟩ := lex_of_nothing found blank
        simp [lexed] at sound

end Lexing

/-- The same tokens `k` characters further to the right. Where no token starts, the character that
is complained about may be another one. -/
inductive Lexed.Shifted (k : Nat) : Lexed → Lexed → Prop where
  | moved (l) : Shifted k l (l.moved k)
  | strange {c d i j} :
      Shifted k ⟨[], some ⟨.unexpectedChar c, i⟩⟩ ⟨[], some ⟨.unexpectedChar d, j⟩⟩

theorem Lexed.Shifted.trans {j k : Nat} {l m n : Lexed} (first : Shifted j l m)
    (second : Shifted k m n) : Shifted (j + k) l n := by
  cases second with
  | moved =>
    cases first with
    | moved =>
      rw [Lexed.moved_moved]
      exact .moved l
    | strange => exact .strange
  | @strange c d i i' =>
    generalize same : (⟨[], some ⟨.unexpectedChar c, i⟩⟩ : Lexed) = middle at first
    cases first with
    | strange => exact .strange
    | moved =>
      obtain ⟨tokens, failure⟩ := l
      obtain ⟨none, failed⟩ := Lexed.mk.inj same
      obtain rfl := List.map_eq_nil_iff.mp none.symm
      obtain ⟨⟨issue, offset⟩, rfl, moved⟩ := Option.map_eq_some_iff.mp failed.symm
      obtain ⟨rfl, -⟩ := ReadError.mk.inj moved
      exact .strange

/-- The same failure `k` characters further to the right, or another unexpected character. -/
inductive ReadFailure.Shifted (k : Nat) : ReadFailure → ReadFailure → Prop where
  | moved (f) : Shifted k f (f.moved k)
  | strange {c d i j} :
      Shifted k (.error ⟨.unexpectedChar c, i⟩) (.error ⟨.unexpectedChar d, j⟩)

theorem ReadFailure.Shifted.isEnd {k : Nat} {f g : ReadFailure} (shifted : Shifted k f g) :
    g.isEnd = f.isEnd := by
  cases shifted with
  | moved f => cases f <;> rfl
  | strange => rfl

def ParsedForm.moved (k : Nat) : ParsedForm → ParsedForm
  | form d stop => form d (stop + k)
  | failed f stop => failed (f.moved k) (stop + k)

theorem parseFormFrom_moved (k : Nat) (failure : Option ReadError) (stack : List OpenForm)
    (pos : Nat) (ts : List Token) :
    parseFormFrom (failure.map (ReadError.moved k)) (stack.map (OpenForm.moved k)) (pos + k)
        (ts.map (Token.moved k)) =
      (parseFormFrom failure stack pos ts).moved k := by
  induction ts generalizing stack pos with
  | nil =>
    cases failure <;>
      simp [parseFormFrom, ParsedForm.moved, ReadFailure.moved, ← Move.missing_moved]
  | cons t ts ih =>
    have later := Move.feed_moved k stack t
    cases fed : Move.feed stack t with
    | error f =>
      rw [fed] at later
      simp only [List.map_cons, parseFormFrom, fed, later, Except.map, mapError_error]
      rfl
    | ok move =>
      rw [fed] at later
      cases move with
      | stay below =>
        simp only [List.map_cons, parseFormFrom, fed, later, Except.map, mapError_ok, Move.moved]
        exact ih below t.stop
      | complete d =>
        simp only [List.map_cons, parseFormFrom, fed, later, Except.map, mapError_ok, Move.moved]
        rfl

theorem lex_append_of_isBlank {gap : List Char} (blank : ∀ c ∈ gap, Text.isBlank c = true)
    (text : List Char) : Lexed.Shifted gap.length (lex text) (lex (gap ++ text)) := by
  have same : (gap ++ text).dropWhile Text.isBlank = text.dropWhile Text.isBlank :=
    List.dropWhile_append_of_pos blank
  have more : blanks (gap ++ text) = blanks text + gap.length := by
    rw [blanks, List.takeWhile_append_of_pos blank, List.length_append, Nat.add_comm, blanks]
  have equal (shifted : lex (gap ++ text) = (lex text).moved gap.length) :
      Lexed.Shifted gap.length (lex text) (lex (gap ++ text)) := by
    rw [shifted]
    exact .moved _
  cases found : Lexeme.next (text.dropWhile Text.isBlank) with
  | token kind chars rest =>
    refine equal ?_
    rw [lex_of_token found, lex_of_token (same ▸ found), more]
    simp [Token.moved, Nat.add_right_comm]
  | comment length rest =>
    refine equal ?_
    rw [lex_of_comment found, lex_of_comment (same ▸ found), more]
    simp [Nat.add_right_comm]
  | openString =>
    refine equal ?_
    rw [lex_of_openString found, lex_of_openString (same ▸ found), more]
    rfl
  | openComment =>
    refine equal ?_
    rw [lex_of_openComment found, lex_of_openComment (same ▸ found), more]
    rfl
  | nothing =>
    by_cases ended : text.dropWhile Text.isBlank = []
    · refine equal ?_
      rw [lex_of_blank ended, lex_of_blank (same ▸ ended)]
      rfl
    · obtain ⟨c, -, lexed⟩ := lex_of_nothing found ended
      obtain ⟨d, -, later⟩ := lex_of_nothing (same ▸ found) (same ▸ ended)
      rw [lexed, later]
      exact .strange

/-- Behind a newline a text is cut into its own tokens, and those of the first text stand in front
of them. -/
theorem lex_append_line {text : List Char} (sound : (lex text).failure = none)
    (whole : ¬ EndsInMark text) (back : List Char) :
    ∃ later, Lexed.Shifted (text.length + 1) (lex back) later ∧
      lex (text ++ '\n' :: back) = later.behind (lex text).tokens := by
  obtain ⟨front, gap, rfl, blank, lexed⟩ := lex_append_newline sound whole back
  have blanks : ∀ c ∈ gap ++ ['\n'], Text.isBlank c = true := by
    intro c member
    rcases List.mem_append.mp member with member | member
    · exact blank c member
    · obtain rfl := List.mem_singleton.mp member
      rfl
  have shifted := (lex_append_of_isBlank blanks back).trans (.moved (k := front.length) _)
  have sum : (gap ++ ['\n']).length + front.length = (front ++ gap).length + 1 := by
    simp
    omega
  rw [sum, List.append_assoc, List.singleton_append] at shifted
  exact ⟨_, shifted, lexed⟩

/-- Behind a text without tokens, and a newline, a text is cut into its own tokens. -/
theorem lex_shifted {gap : List Char} (empty : lex gap = ⟨[], none⟩) (text : List Char) :
    Lexed.Shifted (gap.length + 1) (lex text) (lex (gap ++ '\n' :: text)) := by
  have whole : ¬ EndsInMark gap := by
    simp [EndsInMark, empty]
  obtain ⟨later, shifted, lexed⟩ := lex_append_line (by rw [empty]) whole text
  rwa [lexed, empty, Lexed.behind_nil]

namespace Input

/-- Behind a text without tokens, and a newline, the first form of a text is found as in the text
alone. -/
theorem firstForm_shifted {gap : List Char} (empty : lex gap = ⟨[], none⟩) (text : List Char) :
    match firstForm none text with
    | .ok (d, stop) => firstForm none (gap ++ '\n' :: text) = .ok (d, stop + (gap.length + 1))
    | .error f => ∃ g, firstForm none (gap ++ '\n' :: text) = .error g ∧
        f.Shifted (gap.length + 1) g := by
  have length : (gap ++ '\n' :: text).length = text.length + (gap.length + 1) := by
    simp
    omega
  have shifted := lex_shifted empty text
  simp only [firstForm, exceeds_none, length]
  generalize lex (gap ++ '\n' :: text) = later at shifted
  generalize gap.length + 1 = k at shifted ⊢
  generalize lex text = alone at shifted ⊢
  cases shifted with
  | strange => exact ⟨_, rfl, .strange⟩
  | moved =>
    obtain ⟨tokens, failure⟩ := alone
    have parsed := parseFormFrom_moved k failure [] 0 tokens
    cases tokens with
    | nil =>
      cases failure with
      | none => exact ⟨_, rfl, .moved (.error ⟨.endOfInput, text.length⟩)⟩
      | some e => exact ⟨_, rfl, .moved (.error e)⟩
    | cons t ts =>
      change parseForm (Lexed.moved k ⟨t :: ts, failure⟩) = (parseForm ⟨t :: ts, failure⟩).moved k
        at parsed
      simp only [Lexed.moved, List.map_cons, List.isEmpty_cons, Bool.false_and] at parsed ⊢
      rw [parsed]
      cases parseForm ⟨t :: ts, failure⟩ with
      | form d stop => rfl
      | failed f stop => exact ⟨_, rfl, .moved f⟩

theorem parseForm_of_firstForm {text : List Char} {d : Datum} {stop : Nat}
    (found : firstForm none text = .ok (d, stop)) : parseForm (lex text) = .form d stop := by
  rcases firstForm_cases text with ⟨-, other⟩ | ⟨e, place, parsed, same⟩ | ⟨f, place, -, other, -⟩
  · simp [other] at found
  · obtain ⟨rfl, rfl⟩ := Prod.mk.inj (Except.ok.inj (same.symm.trans found))
    exact parsed
  · simp [other] at found

theorem firstForm_append_newline {text : List Char} (sound : (lex text).failure = none)
    (whole : ¬ EndsInMark text) {d : Datum} {stop : Nat}
    (found : firstForm none text = .ok (d, stop)) (back : List Char) :
    firstForm none (text ++ '\n' :: back) = .ok (d, stop) := by
  have parsed := parseForm_of_firstForm found
  have again : parseForm (lex (text ++ '\n' :: back)) = .form d stop := by
    obtain ⟨front, gap, -, -, lexed⟩ := lex_append_newline sound whole back
    have starts : (lex text).tokens <+: (lex (text ++ '\n' :: back)).tokens := by
      rw [lexed]
      exact List.prefix_append _ _
    rw [← parsed]
    refine parseFormFrom_append starts (by simp [sound]) ?_ _
    intro f place failed
    cases parsed.symm.trans failed
  rcases firstForm_cases (text ++ '\n' :: back) with
    ⟨ended, -⟩ | ⟨c, point, once, longer⟩ | ⟨g, point, failed, -⟩
  · rw [ended] at again
    cases again
  · obtain ⟨rfl, rfl⟩ := ParsedForm.form.inj (again.symm.trans once)
    exact longer
  · cases again.symm.trans failed

/-- The number of characters behind the last token of a text. -/
def trailing (text : List Char) : Nat :=
  text.length - ((lex text).tokens.getLast?.map Token.stop).getD 0

theorem lex_of_firstForm {text : List Char} {d : Datum} {stop : Nat}
    (found : firstForm none text = .ok (d, stop)) :
    ∃ front t back, (lex text).tokens = front ++ t :: back ∧ t.stop = stop ∧
      (lex (text.drop stop)).moved stop = ⟨back, (lex text).failure⟩ := by
  obtain ⟨front, t, back, cut, rfl, -⟩ := parseFormsFrom_of_form #[] (parseForm_of_firstForm found)
  exact ⟨front, t, back, cut, rfl, lex_drop cut⟩

section BehindFirstForm

variable {text : List Char} {d : Datum} {stop : Nat} (found : firstForm none text = .ok (d, stop))

include found

theorem endsInMark_drop (mark : EndsInMark (text.drop stop)) : EndsInMark text := by
  obtain ⟨front, t, back, cut, rfl, lexed⟩ := lex_of_firstForm found
  obtain ⟨u, last, mark⟩ := mark
  refine ⟨u.moved t.stop, ?_, mark⟩
  have behind : ((lex (text.drop t.stop)).tokens.map (Token.moved t.stop)) = back :=
    congrArg Lexed.tokens lexed
  rw [cut, ← behind, List.getLast?_append, List.getLast?_cons, List.getLast?_map,
    Option.mem_def.mp last]
  rfl

theorem failure_drop (sound : (lex text).failure = none) :
    (lex (text.drop stop)).failure = none := by
  obtain ⟨front, t, back, -, rfl, lexed⟩ := lex_of_firstForm found
  have same : (lex (text.drop t.stop)).failure.map (ReadError.moved t.stop) = (lex text).failure :=
    congrArg Lexed.failure lexed
  rwa [sound, Option.map_eq_none_iff] at same

theorem trailing_drop : trailing (text.drop stop) = trailing text := by
  obtain ⟨front, t, back, cut, rfl, lexed⟩ := lex_of_firstForm found
  have behind : ((lex (text.drop t.stop)).tokens.map (Token.moved t.stop)) = back :=
    congrArg Lexed.tokens lexed
  rw [trailing, trailing, cut, ← behind, List.getLast?_append, List.getLast?_cons, List.getLast?_map,
    List.length_drop]
  cases (lex (text.drop t.stop)).tokens.getLast? with
  | none => simp
  | some u =>
    simp [Token.moved]
    omega

end BehindFirstForm

/-- The forms of a text one after the other, and the failure in which reading it ends. -/
inductive Spells : List Char → List Datum → ReadFailure → Prop where
  | done {text f} : firstForm none text = .error f → Spells text [] f
  | next {text d stop ds f} : firstForm none text = .ok (d, stop) →
      Spells (text.drop stop) ds f → Spells text (d :: ds) f

theorem exists_spells (text : List Char) : ∃ ds f, Spells text ds f := by
  induction size : text.length using Nat.strongRecOn generalizing text with
  | ind n ih =>
    cases found : firstForm none text with
    | error f => exact ⟨[], f, .done found⟩
    | ok first =>
      obtain ⟨d, stop⟩ := first
      obtain ⟨positive, within, -⟩ := parseForms_of_firstForm found
      have shorter : (text.drop stop).length < n := by
        rw [List.length_drop]
        omega
      obtain ⟨ds, f, spells⟩ := ih _ shorter (text.drop stop) rfl
      exact ⟨d :: ds, f, .next found spells⟩

namespace Spells

variable {text : List Char} {ds : List Datum} {f : ReadFailure}

theorem length_le (spells : Spells text ds f) : ds.length ≤ text.length := by
  induction spells with
  | done => exact Nat.zero_le _
  | next found _ ih =>
    obtain ⟨positive, within, -⟩ := parseForms_of_firstForm found
    rw [List.length_drop] at ih
    rw [List.length_cons]
    omega

/-- Reading line by line gives the forms that the text spells. -/
theorem exists_reads {p : Input} (cut : p.IsCut) (spells : Spells p.remaining ds f) :
    ∃ q, Reads p ds q ∧ (q.read none).1 = .error f := by
  generalize same : p.remaining = text at spells
  induction spells generalizing p with
  | done found =>
    subst same
    have step := read_eq p cut
    rw [found] at step
    exact ⟨p, .done, step⟩
  | next found _ ih =>
    subst same
    have step := read_eq p cut
    rw [found] at step
    obtain ⟨q, read, left, cutLeft⟩ := step
    obtain ⟨r, reads, ending⟩ := ih cutLeft left
    exact ⟨r, .next read reads, ending⟩

theorem forms_eq (spells : Spells text ds f) (name : String) :
    (ofText name text).forms none = (ds, if f.isEnd then none else some f) := by
  have fits : ds.length < (ofText name text).size + 1 := by
    rw [← length_remaining, remaining_ofText]
    exact Nat.lt_succ_of_le spells.length_le
  rw [← remaining_ofText name text] at spells
  obtain ⟨q, reads, ending⟩ := spells.exists_reads (isCut_ofText name text)
  rw [forms, formsWithin_of_reads #[] reads ending fits]
  rfl

theorem parseForms_eq (spells : Spells text ds f) :
    (parseForms (lex text)).forms.map (·.1) = ds ∧
      ((parseForms (lex text)).failure = none ↔ f.isEnd = true) := by
  induction spells with
  | done found =>
    obtain ⟨forms, failure⟩ := parseForms_of_firstForm_error found
    rw [forms, failure]
    simp
  | next found _ ih =>
    obtain ⟨-, -, parsed⟩ := parseForms_of_firstForm found
    rw [parsed]
    simpa [ParsedForms.behind, ParsedForms.moved, Function.comp_def] using ih

theorem readAll_eq_ok_iff (spells : Spells text ds f) {forms : List Datum} :
    readAll none text = .ok forms ↔ forms = ds ∧ f.isEnd = true := by
  obtain ⟨same, ended⟩ := spells.parseForms_eq
  rw [← ended, readAll, exceeds_none, ← same]
  cases (parseForms (lex text)).failure with
  | none => simp [eq_comm]
  | some f => simp

/-- Two texts joined by a newline spell the forms of both, one after the other. A failure in the
first form of the second text is found further to the right: what is left of the first text stands
in front of it. -/
theorem join {a b : List Char} {es : List Datum} {e g : ReadFailure} (first : Spells a ds e)
    (ended : e.isEnd = true) (sound : (lex a).failure = none) (whole : ¬ EndsInMark a)
    (second : Spells b es g) :
    ∃ g', Spells (a ++ '\n' :: b) (ds ++ es) g' ∧
      if es = [] then g.Shifted (trailing a + 1) g' else g' = g := by
  induction first with
  | @done a e found =>
    have empty : lex a = ⟨[], none⟩ := by
      rcases firstForm_cases a with ⟨empty, -⟩ | ⟨d, stop, -, other⟩ | ⟨f, stop, parsed, same, begun⟩
      · exact empty
      · cases found.symm.trans other
      · obtain rfl := Except.error.inj (same.symm.trans found)
        have inside := isEnd_of_parseFormFrom parsed (by simpa using begun)
          failure_lex_ne_endOfInput
        rw [ended] at inside
        cases inside
    have behind : trailing a = a.length := by
      simp [trailing, empty]
    have shifted := firstForm_shifted empty b
    cases second with
    | done missing =>
      rw [missing] at shifted
      obtain ⟨g', later, moved⟩ := shifted
      refine ⟨g', .done later, ?_⟩
      rw [if_pos rfl, behind]
      exact moved
    | @next _ d stop es _ found rest =>
      rw [found] at shifted
      refine ⟨g, .next shifted ?_, by simp⟩
      have dropped : (a ++ '\n' :: b).drop (stop + (a.length + 1)) = b.drop stop := by
        rw [Nat.add_comm, ← List.drop_drop, Nat.add_comm, ← List.drop_drop]
        simp
      rwa [dropped]
  | @next a d stop ds e found _ ih =>
    obtain ⟨-, within, -⟩ := parseForms_of_firstForm found
    obtain ⟨g', spells, moved⟩ := ih ended (failure_drop found sound)
      fun mark => whole (endsInMark_drop found mark)
    rw [trailing_drop found] at moved
    refine ⟨g', .next (firstForm_append_newline sound whole found b) ?_, moved⟩
    rwa [List.drop_append_of_le_length within]

end Spells

abbrev tooDeep : ReadFailure := .breakdown .nestedTooDeep

section Limit

variable (limit : Option Nat)

theorem firstForm_limit (text : List Char) :
    firstForm limit text = .error tooDeep ∨ firstForm limit text = firstForm none text := by
  by_cases ended : ((lex text).tokens.isEmpty && (lex text).failure.isNone) = true
  · right
    simp only [firstForm, ended, if_true]
  · simp only [firstForm, ended, exceeds_none]
    cases parseForm (lex text) with
    | form d stop => cases deep : (lex text).exceeds limit stop <;> simp [deep]
    | failed f stop => cases deep : (lex text).exceeds limit stop <;> simp [deep]

theorem readFrom_limit (p : Input) (buffer : List Char) (pending : List (List Char)) :
    (readFrom limit p buffer pending).1 = .error tooDeep ∨
      readFrom limit p buffer pending = readFrom none p buffer pending := by
  induction pending generalizing buffer with
  | nil =>
    rw [readFrom, readFrom]
    rcases firstForm_limit limit buffer with deep | same
    · exact .inl (by rw [deep]; rfl)
    · exact .inr (by rw [same])
  | cons line rest ih =>
    rw [readFrom, readFrom]
    rcases firstForm_limit limit buffer with deep | same
    · exact .inl (by rw [deep]; rfl)
    · rw [same]
      by_cases wants : wantsMore (firstForm none buffer) = true
      · simpa [wants] using ih (buffer ++ line)
      · simp [wants]

theorem formsWithin_limit (done : Array Datum) (fuel : Nat) (p : Input) :
    (formsWithin limit done fuel p).2 = some tooDeep ∨
      formsWithin limit done fuel p = formsWithin none done fuel p := by
  induction fuel generalizing done p with
  | zero => exact .inr rfl
  | succ fuel ih =>
    rw [formsWithin, formsWithin]
    have step : (p.read limit).1 = .error tooDeep ∨ p.read limit = p.read none :=
      readFrom_limit limit p p.buffer p.pending
    rcases step with deep | same
    · left
      generalize p.read limit = outcome at deep
      obtain ⟨result, left⟩ := outcome
      subst deep
      rfl
    · rw [same]
      split
      · exact ih _ _
      · exact .inr rfl
      · exact .inr rfl

/-- The limit is no matter to who does not come to it. -/
theorem forms_limit {limit : Option Nat} {p : Input} (fits : (p.forms limit).2 ≠ some tooDeep) :
    p.forms limit = p.forms none :=
  (formsWithin_limit limit #[] (p.size + 1) p).resolve_left fits

end Limit

end Input

end LazyLisp
