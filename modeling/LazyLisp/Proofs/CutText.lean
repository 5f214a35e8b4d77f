import LazyLisp.Proofs.Lexing
import LazyLisp.Proofs.Literals
import Mathlib.Data.List.Find
import Mathlib.Data.List.TakeWhile

/-!
Texts cut behind a blank.

Where a text is cut behind a blank, no lexeme of the first part goes on in the second, except a line
comment that the cut leaves open. So the tokens of the first part are the first tokens of the whole,
and where lexing the first part fails, more text may mend it.
-/

namespace LazyLisp

def EndsBlank (text : List Char) : Prop := ∀ c ∈ text.getLast?, Text.isBlank c = true

namespace EndsBlank

theorem of_append {front back : List Char} (ends : EndsBlank (front ++ back)) : EndsBlank back := by
  intro c last
  apply ends c
  rw [List.getLast?_append, Option.mem_def.mp last, Option.some_or]
  rfl

theorem append {front back : List Char} (first : EndsBlank front) (second : EndsBlank back) :
    EndsBlank (front ++ back) := by
  intro c last
  rw [List.getLast?_append] at last
  cases final : back.getLast? with
  | none =>
    rw [final, Option.none_or] at last
    exact first c last
  | some d =>
    rw [final, Option.some_or] at last
    exact second c (final ▸ last)

theorem exists_blank {text : List Char} (ends : EndsBlank text) (nonempty : text ≠ []) :
    ∃ c ∈ text, Text.isBlank c = true := by
  exact ⟨text.getLast nonempty, List.getLast_mem nonempty,
    ends _ (List.getLast?_eq_some_getLast nonempty)⟩

end EndsBlank

theorem takeWhile_append_of_neg {p : Char → Bool} {text : List Char}
    (stops : ∃ c ∈ text, p c = false) (more : List Char) :
    (text ++ more).takeWhile p = text.takeWhile p ∧
      (text ++ more).dropWhile p = text.dropWhile p ++ more := by
  induction text with
  | nil => simp at stops
  | cons c rest ih =>
    by_cases holds : p c = true
    · have later : ∃ d ∈ rest, p d = false := by
        obtain ⟨d, member, fails⟩ := stops
        rcases List.mem_cons.mp member with rfl | member
        · simp [holds] at fails
        · exact ⟨d, member, fails⟩
      simpa [holds] using ih later
    · simp [holds]

namespace Lexeme

theorem stringBody_append {soFar text body rest : List Char} (more : List Char)
    (found : stringBody soFar text = .closed body rest) :
    stringBody soFar (text ++ more) = .closed body (rest ++ more) := by
  fun_induction stringBody soFar text with
  | case1 => simp at found
  | case2 soFar tail =>
    obtain ⟨rfl, rfl⟩ := Body.closed.inj found
    simp [stringBody]
  | case3 => simp at found
  | case4 soFar c tail ih => simpa [stringBody] using ih found
  | case5 soFar c tail noQuote noStray noEscape ih =>
    have plain : c ≠ '\\' := by
      rintro rfl
      cases tail with
      | nil => exact noStray rfl rfl
      | cons d tail => exact noEscape d tail rfl rfl
    simpa [stringBody, plain] using ih found

theorem blockEnd_append {depth count length : Nat} {text rest : List Char} (more : List Char)
    (found : blockEnd depth count text = some (length, rest)) :
    blockEnd depth count (text ++ more) = some (length, rest ++ more) := by
  fun_induction blockEnd depth count text with
  | case1 depth count tail ih => simpa [blockEnd] using ih found
  | case2 count tail =>
    obtain ⟨rfl, rfl⟩ := Prod.mk.inj (Option.some.inj found)
    simp [blockEnd]
  | case3 count tail depth ih => simpa [blockEnd] using ih found
  | case4 depth count c tail noOpen noClose ih =>
    -- A mark is two characters; were it cut, the comment would not end in this text.
    cases tail with
    | nil => simp [blockEnd] at found
    | cons d tail =>
      rw [List.cons_append, List.cons_append, blockEnd]
      · exact ih found
      · intro rest hash bar
        exact noOpen tail hash (by rw [(List.cons.inj bar).1])
      · intro rest bar hash
        exact noClose tail bar (by rw [(List.cons.inj hash).1])
  | case5 => simp at found

/-- Names of characters have no blanks, so that a cut behind a blank cuts none. -/
theorem charLength_append {text : List Char} (ends : EndsBlank text) (nonempty : text ≠ [])
    (more : List Char) : charLength (text ++ more) = charLength text := by
  obtain ⟨b, member, blank⟩ := ends.exists_blank nonempty
  have same (name : List Char) (known : name ∈ namedChars) :
      name.isPrefixOf (text ++ more) = name.isPrefixOf text := by
    have noneBlank : (namedChars.all fun name => name.all fun c => !Text.isBlank c) = true := by
      decide
    have noBlank : ∀ c ∈ name, Text.isBlank c = false := by
      simpa using List.all_eq_true.mp noneBlank name known
    rw [Bool.eq_iff_iff, List.isPrefixOf_iff_prefix, List.isPrefixOf_iff_prefix]
    refine ⟨fun front => ?_, fun front => front.trans (List.prefix_append text more)⟩
    rcases List.prefix_or_prefix_of_prefix front (List.prefix_append text more) with front | back
    · exact front
    · simp [noBlank b (back.mem member)] at blank
  rw [charLength, charLength, List.find?_congr same]

theorem charLength_le {c : Char} {text : List Char} : charLength (c :: text) ≤ (c :: text).length := by
  unfold charLength
  split
  · next name found =>
    have front : name <+: c :: text := by
      have holds := List.find?_some found
      exact List.isPrefixOf_iff_prefix.mp holds
    exact front.length_le
  · simp

theorem StartsWord.append_of_endsBlank {c : Char} {more : List Char} (starts : StartsWord c more)
    (ends : EndsBlank more) (nonempty : more ≠ []) (extra : List Char) :
    StartsWord c (more ++ extra) := by
  obtain ⟨d, more, rfl⟩ := List.exists_cons_of_ne_nil nonempty
  refine ⟨starts.plain, ?_, ?_⟩
  · intro tail hash comment
    exact starts.noComment more hash (by rw [(List.cons.inj comment).1])
  · intro e tail hash literal
    have mark : d = '\\' := (List.cons.inj literal).1
    cases more with
    | nil =>
      have blank := ends d rfl
      rw [mark] at blank
      revert blank
      decide
    | cons f more => exact starts.noLiteral f more hash (by rw [mark])

section Cut

variable {text rest : List Char}

/-- Behind the first character of a lexeme there is more, up to the blank at the end. -/
theorem tail_of_noBlank {c : Char} {more : List Char} (same : text = c :: more)
    (noBlank : ∀ c ∈ text.head?, Text.isBlank c = false) (ends : EndsBlank text) :
    more ≠ [] ∧ EndsBlank more := by
  subst same
  have endsMore : EndsBlank ([c] ++ more) := ends
  refine ⟨?_, endsMore.of_append⟩
  rintro rfl
  simpa [noBlank c rfl] using ends c rfl

theorem next_append_of_token {chars : List Char} {kind : Token.Kind}
    (noBlank : ∀ c ∈ text.head?, Text.isBlank c = false) (ends : EndsBlank text)
    (found : next text = .token kind chars rest) (extra : List Char) :
    next (text ++ extra) = .token kind chars (rest ++ extra) := by
  by_cases word : kind = .word
  · subst word
    obtain ⟨c, more, rfl, starts, rfl, rfl⟩ := startsWord_of_next found
    obtain ⟨nonempty, endsMore⟩ := tail_of_noBlank rfl noBlank ends
    obtain ⟨d, member, blank⟩ := endsMore.exists_blank nonempty
    have stops := takeWhile_append_of_neg
      ⟨d, member, (by simp [isWordChar, blank] : isWordChar d = false)⟩ extra
    rw [List.cons_append,
      next_of_startsWord (starts.append_of_endsBlank endsMore nonempty extra), stops.1, stops.2]
  · unfold next at found
    split at found <;> (try split at found) <;>
      simp only [token.injEq, reduceCtorEq] at found
    all_goals obtain ⟨rfl, rfl, rfl⟩ := found
    case h_1 closed => simp [next, stringBody_append extra closed]
    case h_6 tail noAt =>
      obtain ⟨nonempty, -⟩ := tail_of_noBlank rfl noBlank ends
      obtain ⟨d, tail, rfl⟩ := List.exists_cons_of_ne_nil nonempty
      have noAt : d ≠ '@' := by
        rintro rfl
        exact noAt tail rfl
      simp [next, noAt]
    case h_10 c tail =>
      have endsTail : EndsBlank (['#', '\\'] ++ c :: tail) := ends
      have length := charLength_append endsTail.of_append (by simp) extra
      rw [List.cons_append, List.cons_append, List.cons_append, next, ← List.cons_append, length,
        List.take_append_of_le_length charLength_le, List.drop_append_of_le_length charLength_le]
    case h_12 => exact absurd rfl word
    all_goals simp [next]

/-- A comment that ends in front of a cut is the same comment of the whole text. -/
theorem next_append_of_comment {length : Nat} (found : next text = .comment length rest)
    (extra : List Char) :
    next (text ++ extra) = .comment length (rest ++ extra) ∨ rest = [] := by
  unfold next at found
  split at found <;> (try split at found) <;>
    simp only [comment.injEq, reduceCtorEq] at found
  · next tail =>
    obtain ⟨rfl, rfl⟩ := found
    by_cases ended : ∃ c ∈ tail, (c != '\n') = false
    · have stops := takeWhile_append_of_neg ended extra
      exact .inl (by simp [next, stops.1, stops.2])
    · right
      have noEnd : '\n' ∉ tail := by
        simpa using ended
      exact List.dropWhile_eq_nil_iff.mpr (by grind)
  · next ended =>
    obtain ⟨rfl, rfl⟩ := found
    exact .inl (by simp [next, blockEnd_append extra ended])

theorem stringBody_ne_stray {soFar : List Char} (ends : EndsBlank text) :
    stringBody soFar text ≠ .stray := by
  fun_induction stringBody soFar text with
  | case1 => simp
  | case2 => simp
  | case3 =>
    have blank := ends '\\' rfl
    exact absurd blank (by decide)
  | case4 soFar c tail ih =>
    have ends : EndsBlank (['\\', c] ++ tail) := ends
    exact ih ends.of_append
  | case5 soFar c tail _ _ _ ih =>
    have ends : EndsBlank ([c] ++ tail) := ends
    exact ih ends.of_append

theorem next_ne_nothing (ends : EndsBlank text) (nonempty : text ≠ []) : next text ≠ .nothing := by
  unfold next
  split
  case h_9 tail =>
    have ends : EndsBlank (['"'] ++ tail) := ends
    have closes : stringBody ['"'] tail ≠ .stray := stringBody_ne_stray ends.of_append
    split <;> simp_all
  case h_11 => exact absurd rfl nonempty
  all_goals (try split) <;> simp

end Cut

end Lexeme

/-- A cut behind a lexeme leaves the blanks in front of it as they are. -/
theorem dropWhile_isBlank_append {text : List Char} (lexeme : text.dropWhile Text.isBlank ≠ [])
    (extra : List Char) :
    (text ++ extra).dropWhile Text.isBlank = text.dropWhile Text.isBlank ++ extra ∧
      blanks (text ++ extra) = blanks text := by
  have stops : ∃ c ∈ text, Text.isBlank c = false := by
    rw [Ne, List.dropWhile_eq_nil_iff] at lexeme
    simpa using lexeme
  obtain ⟨taken, dropped⟩ := takeWhile_append_of_neg stops extra
  exact ⟨dropped, by rw [blanks, taken, blanks]⟩

theorem EndsBlank.dropWhile {text : List Char} (ends : EndsBlank text) :
    EndsBlank (text.dropWhile Text.isBlank) := by
  rw [← List.takeWhile_append_dropWhile (p := Text.isBlank) (l := text)] at ends
  exact ends.of_append

theorem noBlank_head?_dropWhile (text : List Char) :
    ∀ c ∈ (text.dropWhile Text.isBlank).head?, Text.isBlank c = false := by
  intro c head
  have := List.head?_dropWhile_not Text.isBlank text
  rw [Option.mem_def.mp head] at this
  exact this

theorem dropWhile_ne_nil {text : List Char}
    (found : Lexeme.next (text.dropWhile Text.isBlank) ≠ .nothing) :
    text.dropWhile Text.isBlank ≠ [] := by
  intro none
  rw [none] at found
  exact found rfl

/-- The tokens in front of a cut are the first tokens of the whole text, and where they end in a
failure the whole text may go on. -/
theorem lex_append {text : List Char} (ends : EndsBlank text) (extra : List Char) :
    (lex text).tokens <+: (lex (text ++ extra)).tokens ∧
      ∀ e ∈ (lex text).failure, e.issue.wantsMore = true := by
  induction text using lexeme_induction with
  | token text kind chars rest found ih =>
    have lexeme := dropWhile_ne_nil (found.trans_ne (by simp))
    obtain ⟨passed, whole, -⟩ := passed_of_token found
    have endsRest : EndsBlank rest := by
      rw [whole] at ends
      exact ends.of_append
    obtain ⟨first, wants⟩ := ih endsRest
    obtain ⟨dropped, same⟩ := dropWhile_isBlank_append lexeme extra
    have longer := Lexeme.next_append_of_token (noBlank_head?_dropWhile text) ends.dropWhile found extra
    rw [← dropped] at longer
    rw [lex_of_token found, lex_of_token longer, same]
    refine ⟨?_, by simpa [Lexed.behind, Lexed.moved, ReadError.moved] using wants⟩
    exact List.prefix_cons_inj _ |>.mpr (first.map _)
  | comment text length rest found ih =>
    have lexeme := dropWhile_ne_nil (found.trans_ne (by simp))
    obtain ⟨passed, whole, -⟩ := passed_of_comment found
    have endsRest : EndsBlank rest := by
      rw [whole] at ends
      exact ends.of_append
    obtain ⟨first, wants⟩ := ih endsRest
    obtain ⟨dropped, same⟩ := dropWhile_isBlank_append lexeme extra
    rw [lex_of_comment found]
    refine ⟨?_, by simpa [Lexed.moved, ReadError.moved] using wants⟩
    rcases Lexeme.next_append_of_comment found extra with longer | rfl
    · rw [← dropped] at longer
      rw [lex_of_comment longer, same]
      exact first.map _
    · have none := lex_nil
      simp [none, Lexed.moved]
  | last text last =>
    refine ⟨by simp [tokens_of_last last], ?_⟩
    cases found : Lexeme.next (text.dropWhile Text.isBlank) with
    | token kind chars rest => simp [found, Lexeme.rest?] at last
    | comment length rest => simp [found, Lexeme.rest?] at last
    | openString => simp [lex_of_openString found, ReadIssue.wantsMore, ReadIssue.isIncomplete]
    | openComment => simp [lex_of_openComment found, ReadIssue.wantsMore, ReadIssue.isIncomplete]
    | nothing =>
      by_cases blank : text.dropWhile Text.isBlank = []
      · simp [lex_of_blank blank]
      · exact absurd found (Lexeme.next_ne_nothing ends.dropWhile blank)

end LazyLisp
