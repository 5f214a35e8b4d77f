import LazyLisp.Proofs.WholeTexts

/-!
Where read errors point.

The lexer stops where a comment or a string literal is not closed. The parser fails at a token, or
at an escape in one, or it runs out of tokens with a form open. In each case the place of the error
is in the text and stands for what the error is about. Only the complaint about an unexpected
character may be about a blank: it counts from the end of what was passed before, and not from the
string literal.
-/

namespace LazyLisp

/-- What the lexer complains about, at the start of a text. An unexpected character is the first one
of the blanks in front of a string literal, or its quote where there are none. -/
def ReadIssue.StartsAt (text : List Char) : ReadIssue → Prop
  | .unterminatedComment => OpenComment text
  | .unterminatedString => OpenString text
  | .unexpectedChar c => text.head? = some c ∧ ∃ gap rest, text = gap ++ rest ∧
      (∀ b ∈ gap, Text.isBlank b = true) ∧ OpenString rest
  | _ => False

def Token.Causes (t : Token) (e : ReadError) : Prop :=
  match e.issue with
  | .unexpectedClose => t.kind = .rightParen ∧ e.offset = t.start
  | .unexpectedDot | .leadingDot => t.isDot = true ∧ e.offset = t.start
  | .afterDottedTail => t.kind ≠ .rightParen ∧ e.offset = t.start
  | .unknownEscape c => t.kind = .string ∧ ∃ known decoded rest,
      t.text.toList = '"' :: (known ++ '\\' :: c :: rest) ∧ Escaped known decoded ∧
        Atom.stringEscapes.lookup c = none ∧ e.offset = t.start + 1 + known.length
  | _ => False

/-- The error is about what stands at its place in the text. An unmatched parenthesis begins a tree
that is still open where the tokens end. -/
def ReadError.Concerns (text : List Char) (e : ReadError) : Prop :=
  match e.issue with
  | .unterminatedComment | .unterminatedString | .unexpectedChar _ =>
    e.issue.StartsAt (text.drop e.offset)
  | .unmatchedOpen => ∃ front opening back opened, (lex text).tokens = front ++ opening :: back ∧
      opening.kind = .leftParen ∧ e.offset = opening.start ∧ OpenTree.Valid opened ∧
      opened.tokens = opening :: back
  | .unexpectedEnd => e.offset = lastStop 0 (lex text).tokens
  | _ => ∃ t ∈ (lex text).tokens, t.Causes e

/-- The error points into the text. Where it does not say that the text ends inside a form, it
points at a character that is no blank; only an unexpected character, which the error names, may be
one. -/
structure ReadError.Placed (text : List Char) (e : ReadError) : Prop where
  within : e.offset ≤ text.length
  solid : e.issue ≠ .unexpectedEnd → ∃ c, text[e.offset]? = some c ∧
    (Text.isBlank c = true → e.issue = .unexpectedChar c)
  concerns : e.Concerns text

/-- What a rest is complained about for, the text with characters in front of it is. -/
theorem startsAt_append {passed rest : List Char} {k : Nat} (length : passed.length = k)
    (known : ∀ {e}, (lex rest).failure = some e → e.issue.StartsAt (rest.drop e.offset))
    {e : ReadError} (failed : (lex rest).failure.map (ReadError.moved k) = some e) :
    e.issue.StartsAt ((passed ++ rest).drop e.offset) := by
  obtain ⟨e, alone, rfl⟩ := Option.map_eq_some_iff.mp failed
  have dropped : (passed ++ rest).drop (e.moved k).offset = rest.drop e.offset := by
    rw [ReadError.moved, ← length, Nat.add_comm]
    exact List.drop_length_add_append _
  rw [dropped]
  exact known alone

theorem startsAt_lex {text : List Char} {e : ReadError} (failed : (lex text).failure = some e) :
    e.issue.StartsAt (text.drop e.offset) := by
  induction text using lexeme_induction generalizing e with
  | token text kind chars rest found ih =>
    obtain ⟨passed, whole, taken⟩ := passed_of_token found
    rw [lex_of_token found] at failed
    rw [whole]
    exact startsAt_append taken ih failed
  | comment text length rest found ih =>
    obtain ⟨passed, whole, taken⟩ := passed_of_comment found
    rw [lex_of_comment found] at failed
    rw [whole]
    exact startsAt_append taken ih failed
  | last text last =>
    cases found : Lexeme.next (text.dropWhile Text.isBlank) with
    | token kind chars rest => simp [found, Lexeme.rest?] at last
    | comment length rest => simp [found, Lexeme.rest?] at last
    | openString =>
      rw [lex_of_openString found] at failed
      cases failed
      rw [drop_blanks]
      exact Lexeme.openString_of_next found
    | openComment =>
      rw [lex_of_openComment found] at failed
      cases failed
      rw [drop_blanks]
      exact Lexeme.openComment_of_next found
    | nothing =>
      by_cases ended : text.dropWhile Text.isBlank = []
      · rw [lex_of_blank ended] at failed
        cases failed
      · obtain ⟨c, head, lexed⟩ := lex_of_nothing found ended
        rw [lexed] at failed
        cases failed
        refine ⟨head, text.takeWhile Text.isBlank, text.dropWhile Text.isBlank, ?_, ?_, ?_⟩
        · exact List.takeWhile_append_dropWhile.symm
        · exact fun b member => List.mem_takeWhile_imp member
        · exact Lexeme.openString_of_nothing found ended

theorem ReadIssue.StartsAt.concerns {text : List Char} {e : ReadError}
    (starts : e.issue.StartsAt (text.drop e.offset)) : e.Concerns text := by
  obtain ⟨issue, offset⟩ := e
  cases issue <;> first | exact starts | exact starts.elim

theorem Atom.exists_escape_of_unescapeFrom {soFar body : List Char} {pos : Nat} {e : ReadError}
    (failed : unescapeFrom soFar pos body = .error (.error e)) :
    ∃ known decoded c rest, body = known ++ '\\' :: c :: rest ∧ Escaped known decoded ∧
      stringEscapes.lookup c = none ∧ e = ⟨.unknownEscape c, pos + 1 + known.length⟩ := by
  fun_induction unescapeFrom soFar pos body with
  | case1 => cases failed
  | case2 => cases failed
  | case3 soFar pos c rest d found ih =>
    obtain ⟨known, decoded, c', rest, rfl, escaped, unknown, rfl⟩ := ih failed
    refine ⟨'\\' :: c :: known, d :: decoded, c', rest, rfl, .escape found escaped, unknown, ?_⟩
    simp
    omega
  | case4 soFar pos c rest unknown =>
    cases failed
    exact ⟨[], [], c, rest, rfl, .nil, unknown, rfl⟩
  | case5 soFar pos c rest noStray noEscape ih =>
    obtain ⟨known, decoded, c', rest, rfl, escaped, unknown, rfl⟩ := ih failed
    have noBackslash : c ≠ '\\' := by
      intro backslash
      cases known with
      | nil => exact noEscape _ _ backslash rfl
      | cons d known => exact noEscape _ _ backslash rfl
    refine ⟨c :: known, c :: decoded, c', rest, rfl, .plain noBackslash escaped, unknown, ?_⟩
    simp
    omega

namespace Token

variable {t : Token} {e : ReadError} {stack : List OpenForm}

theorem causes_of_begin (lexical : t.IsLexical) (begun : Move.begin stack t = .error (.error e)) :
    t.Causes e := by
  unfold Move.begin at begun
  split at begun
  · split at begun
    · next dot =>
      cases begun
      exact ⟨dot, rfl⟩
    · split at begun <;> cases begun
  · split at begun <;> cases begun
  · split at begun <;> cases begun
  · cases begun
  · next kind =>
    cases begun
    exact ⟨kind, rfl⟩
  · split at begun <;> cases begun
  · next kind =>
    obtain ⟨body, spelled, -⟩ := lexical.exists_body kind
    rw [unescape_of_spelled spelled] at begun
    cases decodes : Atom.unescapeFrom [] t.start body with
    | ok text => simp [decodes, Functor.map, Except.map] at begun
    | error f =>
      rw [decodes] at begun
      cases begun
      obtain ⟨known, decoded, c, rest, rfl, escaped, unknown, rfl⟩ :=
        Atom.exists_escape_of_unescapeFrom decodes
      refine ⟨kind, known, decoded, rest ++ ['"'], ?_, escaped, unknown, rfl⟩
      simp [spelled]
  · next name kind => exact absurd kind (lexical.kind_ne_other name)

/-- What the parser complains about is the token. -/
theorem causes_of_feed (lexical : t.IsLexical) (fed : Move.feed stack t = .error (.error e)) :
    t.Causes e := by
  unfold Move.feed at fed
  split at fed
  · split at fed
    · cases fed
    · next noClose =>
      cases fed
      exact ⟨by simpa using noClose, rfl⟩
  · split at fed
    · cases fed
    · split at fed
      · next dot =>
        split at fed <;> cases fed
        exact ⟨dot, rfl⟩
      · exact causes_of_begin lexical fed
  · exact causes_of_begin lexical fed

theorem Causes.concerns {text : List Char} (causes : t.Causes e) (member : t ∈ (lex text).tokens) :
    e.Concerns text := by
  obtain ⟨issue, offset⟩ := e
  cases issue <;> first | exact ⟨t, member, causes⟩ | exact causes.elim

end Token

/-- Where the tokens of a text end inside a form. -/
theorem concerns_missing {text : List Char} {ds : List Datum} {opened : OpenForm}
    {below : List OpenForm} (reads : Move.Reads [] (lex text).tokens ds (opened :: below)) :
    (Move.missing (opened :: below) (lastStop 0 (lex text).tokens)).Concerns text := by
  obtain ⟨trees, stack, -, valid, -, forms, spelled⟩ :=
    reads.exists_trees_of_nil fun t => Token.isLexical_of_mem_lex
  cases valid with
  | nil => cases forms
  | @cons tree below here _ _ =>
    obtain ⟨rfl, rfl⟩ := List.cons.inj forms
    rw [OpenTree.tokensOf, ← List.append_assoc] at spelled
    cases here with
    | quotation => exact rfl
    | @list opening items opens valid =>
      exact ⟨_, opening, _, .list opening items, spelled, opens, rfl, .list opens valid, rfl⟩
    | @dotted opening items dot tail opens isDot nonempty valid validTail =>
      cases tail with
      | none => exact rfl
      | some tail =>
        exact ⟨_, opening, _, .dotted opening items dot (some tail), spelled, opens, rfl,
          .dotted opens isDot nonempty valid validTail, rfl⟩

section Places

variable {text : List Char} {t : Token} {e : ReadError}

theorem exists_solid_start (member : t ∈ (lex text).tokens) :
    ∃ c, text[t.start]? = some c ∧ Text.isBlank c = false := by
  have behind := Lexeme.append_of_token (next_of_mem_lex member)
  obtain ⟨c, more, spelled, solid⟩ := exists_head_of_mem_lex member
  refine ⟨c, ?_, solid⟩
  rw [← List.head?_drop, ← behind, spelled]
  rfl

theorem Token.Causes.exists_solid (causes : t.Causes e) (member : t ∈ (lex text).tokens) :
    ∃ c, text[e.offset]? = some c ∧ Text.isBlank c = false := by
  obtain ⟨issue, offset⟩ := e
  cases issue
  case unknownEscape c =>
    obtain ⟨-, known, decoded, rest, spelled, -, -, rfl⟩ := causes
    have behind := Lexeme.append_of_token (next_of_mem_lex member)
    refine ⟨'\\', ?_, by decide⟩
    rw [spelled] at behind
    have passed : text.drop (t.start + 1 + known.length) =
        '\\' :: c :: (rest ++ text.drop t.stop) := by
      rw [Nat.add_assoc, ← List.drop_drop, ← behind, Nat.add_comm]
      simp
    rw [← List.head?_drop, passed]
    rfl
  case unexpectedClose | unexpectedDot | leadingDot | afterDottedTail =>
    obtain ⟨-, rfl⟩ := causes
    exact exists_solid_start member
  all_goals exact causes.elim

theorem lastStop_le : lastStop 0 (lex text).tokens ≤ text.length := by
  have tiles := tiles_lex text
  rw [← List.append_nil (lex text).tokens] at tiles
  obtain ⟨passed, rest, whole, ended, -⟩ := tiles.exists_rest
  rw [ended, congrArg List.length whole, List.length_append]
  omega

theorem ReadError.placed_of_solid (concerns : e.Concerns text)
    (there : ∃ c, text[e.offset]? = some c ∧ Text.isBlank c = false) : e.Placed text := by
  obtain ⟨c, found, solid⟩ := there
  obtain ⟨lt, -⟩ := List.getElem?_eq_some_iff.mp found
  exact ⟨lt.le, fun _ => ⟨c, found, by simp [solid]⟩, concerns⟩

/-- What an error is about stands in the text. -/
theorem ReadError.Concerns.placed (concerns : e.Concerns text) : e.Placed text := by
  have whole := concerns
  obtain ⟨issue, offset⟩ := e
  cases issue
  case unterminatedComment =>
    obtain ⟨rest, behind, -⟩ := concerns
    exact placed_of_solid whole ⟨'#', by rw [← List.head?_drop, behind]; rfl, by decide⟩
  case unterminatedString =>
    obtain ⟨rest, behind, -⟩ := concerns
    exact placed_of_solid whole ⟨'"', by rw [← List.head?_drop, behind]; rfl, by decide⟩
  case unexpectedChar c =>
    obtain ⟨head, -⟩ := concerns
    rw [List.head?_drop] at head
    obtain ⟨lt, -⟩ := List.getElem?_eq_some_iff.mp head
    exact ⟨lt.le, fun _ => ⟨c, head, fun _ => rfl⟩, whole⟩
  case unmatchedOpen =>
    obtain ⟨front, opening, back, opened, cut, -, rfl, -⟩ := concerns
    exact placed_of_solid whole (exists_solid_start (by simp [cut]))
  case unexpectedEnd =>
    obtain rfl : offset = _ := concerns
    exact ⟨lastStop_le, fun other => absurd rfl other, whole⟩
  all_goals
    obtain ⟨t, member, causes⟩ := concerns
    exact placed_of_solid whole (causes.exists_solid member)

end Places

/-- Read errors point at what they are about. -/
theorem readAll_error_placed {limit : Option Nat} {text : List Char} {e : ReadError}
    (failed : readAll limit text = .error (.error e)) : e.Placed text := by
  rcases Move.reads_or_fails [] (lex text).tokens with ⟨ds, last, reads⟩ |
      ⟨front, t, back, ds, middle, f, cut, reads, fails⟩
  · rw [readAll_of_reads reads] at failed
    split at failed
    · cases failed
    · cases lexed : (lex text).failure with
      | some e' =>
        obtain rfl : e' = e := by simpa [lexed] using failed
        exact (startsAt_lex lexed).concerns.placed
      | none =>
        cases last with
        | nil => simp [lexed] at failed
        | cons opened below =>
          obtain rfl : Move.missing (opened :: below) (lastStop 0 (lex text).tokens) = e := by
            simpa [lexed] using failed
          exact (concerns_missing reads).placed
  · rw [readAll_of_fails cut reads fails] at failed
    split at failed
    · cases failed
    · cases failed
      have member : t ∈ (lex text).tokens := by simp [cut]
      have causes := Token.causes_of_feed (Token.isLexical_of_mem_lex member) fails
      exact (causes.concerns member).placed

/-- An unknown escape in a list, at its backslash. -/
theorem readAll_error_placed_escape :
    readAll none ['(', '"', 'x', '\\', 'q', '"', ')'] = .error (.error ⟨.unknownEscape 'q', 3⟩) ∧
      ReadError.Placed ['(', '"', 'x', '\\', 'q', '"', ')'] ⟨.unknownEscape 'q', 3⟩ := by
  have failed : readAll none ['(', '"', 'x', '\\', 'q', '"', ')'] =
      .error (.error ⟨.unknownEscape 'q', 3⟩) := by with_unfolding_all rfl
  exact ⟨failed, readAll_error_placed failed⟩

/-- The blank in front of a string literal that ends in a backslash is complained about, and not the
literal. -/
theorem readAll_error_blank :
    ∃ e c, readAll none [' ', '"', '\\'] = .error (.error e) ∧ e.issue ≠ .unexpectedEnd ∧
      [' ', '"', '\\'][e.offset]? = some c ∧ Text.isBlank c = true := by
  have failed : readAll none [' ', '"', '\\'] = .error (.error ⟨.unexpectedChar ' ', 0⟩) := by
    with_unfolding_all rfl
  exact ⟨_, ' ', failed, by simp, rfl, by decide⟩

end LazyLisp
