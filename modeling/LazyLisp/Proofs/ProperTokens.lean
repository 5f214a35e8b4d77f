import LazyLisp.Proofs.Grammar

/-!
Tokens as they come from texts.

The lexer makes tokens whose texts have the shape of their kind, so that each of them means
something to the parser: marks stand for quotations, character literals for characters, and a string
literal has no backslash without a character behind it.
-/

namespace LazyLisp

namespace Token

/-- A token that the lexer makes of some text, wherever it stands. -/
def IsLexical (t : Token) : Prop :=
  ∃ text, ∃ u ∈ (lex text).tokens, u.kind = t.kind ∧ u.text = t.text

/-- A token of some text that, if it is an integer, has not too many digits. -/
structure IsProper (t : Token) : Prop where
  lexical : t.IsLexical
  short : ∀ negative digits, t.kind = .word → Atom.integer? t.text.toList = some (negative, digits) →
    digits.length ≤ maxDigits

theorem isLexical_of_mem_lex {text : List Char} {t : Token} (member : t ∈ (lex text).tokens) :
    t.IsLexical := ⟨text, t, member, rfl, rfl⟩

theorem IsLexical.exists_next {t : Token} (lexical : t.IsLexical) :
    ∃ chars rest, Lexeme.next chars = .token t.kind t.text.toList rest := by
  obtain ⟨text, u, member, kind, spelled⟩ := lexical
  rw [← kind, ← spelled]
  exact ⟨_, _, next_of_mem_lex member⟩

end Token

namespace Lexeme

variable {chars text rest : List Char} {kind : Token.Kind}

/-- A string literal is closed, and every backslash in it takes a character along. -/
theorem exists_body_of_closed {soFar : List Char} (found : stringBody soFar chars = .closed text rest) :
    ∃ body, text = soFar.reverse ++ (body ++ ['"']) ∧
      ∀ soFar pos b, Atom.unescapeFrom soFar pos body ≠ .error (.breakdown b) := by
  fun_induction stringBody soFar chars with
  | case1 => cases found
  | case2 soFar rest =>
    cases found
    exact ⟨[], by simp, by simp [Atom.unescapeFrom]⟩
  | case3 => cases found
  | case4 soFar c rest ih =>
    obtain ⟨body, rfl, decodes⟩ := ih found
    refine ⟨'\\' :: c :: body, by simp, ?_⟩
    intro soFar pos b
    rw [Atom.unescapeFrom]
    split
    · exact decodes _ _ b
    · simp
  | case5 soFar c rest _ noStray noEscape ih =>
    obtain ⟨body, rfl, decodes⟩ := ih found
    have noBackslash : c ≠ '\\' := by
      intro backslash
      cases rest with
      | nil => exact noStray backslash rfl
      | cons d rest => exact noEscape d rest backslash rfl
    refine ⟨c :: body, by simp, ?_⟩
    intro soFar pos b
    simpa [Atom.unescapeFrom, noBackslash] using decodes _ _ b

def Shape (text : List Char) : Token.Kind → Prop
  | .quote => text = ['\''] ∨ text = ['`']
  | .unquote => text = [',', '@'] ∨ text = [',']
  | .leftParen | .rightParen => True
  | .string => ∃ body, text = '"' :: (body ++ ['"']) ∧
      ∀ soFar pos b, Atom.unescapeFrom soFar pos body ≠ .error (.breakdown b)
  | .char => ∃ name, text = '#' :: '\\' :: name ∧ (name.length = 1 ∨ name ∈ namedChars)
  | .word => text ≠ []
  | .other _ => False

theorem shape_of_next (found : next chars = .token kind text rest) : Shape text kind := by
  unfold next at found
  split at found <;> (try split at found) <;>
    simp only [token.injEq, reduceCtorEq] at found
  all_goals obtain ⟨rfl, rfl, rfl⟩ := found
  case h_1 closed =>
    obtain ⟨body, spelled, decodes⟩ := exists_body_of_closed closed
    exact ⟨body, by simpa using spelled, decodes⟩
  case h_10 c rest =>
    refine ⟨_, rfl, ?_⟩
    unfold charLength
    split
    · next name named =>
      right
      have starts := List.find?_some named
      rw [← List.prefix_iff_eq_take.mp (List.isPrefixOf_iff_prefix.mp starts)]
      exact List.mem_of_find?_eq_some named
    · exact .inl rfl
  all_goals simp [Shape]

end Lexeme

namespace Token

variable {t : Token}

theorem IsLexical.exists_head (lexical : t.IsLexical) (mark : t.kind.isQuotation = true) :
    ∃ head, OpenForm.quotationHead? t.text = some head := by
  obtain ⟨chars, rest, found⟩ := lexical.exists_next
  have shape := Lexeme.shape_of_next found
  have spelled : t.text = String.ofList t.text.toList := by simp
  cases kind : t.kind with
  | quote =>
    simp only [kind, Lexeme.Shape] at shape
    rcases shape with same | same <;> rw [spelled, same] <;> exact ⟨_, rfl⟩
  | unquote =>
    simp only [kind, Lexeme.Shape] at shape
    rcases shape with same | same <;> rw [spelled, same] <;> exact ⟨_, rfl⟩
  | _ => simp [kind, Kind.isQuotation] at mark

theorem IsLexical.exists_char (lexical : t.IsLexical) (kind : t.kind = .char) :
    ∃ a, Atom.ofCharLiteral t.text.toList = .ok a := by
  obtain ⟨chars, rest, found⟩ := lexical.exists_next
  have shape := Lexeme.shape_of_next found
  simp only [kind, Lexeme.Shape] at shape
  obtain ⟨name, spelled, single | named⟩ := shape
  · obtain ⟨c, rfl⟩ := List.length_eq_one_iff.mp single
    exact ⟨.char c, by simp [spelled, Atom.ofCharLiteral]⟩
  · simp only [Lexeme.namedChars, List.mem_cons, List.not_mem_nil, or_false] at named
    rw [spelled]
    rcases named with rfl | rfl | rfl | rfl <;> exact ⟨_, rfl⟩

theorem IsLexical.exists_body (lexical : t.IsLexical) (kind : t.kind = .string) :
    ∃ body, t.text.toList = '"' :: (body ++ ['"']) ∧
      ∀ soFar pos b, Atom.unescapeFrom soFar pos body ≠ .error (.breakdown b) := by
  obtain ⟨chars, rest, found⟩ := lexical.exists_next
  have shape := Lexeme.shape_of_next found
  simpa only [kind, Lexeme.Shape] using shape

theorem unescape_of_spelled {body : List Char} (spelled : t.text.toList = '"' :: (body ++ ['"']))
    (pos : Nat) : Atom.unescape t.text.toList pos =
      String.ofList <$> Atom.unescapeFrom [] pos body := by
  rw [Atom.unescape, spelled, List.drop_one, List.tail_cons, List.dropLast_concat]

theorem IsProper.exists_word (proper : t.IsProper) (kind : t.kind = .word) :
    ∃ a, Atom.ofWord t.text.toList = .ok a := by
  obtain ⟨chars, rest, found⟩ := proper.lexical.exists_next
  have shape := Lexeme.shape_of_next found
  simp only [kind, Lexeme.Shape] at shape
  unfold Atom.ofWord
  split
  · next negative digits integer =>
    have short := proper.short negative digits kind integer
    rw [if_neg (by omega)]
    exact ⟨_, rfl⟩
  · rw [if_neg (by simpa using shape)]
    split
    · exact ⟨_, rfl⟩
    · exact ⟨_, rfl⟩

theorem IsLexical.kind_ne_other (lexical : t.IsLexical) (name : String) : t.kind ≠ .other name := by
  intro kind
  obtain ⟨chars, rest, found⟩ := lexical.exists_next
  have shape := Lexeme.shape_of_next found
  simp only [kind, Lexeme.Shape] at shape

end Token

end LazyLisp
