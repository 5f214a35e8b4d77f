import LazyLisp.Token.Lexer

/-!
How the tokens of a text hang together.

Lexing a text does not depend on where the text stands nor on the tokens in front of it, so that
`lex` satisfies one equation for each kind of lexeme: a token is followed by the tokens of the rest,
moved to the right by what was passed.
-/

namespace LazyLisp

def Token.moved (k : Nat) (t : Token) : Token :=
  { t with start := t.start + k, stop := t.stop + k }

def ReadError.moved (k : Nat) (e : ReadError) : ReadError := { e with offset := e.offset + k }

@[simp]
theorem Token.moved_zero : Token.moved 0 = id := rfl

@[simp]
theorem Token.moved_comp_moved (j k : Nat) : Token.moved k ∘ Token.moved j = Token.moved (j + k) := by
  funext t
  simp [Token.moved, Nat.add_assoc]

@[simp]
theorem ReadError.moved_comp_moved (j k : Nat) :
    ReadError.moved k ∘ ReadError.moved j = ReadError.moved (j + k) := by
  funext e
  simp [ReadError.moved, Nat.add_assoc]

namespace Lexed

def moved (k : Nat) (l : Lexed) : Lexed :=
  ⟨l.tokens.map (Token.moved k), l.failure.map (ReadError.moved k)⟩

def behind (tokens : List Token) (l : Lexed) : Lexed := ⟨tokens ++ l.tokens, l.failure⟩

@[simp]
theorem moved_moved (j k : Nat) (l : Lexed) : (l.moved j).moved k = l.moved (j + k) := by
  simp [moved]

@[simp]
theorem moved_behind (k : Nat) (tokens : List Token) (l : Lexed) :
    (l.behind tokens).moved k = (l.moved k).behind (tokens.map (Token.moved k)) := by
  simp [moved, behind]

@[simp]
theorem behind_behind (first second : List Token) (l : Lexed) :
    (l.behind second).behind first = l.behind (first ++ second) := by
  simp [behind]

@[simp]
theorem behind_nil (l : Lexed) : l.behind [] = l := rfl

end Lexed

def lastStop (pos : Nat) : List Token → Nat
  | [] => pos
  | t :: ts => lastStop t.stop ts

@[simp]
theorem lastStop_nil (pos : Nat) : lastStop pos [] = pos := rfl

@[simp]
theorem lastStop_cons (pos : Nat) (t : Token) (ts : List Token) :
    lastStop pos (t :: ts) = lastStop t.stop ts := rfl

def blanks (text : List Char) : Nat := (text.takeWhile Text.isBlank).length

/-- Neither the place of a text nor the tokens in front of it matter to its own tokens. -/
theorem lexFrom_eq (pos : Nat) (text : List Char) (done : Array Token) :
    lexFrom pos text done = ((lex text).moved pos).behind done.toList := by
  -- Both sides are opened once; the rest behind the first lexeme is shorter.
  induction size : text.length using Nat.strongRecOn generalizing pos text done with
  | ind n ih =>
    have shorter (rest : List Char)
        (found : (Lexeme.next (text.dropWhile Text.isBlank)).rest? = some rest) :
        rest.length < n := by
      have := Lexeme.length_next_lt found
      have := Lexeme.length_dropWhile_le Text.isBlank text
      omega
    rw [lex, lexFrom, lexFrom]
    split
    · next kind chars rest found =>
      have lt := shorter rest (by rw [found]; rfl)
      rw [ih _ lt _ rest _ rfl, ih _ lt _ rest _ rfl]
      simp [Token.moved, Nat.add_comm, Nat.add_left_comm]
    · next length rest found =>
      have lt := shorter rest (by rw [found]; rfl)
      rw [ih _ lt _ rest _ rfl, ih _ lt _ rest _ rfl]
      simp [Nat.add_comm, Nat.add_left_comm]
    · simp [Lexed.behind, Lexed.moved, ReadError.moved, Nat.add_comm]
    · simp [Lexed.behind, Lexed.moved, ReadError.moved, Nat.add_comm]
    · split <;> simp [Lexed.behind, Lexed.moved, ReadError.moved]

section Equations

variable {text rest : List Char}

theorem lex_of_token {kind : Token.Kind} {chars : List Char}
    (found : Lexeme.next (text.dropWhile Text.isBlank) = .token kind chars rest) :
    lex text = ((lex rest).moved (blanks text + chars.length)).behind
      [⟨kind, String.ofList chars, blanks text, blanks text + chars.length⟩] := by
  rw [lex, lexFrom]
  split <;> simp_all [blanks, lexFrom_eq]

theorem lex_of_comment {length : Nat}
    (found : Lexeme.next (text.dropWhile Text.isBlank) = .comment length rest) :
    lex text = (lex rest).moved (blanks text + length) := by
  rw [lex, lexFrom]
  split <;> simp_all [blanks, lexFrom_eq]

theorem lex_of_openComment
    (found : Lexeme.next (text.dropWhile Text.isBlank) = .openComment) :
    lex text = ⟨[], some ⟨.unterminatedComment, blanks text⟩⟩ := by
  rw [lex, lexFrom]
  split <;> simp_all [blanks]

theorem lex_of_openString
    (found : Lexeme.next (text.dropWhile Text.isBlank) = .openString) :
    lex text = ⟨[], some ⟨.unterminatedString, blanks text⟩⟩ := by
  rw [lex, lexFrom]
  split <;> simp_all [blanks]

theorem lex_of_blank (blank : text.dropWhile Text.isBlank = []) : lex text = ⟨[], none⟩ := by
  have nothing {found : Lexeme} (next : Lexeme.next (text.dropWhile Text.isBlank) = found) :
      found = .nothing := by
    rw [← next, blank]
    rfl
  rw [lex, lexFrom]
  split
  · next found => cases nothing found
  · next found => cases nothing found
  · next found => cases nothing found
  · next found => cases nothing found
  · split
    · next front =>
      rw [blank] at front
      cases front
    · rfl

@[simp]
theorem lex_nil : lex [] = ⟨[], none⟩ := lex_of_blank rfl

/-- Where no token starts, the lexer complains about the first character, blank or not. -/
theorem lex_of_nothing (found : Lexeme.next (text.dropWhile Text.isBlank) = .nothing)
    (lexeme : text.dropWhile Text.isBlank ≠ []) :
    ∃ c, text.head? = some c ∧ lex text = ⟨[], some ⟨.unexpectedChar c, 0⟩⟩ := by
  obtain ⟨d, more, front⟩ := List.exists_cons_of_ne_nil lexeme
  cases text with
  | nil => simp at lexeme
  | cons c text =>
    refine ⟨c, rfl, ?_⟩
    rw [lex, lexFrom]
    split <;> simp_all

end Equations

namespace Lexeme

theorem append_of_closed {soFar text body rest : List Char}
    (found : stringBody soFar text = .closed body rest) : body ++ rest = soFar.reverse ++ text := by
  fun_induction stringBody soFar text with
  | case1 => simp at found
  | case2 soFar tail =>
    obtain ⟨rfl, rfl⟩ := Body.closed.inj found
    simp
  | case3 => simp at found
  | case4 soFar c tail ih => simpa using ih found
  | case5 soFar c tail _ _ _ ih => simpa using ih found

theorem append_of_blockEnd {depth count length : Nat} {text rest : List Char}
    (found : blockEnd depth count text = some (length, rest)) :
    ∃ passed, text = passed ++ rest ∧ length = count + passed.length := by
  fun_induction blockEnd depth count text with
  | case1 depth count tail ih =>
    obtain ⟨passed, rfl, rfl⟩ := ih found
    exact ⟨'#' :: '|' :: passed, rfl, by simp; omega⟩
  | case2 count tail =>
    obtain ⟨rfl, rfl⟩ := Prod.mk.inj (Option.some.inj found)
    exact ⟨['|', '#'], rfl, rfl⟩
  | case3 count tail depth ih =>
    obtain ⟨passed, rfl, rfl⟩ := ih found
    exact ⟨'|' :: '#' :: passed, rfl, by simp; omega⟩
  | case4 depth count c tail _ _ ih =>
    obtain ⟨passed, rfl, rfl⟩ := ih found
    exact ⟨c :: passed, rfl, by simp; omega⟩
  | case5 => simp at found

theorem append_of_token {text chars rest : List Char} {kind : Token.Kind}
    (found : next text = .token kind chars rest) : chars ++ rest = text := by
  unfold next at found
  split at found <;> (try split at found) <;>
    simp only [token.injEq, reduceCtorEq] at found
  all_goals obtain ⟨-, rfl, rfl⟩ := found
  case h_1 closed => simpa using append_of_closed closed
  all_goals simp

theorem ne_nil_of_token {text chars rest : List Char} {kind : Token.Kind}
    (found : next text = .token kind chars rest) : chars ≠ [] := by
  rintro rfl
  have shorter := length_next_lt (by rw [found]; rfl)
  simp [← append_of_token found] at shorter

theorem append_of_comment {text rest : List Char} {length : Nat}
    (found : next text = .comment length rest) :
    ∃ passed, text = passed ++ rest ∧ length = passed.length := by
  unfold next at found
  split at found <;> (try split at found) <;>
    simp only [comment.injEq, reduceCtorEq] at found
  · next tail =>
    obtain ⟨rfl, rfl⟩ := found
    exact ⟨';' :: tail.takeWhile (· != '\n'), by simp, by simp; omega⟩
  · next ended =>
    obtain ⟨rfl, rfl⟩ := found
    obtain ⟨passed, rfl, rfl⟩ := append_of_blockEnd ended
    exact ⟨'#' :: '|' :: passed, rfl, by simp; omega⟩

end Lexeme

/-- What the blanks and the lexeme at the start of a text take from it. -/
theorem passed_of_token {text chars rest : List Char} {kind : Token.Kind}
    (found : Lexeme.next (text.dropWhile Text.isBlank) = .token kind chars rest) :
    ∃ passed, text = passed ++ rest ∧ passed.length = blanks text + chars.length := by
  refine ⟨text.takeWhile Text.isBlank ++ chars, ?_, by simp [blanks]⟩
  rw [List.append_assoc, Lexeme.append_of_token found, List.takeWhile_append_dropWhile]

theorem passed_of_comment {text rest : List Char} {length : Nat}
    (found : Lexeme.next (text.dropWhile Text.isBlank) = .comment length rest) :
    ∃ passed, text = passed ++ rest ∧ passed.length = blanks text + length := by
  obtain ⟨comment, whole, rfl⟩ := Lexeme.append_of_comment found
  refine ⟨text.takeWhile Text.isBlank ++ comment, ?_, by simp [blanks]⟩
  rw [List.append_assoc, ← whole, List.takeWhile_append_dropWhile]

/-- Induction over the lexemes of a text: what follows from the rest behind the first lexeme and
holds where there is no rest, holds of every text. -/
theorem lexeme_induction {motive : List Char → Prop}
    (token : ∀ text kind chars rest,
      Lexeme.next (text.dropWhile Text.isBlank) = .token kind chars rest → motive rest → motive text)
    (comment : ∀ text length rest,
      Lexeme.next (text.dropWhile Text.isBlank) = .comment length rest → motive rest → motive text)
    (last : ∀ text, (Lexeme.next (text.dropWhile Text.isBlank)).rest? = none → motive text)
    (text : List Char) : motive text := by
  induction size : text.length using Nat.strongRecOn generalizing text with
  | ind n ih =>
    have shorter (rest : List Char)
        (found : (Lexeme.next (text.dropWhile Text.isBlank)).rest? = some rest) :
        rest.length < n := by
      have := Lexeme.length_next_lt found
      have := Lexeme.length_dropWhile_le Text.isBlank text
      omega
    cases found : Lexeme.next (text.dropWhile Text.isBlank) with
    | token kind chars rest =>
      exact token text kind chars rest found (ih _ (shorter rest (by rw [found]; rfl)) rest rfl)
    | comment length rest =>
      exact comment text length rest found (ih _ (shorter rest (by rw [found]; rfl)) rest rfl)
    | openString => exact last text (by rw [found]; rfl)
    | openComment => exact last text (by rw [found]; rfl)
    | nothing => exact last text (by rw [found]; rfl)

theorem tokens_of_last {text : List Char}
    (last : (Lexeme.next (text.dropWhile Text.isBlank)).rest? = none) :
    (lex text).tokens = [] := by
  rw [lex, lexFrom]
  split
  · next found => simp [found, Lexeme.rest?] at last
  · next found => simp [found, Lexeme.rest?] at last
  · rfl
  · rfl
  · split <;> rfl

/-- A blank in front of a text with tokens only moves them. Without a token it may be what the
lexer complains about. -/
theorem lex_cons_of_isBlank {c : Char} {text : List Char} (blank : Text.isBlank c = true)
    (some_token : (lex text).tokens ≠ []) : lex (c :: text) = (lex text).moved 1 := by
  have same : (c :: text).dropWhile Text.isBlank = text.dropWhile Text.isBlank := by
    simp [blank]
  have more : blanks (c :: text) = blanks text + 1 := by
    simp [blanks, blank]
  cases found : Lexeme.next (text.dropWhile Text.isBlank) with
  | token kind chars rest =>
    rw [lex_of_token found, lex_of_token (same ▸ found), more]
    simp [Token.moved, Nat.add_right_comm]
  | comment length rest =>
    rw [lex_of_comment found, lex_of_comment (same ▸ found), more]
    simp [Nat.add_right_comm]
  | openString | openComment | nothing =>
    exact absurd (tokens_of_last (by rw [found]; rfl)) some_token

/-- Every token stands within its text and is as long as its spelling, which is not empty. -/
theorem bounds_of_mem_lex {text : List Char} {t : Token} (member : t ∈ (lex text).tokens) :
    t.start + t.text.toList.length = t.stop ∧ t.start < t.stop ∧ t.stop ≤ text.length := by
  induction text using lexeme_induction generalizing t with
  | token text kind chars rest found ih =>
    obtain ⟨passed, whole, taken⟩ := passed_of_token found
    have whole := congrArg List.length whole
    rw [List.length_append] at whole
    simp only [lex_of_token found, Lexed.behind, Lexed.moved, List.cons_append, List.nil_append,
      List.mem_cons, List.mem_map] at member
    rcases member with rfl | ⟨u, member, rfl⟩
    · have positive := List.length_pos_iff.mpr (Lexeme.ne_nil_of_token found)
      simp only [String.toList_ofList, true_and]
      omega
    · have := ih member
      simp only [Token.moved]
      omega
  | comment text length rest found ih =>
    obtain ⟨passed, whole, taken⟩ := passed_of_comment found
    have whole := congrArg List.length whole
    rw [List.length_append] at whole
    simp only [lex_of_comment found, Lexed.moved, List.mem_map] at member
    obtain ⟨u, member, rfl⟩ := member
    have := ih member
    simp only [Token.moved]
    omega
  | last text last => simp [tokens_of_last last] at member

theorem drop_blanks (text : List Char) : text.drop (blanks text) = text.dropWhile Text.isBlank := by
  have split := List.takeWhile_append_dropWhile (p := Text.isBlank) (l := text)
  calc text.drop (blanks text)
      = (text.takeWhile Text.isBlank ++ text.dropWhile Text.isBlank).drop (blanks text) := by rw [split]
    _ = text.dropWhile Text.isBlank := List.drop_left

theorem next_drop_append {rest : List Char} {t : Token}
    (found : Lexeme.next (rest.drop t.start) = .token t.kind t.text.toList (rest.drop t.stop))
    (passed : List Char) :
    Lexeme.next ((passed ++ rest).drop (t.moved passed.length).start) =
      .token t.kind t.text.toList ((passed ++ rest).drop (t.moved passed.length).stop) := by
  simp only [Token.moved, Nat.add_comm _ passed.length, List.drop_length_add_append]
  exact found

/-- A token is the lexeme at its place in the text. -/
theorem next_of_mem_lex {text : List Char} {t : Token} (member : t ∈ (lex text).tokens) :
    Lexeme.next (text.drop t.start) = .token t.kind t.text.toList (text.drop t.stop) := by
  induction text using lexeme_induction generalizing t with
  | token text kind chars rest found ih =>
    obtain ⟨passed, whole, taken⟩ := passed_of_token found
    simp only [lex_of_token found, Lexed.behind, Lexed.moved, List.cons_append, List.nil_append,
      List.mem_cons, List.mem_map] at member
    rcases member with rfl | ⟨u, member, rfl⟩
    · have left : text.drop (blanks text + chars.length) = rest := by
        rw [← taken, whole, List.drop_left]
      simpa [drop_blanks, left] using found
    · rw [← taken, whole]
      exact next_drop_append (ih member) passed
  | comment text length rest found ih =>
    obtain ⟨passed, whole, taken⟩ := passed_of_comment found
    simp only [lex_of_comment found, Lexed.moved, List.mem_map] at member
    obtain ⟨u, member, rfl⟩ := member
    rw [← taken, whole]
    exact next_drop_append (ih member) passed
  | last text last => simp [tokens_of_last last] at member

theorem lex_drop_append {passed rest : List Char} {front back : List Token} {t : Token}
    (resume : ∀ front back t, (lex rest).tokens = front ++ t :: back →
      (lex (rest.drop t.stop)).moved t.stop = ⟨back, (lex rest).failure⟩)
    (cut : (lex rest).tokens.map (Token.moved passed.length) = front ++ t :: back) :
    (lex ((passed ++ rest).drop t.stop)).moved t.stop =
      ⟨back, (lex rest).failure.map (ReadError.moved passed.length)⟩ := by
  obtain ⟨before, behind, split, rfl, moved⟩ := List.map_eq_append_iff.mp cut
  obtain ⟨u, after, rfl, rfl, rfl⟩ := List.map_eq_cons_iff.mp moved
  have dropped : (passed ++ rest).drop (u.moved passed.length).stop = rest.drop u.stop := by
    simp only [Token.moved]
    rw [Nat.add_comm, List.drop_length_add_append]
  have resumed := congrArg (Lexed.moved passed.length) (resume before after u split)
  rw [dropped]
  simpa [Lexed.moved, Token.moved] using resumed

/-- Lexing can be taken up again behind any token. -/
theorem lex_drop {text : List Char} {front back : List Token} {t : Token}
    (cut : (lex text).tokens = front ++ t :: back) :
    (lex (text.drop t.stop)).moved t.stop = ⟨back, (lex text).failure⟩ := by
  induction text using lexeme_induction generalizing front back t with
  | token text kind chars rest found ih =>
    obtain ⟨passed, whole, taken⟩ := passed_of_token found
    rw [lex_of_token found, ← taken] at cut ⊢
    subst whole
    cases front with
    | nil =>
      obtain ⟨rfl, rfl⟩ := List.cons.inj cut
      simp [Lexed.moved, Lexed.behind]
    | cons first front =>
      exact lex_drop_append (fun _ _ _ => ih) (List.cons.inj cut).2
  | comment text length rest found ih =>
    obtain ⟨passed, whole, taken⟩ := passed_of_comment found
    rw [lex_of_comment found, ← taken] at cut ⊢
    subst whole
    exact lex_drop_append (fun _ _ _ => ih) cut
  | last text last => simp [tokens_of_last last] at cut

end LazyLisp
