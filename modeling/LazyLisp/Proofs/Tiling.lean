import LazyLisp.Proofs.Layout

/-!
The tokens tile the text.

Every token is a piece of the text, the pieces stand one behind the other, and between them there is
layout only. The last token is followed by layout up to the end of the text, or up to a comment or a
string literal that is not closed. The tiles are laid along the lexemes of the text, each from where
the last one ended; their places in the whole text are read off afterwards.
-/

namespace LazyLisp

def Unclosed (text : List Char) : ReadIssue → Prop
  | .unterminatedComment => OpenComment text
  | .unterminatedString | .unexpectedChar _ => OpenString text
  | _ => False

def LeavesOver (failure : Option ReadError) (text : List Char) : Prop :=
  match failure with
  | none => text = []
  | some e => Unclosed text e.issue

/-- From character `pos` on, the text consists of the tokens with layout in front of each of them,
and of layout and what is left over behind them. -/
inductive Tiles (failure : Option ReadError) : Nat → List Char → List Token → Prop where
  | last {pos gap rest} : Layout rest gap → LeavesOver failure rest →
      Tiles failure pos (gap ++ rest) []
  | token {pos gap t rest ts} : Layout (t.text.toList ++ rest) gap → t.text.toList ≠ [] →
      t.start = pos + gap.length → t.stop = t.start + t.text.toList.length →
      Tiles failure t.stop rest ts → Tiles failure pos (gap ++ (t.text.toList ++ rest)) (t :: ts)

theorem leavesOver_moved {failure : Option ReadError} {text : List Char} (k : Nat) :
    LeavesOver (failure.map (ReadError.moved k)) text ↔ LeavesOver failure text := by
  cases failure <;> rfl

namespace Tiles

variable {failure : Option ReadError} {pos : Nat} {text : List Char} {ts : List Token}

theorem behind {front : List Char} (layout : Layout text front)
    (tiles : Tiles failure (pos + front.length) text ts) :
    Tiles failure pos (front ++ text) ts := by
  cases tiles with
  | last gap leaves =>
    rw [← List.append_assoc]
    exact .last (layout.append gap) leaves
  | token gap nonempty starts stops rest =>
    rw [← List.append_assoc]
    refine .token (layout.append gap) nonempty ?_ stops rest
    rw [starts, List.length_append, Nat.add_assoc]

theorem moved (tiles : Tiles failure pos text ts) (k : Nat) :
    Tiles (failure.map (ReadError.moved k)) (pos + k) text (ts.map (Token.moved k)) := by
  induction tiles with
  | last gap leaves => exact .last gap ((leavesOver_moved k).mpr leaves)
  | @token pos gap t rest ts layout nonempty starts stops _ ih =>
    refine @token _ _ gap (t.moved k) rest _ layout nonempty ?_ ?_ ih
    · simp only [Token.moved, starts]
      omega
    · simp only [Token.moved, stops]
      omega

end Tiles

theorem layout_takeWhile_isBlank (text rest : List Char) :
    Layout rest (text.takeWhile Text.isBlank) :=
  .of_blanks fun _ member => List.mem_takeWhile_imp member

theorem tiles_lex_of_last {text : List Char}
    (last : (Lexeme.next (text.dropWhile Text.isBlank)).rest? = none) :
    Tiles (lex text).failure 0 text [] := by
  have tiles {failure : Option ReadError}
      (leaves : LeavesOver failure (text.dropWhile Text.isBlank)) : Tiles failure 0 text [] := by
    rw [← List.takeWhile_append_dropWhile (p := Text.isBlank) (l := text)]
    exact .last (layout_takeWhile_isBlank text _) leaves
  cases found : Lexeme.next (text.dropWhile Text.isBlank) with
  | token kind chars rest => simp [found, Lexeme.rest?] at last
  | comment length rest => simp [found, Lexeme.rest?] at last
  | openString =>
    rw [lex_of_openString found]
    exact tiles (Lexeme.openString_of_next found)
  | openComment =>
    rw [lex_of_openComment found]
    exact tiles (Lexeme.openComment_of_next found)
  | nothing =>
    by_cases ended : text.dropWhile Text.isBlank = []
    · rw [lex_of_blank ended]
      exact tiles ended
    · obtain ⟨c, -, lexed⟩ := lex_of_nothing found ended
      rw [lexed]
      exact tiles (Lexeme.openString_of_nothing found ended)

/-- The lexer lays tiles, one lexeme after the other. -/
theorem tiles_lex (text : List Char) : Tiles (lex text).failure 0 text (lex text).tokens := by
  induction text using lexeme_induction with
  | token text kind chars rest found ih =>
    have whole : text.takeWhile Text.isBlank ++ (chars ++ rest) = text := by
      rw [Lexeme.append_of_token found, List.takeWhile_append_dropWhile]
    have laid := ih.moved (blanks text + chars.length)
    rw [Nat.zero_add] at laid
    rw [lex_of_token found]
    have spelled : (String.ofList chars).toList = chars := String.toList_ofList
    have nonempty := Lexeme.ne_nil_of_token found
    have starts : blanks text = 0 + (text.takeWhile Text.isBlank).length := by simp [blanks]
    have tiles := Tiles.token (t := ⟨kind, String.ofList chars, blanks text, _⟩)
      (layout_takeWhile_isBlank text _) (by rwa [spelled]) starts (by rw [spelled]) laid
    rwa [spelled, whole] at tiles
  | comment text length rest found ih =>
    obtain ⟨passed, same, rfl, layout⟩ := Lexeme.layout_of_comment found
    have whole : (text.takeWhile Text.isBlank ++ passed) ++ rest = text := by
      rw [List.append_assoc, ← same, List.takeWhile_append_dropWhile]
    have front : Layout rest (text.takeWhile Text.isBlank ++ passed) :=
      (layout_takeWhile_isBlank text _).append layout
    have laid := ih.moved (blanks text + passed.length)
    rw [blanks, ← List.length_append] at laid
    have tiles := Tiles.behind front laid
    rw [whole] at tiles
    rwa [lex_of_comment found, blanks, ← List.length_append]
  | last text last =>
    rw [tokens_of_last last]
    exact tiles_lex_of_last last

theorem extract_middle {front piece back : List Char} {start stop : Nat}
    (starts : start = front.length) (stops : stop = start + piece.length) :
    (front ++ (piece ++ back)).extract start stop = piece := by
  subst starts stops
  rw [List.extract_eq_take_drop, List.drop_left, Nat.add_sub_cancel_left, List.take_left]

namespace Tiles

variable {failure : Option ReadError} {pos : Nat} {text : List Char} {front back : List Token}
  {t : Token}

theorem exists_rest (tiles : Tiles failure pos text (front ++ back)) :
    ∃ passed rest, text = passed ++ rest ∧ lastStop pos front = pos + passed.length ∧
      Tiles failure (lastStop pos front) rest back := by
  induction front generalizing pos text with
  | nil => exact ⟨[], text, rfl, rfl, tiles⟩
  | cons t front ih =>
    cases tiles with
    | @token _ gap _ rest _ layout nonempty starts stops tiles =>
      obtain ⟨passed, rest, rfl, ended, tiles⟩ := ih tiles
      refine ⟨gap ++ (t.text.toList ++ passed), rest, by simp, ?_, tiles⟩
      rw [lastStop, ended, stops, starts, List.length_append, List.length_append]
      omega

/-- The tile of a token, with the gap in front of it. -/
theorem exists_tile (tiles : Tiles failure 0 text (front ++ t :: back)) :
    ∃ passed gap rest, text = passed ++ (gap ++ (t.text.toList ++ rest)) ∧
      lastStop 0 front = passed.length ∧ t.start = passed.length + gap.length ∧
      t.stop = t.start + t.text.toList.length ∧ t.text.toList ≠ [] ∧
      Layout (t.text.toList ++ rest) gap := by
  obtain ⟨passed, rest, rfl, ended, tiles⟩ := tiles.exists_rest
  rw [Nat.zero_add] at ended
  cases tiles with
  | @token _ gap _ rest _ layout nonempty starts stops _ =>
    exact ⟨passed, gap, rest, rfl, ended, by rw [starts, ended], stops, nonempty, layout⟩

theorem exists_leftOver (tiles : Tiles failure 0 text back) :
    ∃ gap rest, text.drop (lastStop 0 back) = gap ++ rest ∧
      Layout rest gap ∧ LeavesOver failure rest := by
  rw [← List.append_nil back] at tiles
  obtain ⟨passed, left, whole, ended, tiles⟩ := tiles.exists_rest
  cases tiles with
  | @last _ gap rest layout leaves =>
    refine ⟨gap, rest, ?_, layout, leaves⟩
    rw [ended, Nat.zero_add, whole]
    exact List.drop_left

/-- A tile is the piece of the text between the places of its token. -/
theorem spelled (tiles : Tiles failure 0 text back) (member : t ∈ back) :
    t.start < t.stop ∧ t.stop ≤ text.length ∧ t.text.toList = text.extract t.start t.stop := by
  obtain ⟨front, back, rfl⟩ := List.append_of_mem member
  obtain ⟨passed, gap, rest, whole, -, starts, stops, nonempty, -⟩ := tiles.exists_tile
  have positive := List.length_pos_iff.mpr nonempty
  have length := congrArg List.length whole
  simp only [List.length_append] at length
  rw [← List.append_assoc] at whole
  refine ⟨by omega, by omega, ?_⟩
  rw [whole, extract_middle (by rw [starts, List.length_append]) stops]

/-- In front of a tile there is layout, from where the tile before it ends. -/
theorem between (tiles : Tiles failure 0 text (front ++ t :: back)) :
    lastStop 0 front ≤ t.start ∧
      Layout (text.drop t.start) (text.extract (lastStop 0 front) t.start) := by
  obtain ⟨passed, gap, rest, whole, ended, starts, -, -, layout⟩ := tiles.exists_tile
  have piece : text.extract (lastStop 0 front) t.start = gap := by
    rw [whole, extract_middle ended (by rw [starts, ended])]
  have behind : text.drop t.start = t.text.toList ++ rest := by
    rw [whole, starts, ← List.length_append, ← List.append_assoc]
    exact List.drop_left
  rw [piece, behind]
  exact ⟨by omega, layout⟩

theorem le_start (tiles : Tiles failure pos text back) (member : t ∈ back) : pos ≤ t.start := by
  induction tiles with
  | last => cases member
  | token _ _ starts stops _ ih =>
    rcases List.mem_cons.mp member with rfl | member
    · omega
    · have := ih member
      omega

theorem pairwise (tiles : Tiles failure pos text back) :
    back.Pairwise fun t u => t.stop ≤ u.start := by
  induction tiles with
  | last => exact .nil
  | token _ _ _ _ tiles ih => exact .cons (fun u member => tiles.le_start member) ih

end Tiles

/-- A token starts with a character that is no blank. -/
theorem exists_head_of_mem_lex {text : List Char} {t : Token} (member : t ∈ (lex text).tokens) :
    ∃ c more, t.text.toList = c :: more ∧ Text.isBlank c = false := by
  induction text using lexeme_induction generalizing t with
  | token text kind chars rest found ih =>
    simp only [lex_of_token found, Lexed.behind, Lexed.moved, List.cons_append, List.nil_append,
      List.mem_cons, List.mem_map] at member
    rcases member with rfl | ⟨u, member, rfl⟩
    · have spelled := Lexeme.append_of_token found
      have solid := noBlank_head?_dropWhile text
      obtain ⟨c, more, rfl⟩ := List.exists_cons_of_ne_nil (Lexeme.ne_nil_of_token found)
      refine ⟨c, more, by simp, solid c ?_⟩
      simp [← spelled]
    · exact ih (t := u) member
  | comment text length rest found ih =>
    simp only [lex_of_comment found, Lexed.moved, List.mem_map] at member
    obtain ⟨u, member, rfl⟩ := member
    exact ih (t := u) member
  | last text last => simp [tokens_of_last last] at member

/-- The tokens stand in the text in their order, layout only stands between them, and behind the
last one there is layout and what the lexer complains about, if it does. -/
structure Tiled (text : List Char) (l : Lexed) : Prop where
  spelled : ∀ t ∈ l.tokens, t.start < t.stop ∧ t.stop ≤ text.length ∧
    t.text.toList = text.extract t.start t.stop
  ordered : l.tokens.Pairwise fun t u => t.stop ≤ u.start
  between : ∀ front t back, l.tokens = front ++ t :: back →
    lastStop 0 front ≤ t.start ∧
      Layout (text.drop t.start) (text.extract (lastStop 0 front) t.start)
  behind : l.failure = none → Layout [] (text.drop (lastStop 0 l.tokens))
  failed : ∀ e ∈ l.failure, ∃ gap rest, text.drop (lastStop 0 l.tokens) = gap ++ rest ∧
    Layout rest gap ∧ Unclosed rest e.issue

/-- The tokens of every text tile it. -/
theorem lex_tiled (text : List Char) : Tiled text (lex text) := by
  have tiles := tiles_lex text
  obtain ⟨gap, rest, left, layout, leaves⟩ := tiles.exists_leftOver
  refine ⟨fun t member => tiles.spelled member, tiles.pairwise, ?_, ?_, ?_⟩
  · intro front t back cut
    rw [cut] at tiles
    exact tiles.between
  · intro sound
    rw [sound] at leaves
    obtain rfl : rest = [] := leaves
    rw [left, List.append_nil]
    exact layout
  · intro e failed
    rw [Option.mem_def.mp failed] at leaves
    exact ⟨gap, rest, left, layout, leaves⟩

end LazyLisp
