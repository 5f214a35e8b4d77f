import LazyLisp.Proofs.Lexing
import LazyLisp.Proofs.Literals
import LazyLisp.Proofs.Parsing
import LazyLisp.Proofs.Printing

/-!
# Reading back what was written

The readable text of a datum is cut into tokens that end where the printer ended them, and these
tokens lead the parser to the datum. Both are proved by one induction over the datum, for a datum by
itself and for the rest of a list; the text behind the datum only has to start at a boundary.
-/

namespace LazyLisp

def isReaderSymbol (name : String) : Bool :=
  (lex name.toList).failure.isNone &&
    (lex name.toList).tokens.map (fun t => (t.kind, t.text)) == [(.word, name)] &&
    name != "." &&
    match Atom.ofWord name.toList with
    | .ok (.symbol _) => true
    | _ => false

namespace Datum

/-- A list of two items whose abbreviation reads as another one: a mark followed by an at sign
splices. -/
def abbreviatesToSplice : Datum → Datum → Bool
  | .symbol "unquote", .pair (.symbol name) .nil => name.toList.head? == some '@'
  | _, _ => false

/-- Whether a datum is free of what the printer cannot write so that it reads back: doubles,
integers with too many digits, symbols that no word spells, and unquoted symbols that start with an
at sign. The rest of a list is never abbreviated. -/
def readsBack : (inList : Bool) → Datum → Bool
  | _, .atom .nil | _, .atom (.string _) | _, .atom (.char _) => true
  | _, .atom (.int n) => LazyLisp.hasText n
  | _, .atom (.float _) => false
  | _, .atom (.symbol name) => isReaderSymbol name && name != "#\\"
  | inList, .pair car cdr =>
    car.readsBack false && cdr.readsBack true && (inList || !abbreviatesToSplice car cdr)

theorem hasText_of_readsBack {d : Datum} {inList : Bool} (readsBack : d.readsBack inList = true) :
    d.HasText := by
  induction d generalizing inList with
  | atom a =>
    cases a with
    | int n => exact readsBack
    | float x => simp [Datum.readsBack] at readsBack
    | nil | string _ | symbol _ | char _ => rfl
  | pair car cdr head tail =>
    simp only [Datum.readsBack, Bool.and_eq_true] at readsBack
    exact ⟨head readsBack.1.1, tail readsBack.1.2⟩

end Datum

theorem next_of_isReaderSymbol {name : String} (symbol : isReaderSymbol name = true) :
    name.toList.dropWhile Text.isBlank = name.toList ∧
      Lexeme.next name.toList = .token .word name.toList [] := by
  simp only [isReaderSymbol, Bool.and_eq_true, beq_iff_eq] at symbol
  have single := symbol.1.1.2
  -- The only token is as long as the name, so that nothing is left for blanks and comments.
  cases found : Lexeme.next (name.toList.dropWhile Text.isBlank) with
  | token kind chars rest =>
    simp only [lex_of_token found, Lexed.behind, List.cons_append, List.map_cons,
      List.cons.injEq, Prod.mk.injEq] at single
    obtain ⟨⟨rfl, spelled⟩, -⟩ := single
    have whole : chars = name.toList := by rw [← spelled, String.toList_ofList]
    obtain ⟨passed, split, taken⟩ := passed_of_token found
    have lengths := congrArg List.length split
    rw [List.length_append, taken, whole] at lengths
    have noRest : rest = [] := List.eq_nil_of_length_eq_zero (by omega)
    have kept := Lexeme.append_of_token found
    rw [noRest, List.append_nil, whole] at kept
    rw [← kept, noRest, whole] at found
    exact ⟨kept.symm, found⟩
  | comment length rest =>
    simp only [lex_of_comment found, Lexed.moved, List.map_map] at single
    obtain ⟨t, member, spelled⟩ : ∃ t ∈ (lex rest).tokens, t.text = name := by
      cases tokens : (lex rest).tokens with
      | nil => simp [tokens] at single
      | cons t more =>
        simp only [tokens, List.map_cons, List.cons.injEq, Function.comp_apply,
          Prod.mk.injEq] at single
        exact ⟨t, List.mem_cons_self, single.1.2⟩
    have bounds := bounds_of_mem_lex member
    have shorter := Lexeme.length_next_lt (by rw [found]; rfl : _ = some rest)
    have := Lexeme.length_dropWhile_le Text.isBlank name.toList
    rw [spelled] at bounds
    omega
  | openString => simp [lex_of_openString found] at single
  | openComment => simp [lex_of_openComment found] at single
  | nothing => simp [tokens_of_last (by rw [found]; rfl)] at single

def Cuts (before : List Char → Prop) (chars : List Char) (tokens : List Token) : Prop :=
  ∀ rest, before rest → lex (chars ++ rest) = ((lex rest).moved chars.length).behind tokens

namespace Cuts

variable {before after : List Char → Prop} {chars more : List Char} {ts us : List Token}

theorem append (first : Cuts before chars ts) (second : Cuts after more us)
    (joins : ∀ rest, after rest → before (more ++ rest)) :
    Cuts after (chars ++ more) (ts ++ us.map (Token.moved chars.length)) := by
  intro rest allowed
  rw [List.append_assoc, first _ (joins rest allowed), second rest allowed]
  simp [Nat.add_comm]

theorem one {kind : Token.Kind} {c : Char} (noBlank : Text.isBlank c = false)
    (found : ∀ rest, before rest →
      Lexeme.next (c :: more ++ rest) = .token kind (c :: more) rest) :
    Cuts before (c :: more)
      [⟨kind, String.ofList (c :: more), 0, (c :: more).length⟩] := by
  intro rest allowed
  have kept : (c :: more ++ rest).dropWhile Text.isBlank = c :: more ++ rest := by
    simp [noBlank]
  have none : blanks (c :: more ++ rest) = 0 := by
    simp [blanks, noBlank]
  rw [lex_of_token (kept ▸ found rest allowed), none]
  simp

theorem spaced (cut : Cuts before chars ts) (nonempty : ts ≠ []) :
    Cuts before (' ' :: chars) (ts.map (Token.moved 1)) := by
  intro rest allowed
  have tokens : (lex (chars ++ rest)).tokens ≠ [] := by
    simp [cut rest allowed, Lexed.behind, nonempty]
  rw [List.cons_append, lex_cons_of_isBlank rfl tokens, cut rest allowed]
  simp

theorem leftParen : Cuts (fun _ => True) ['('] [⟨.leftParen, "(", 0, 1⟩] :=
  one rfl fun _ _ => rfl

theorem rightParen : Cuts (fun _ => True) [')'] [⟨.rightParen, ")", 0, 1⟩] :=
  one rfl fun _ _ => rfl

theorem dot : Cuts Lexeme.AtBoundary ['.'] [⟨.word, ".", 0, 1⟩] :=
  one rfl fun _ boundary => Lexeme.next_word_append rfl (by decide) boundary

end Cuts

def Atom.SpelledBy (a : Atom) (t : Token) : Prop :=
  Cuts Lexeme.AtBoundary (a.write true).toList [t] ∧ t.kind ≠ .rightParen ∧ t.isDot = false ∧
    ∀ k stack, Move.begin stack (t.moved k) = .ok (Move.fill (.atom a) stack)

namespace Atom

variable {a : Atom}

theorem exists_token_of_next {kind : Token.Kind} {c : Char} {more : List Char}
    (text : (a.write true).toList = c :: more) (noBlank : Text.isBlank c = false)
    (found : ∀ rest, Lexeme.AtBoundary rest →
      Lexeme.next ((a.write true).toList ++ rest) = .token kind (a.write true).toList rest)
    (noClose : kind ≠ .rightParen) (noDot : kind = .word → a.write true ≠ ".")
    (begins : ∀ start stop stack, Move.begin stack ⟨kind, a.write true, start, stop⟩ =
      .ok (Move.fill (.atom a) stack)) : ∃ t, a.SpelledBy t := by
  have spelling : String.ofList (c :: more) = a.write true := by
    rw [← text, String.ofList_toList]
  refine ⟨⟨kind, a.write true, 0, (c :: more).length⟩, ?_, noClose, ?_, fun k stack => begins ..⟩
  · rw [text] at found ⊢
    rw [← spelling]
    exact Cuts.one noBlank found
  · simpa [Token.isDot] using noDot

theorem exists_token_of_word (text : (a.write true).toList ≠ [])
    (noBlank : (a.write true).toList.dropWhile Text.isBlank = (a.write true).toList)
    (alone : Lexeme.next (a.write true).toList = .token .word (a.write true).toList [])
    (denotes : ofWord (a.write true).toList = .ok a) (notMark : a.write true ≠ "#\\")
    (notDot : a.write true ≠ ".") : ∃ t, a.SpelledBy t := by
  obtain ⟨c, more, chars⟩ := List.exists_cons_of_ne_nil text
  have first : Text.isBlank c = false := by
    rw [chars] at noBlank
    by_contra blank
    have shorter := Lexeme.length_dropWhile_le Text.isBlank more
    rw [List.dropWhile_cons_of_pos (by simpa using blank)] at noBlank
    rw [noBlank] at shorter
    simp at shorter
  have notMark : (a.write true).toList ≠ ['#', '\\'] :=
    fun same => notMark (String.toList_inj.mp same)
  refine exists_token_of_next chars first
    (fun rest boundary => Lexeme.next_word_append alone notMark boundary)
    (by decide) (fun _ => notDot) ?_
  intro start stop stack
  simp [Move.begin, Token.isDot, notDot, denotes]

theorem exists_token (readsBack : (Datum.atom a).readsBack false = true) (notNil : a ≠ .nil) :
    ∃ t, a.SpelledBy t := by
  cases a with
  | nil => exact absurd rfl notNil
  | float x => simp [Datum.readsBack] at readsBack
  | int n =>
    have denotes : ofWord (toString n).toList = .ok (int n) := ofWord_toString_int readsBack
    obtain ⟨c, more, chars⟩ := List.exists_cons_of_ne_nil (Lexeme.toString_int_ne_nil n)
    have first : c ∈ (toString n).toList := by rw [chars]; exact List.mem_cons_self
    have noBlank :=
      Lexeme.isBlank_of_isWordChar (Lexeme.isWordChar_of_mem_toString_int first)
    refine exists_token_of_word (Lexeme.toString_int_ne_nil n) ?_ (Lexeme.next_toString_int n)
      denotes ?_ ?_
    · simp only [write, chars]
      simp [noBlank]
    · -- The mark and the dot denote symbols.
      intro (mark : toString n = "#\\")
      rw [mark] at denotes
      cases denotes
    · intro (dot : toString n = ".")
      rw [dot] at denotes
      cases denotes
  | symbol name =>
    simp only [Datum.readsBack, Bool.and_eq_true, bne_iff_ne] at readsBack
    obtain ⟨noBlank, alone⟩ := next_of_isReaderSymbol readsBack.1
    have symbol := readsBack.1
    simp only [isReaderSymbol, Bool.and_eq_true, bne_iff_ne] at symbol
    have denotes : ofWord name.toList = .ok (.symbol name) := by
      split at symbol
      · next x denotes =>
        rw [denotes, name_of_ofWord denotes, String.ofList_toList]
      · simp at symbol
    refine exists_token_of_word ?_ noBlank alone denotes readsBack.2 symbol.1.2
    intro (empty : name.toList = [])
    simp [empty, Lexeme.next] at alone
  | string text =>
    have chars : ((string text).write true).toList =
        '"' :: (text.toList.flatMap escapeChar ++ ['"']) := by
      simp [write, readableText]
    refine exists_token_of_next chars rfl (fun rest _ => next_readableText text rest)
      (by decide) (by simp) ?_
    intro start stop stack
    simp [Move.begin, write, unescape_readableText]
  | char c =>
    have chars : ((char c).write true).toList = '#' :: '\\' :: (charName c).toList := by
      simp [write]
    have found (rest : List Char) (boundary : Lexeme.AtBoundary rest) :
        Lexeme.next (((char c).write true).toList ++ rest) =
          .token .char ((char c).write true).toList rest := by
      rw [chars]
      exact Lexeme.next_charName c boundary
    refine exists_token_of_next chars rfl found (by decide) (by simp) ?_
    intro start stop stack
    simp [Move.begin, chars, ofCharLiteral_charName]

end Atom

namespace Datum

/-- The tokens lead the parser to the datum: by itself, wherever a form may start, or as the rest of
a list with items. -/
def ParsedFrom (d : Datum) (tokens : List Token) : (inList : Bool) → Prop
  | false => ∀ stack, Move.Awaits stack → Move.Leads stack tokens (Move.fill d stack)
  | true => ∀ start items stack, items ≠ [] →
      Move.Leads (.list start items :: stack) tokens (Move.fill (listWith items.reverse d) stack)

/-- The text of the datum is cut into tokens that lead the parser to it, wherever they stand. -/
def Spelled (d : Datum) (inList : Bool) : Prop :=
  ∃ tokens, tokens ≠ [] ∧ Cuts Lexeme.AtBoundary (d.chars inList) tokens ∧
    ∀ k, d.ParsedFrom (tokens.map (Token.moved k)) inList

theorem atBoundary_chars (d : Datum) (rest : List Char) :
    Lexeme.AtBoundary (d.chars true ++ rest) := by
  cases d with
  | atom a => cases a <;> simp [chars, Lexeme.AtBoundary]
  | pair car cdr => simp [chars, Lexeme.AtBoundary]

theorem spelled_nil : Spelled .nil false := by
  refine ⟨_, by simp, Cuts.leftParen.append
    (fun rest _ => Cuts.rightParen rest trivial) (fun _ _ => trivial), ?_⟩
  intro k stack awaits
  exact .next (Move.feed_leftParen awaits rfl) (.last (Move.feed_list_rightParen rfl))

theorem spelled_atom {a : Atom} (readsBack : (atom a).readsBack false = true) (notNil : a ≠ .nil) :
    Spelled (.atom a) false := by
  obtain ⟨t, cut, noClose, noDot, begins⟩ := Atom.exists_token readsBack notNil
  refine ⟨[t], by simp, cut, ?_⟩
  intro k stack awaits
  refine .last ?_
  rw [Move.feed_eq_begin (t := t.moved k) awaits noClose noDot]
  exact begins k stack

theorem spelled_nil_inList : Spelled .nil true := by
  refine ⟨_, by simp, fun rest _ => Cuts.rightParen rest trivial, ?_⟩
  intro k start items stack nonempty
  exact .last (Move.feed_list_rightParen rfl)

theorem spelled_atom_inList {a : Atom} (notNil : a ≠ .nil) (spelled : Spelled (.atom a) false) :
    Spelled (.atom a) true := by
  obtain ⟨tokens, nonempty, cut, parsed⟩ := spelled
  have text : chars true (.atom a) = ' ' :: ['.'] ++ (' ' :: chars false (.atom a) ++ [')']) := by
    cases a <;> simp_all [chars]
  have closed := (cut.spaced nonempty).append (fun rest (_ : Lexeme.AtBoundary rest) =>
    Cuts.rightParen rest trivial) (fun _ _ => Or.inr rfl)
  have whole := (Cuts.dot.spaced (by simp)).append closed (fun _ _ => Or.inl rfl)
  rw [← text] at whole
  refine ⟨_, by simp, whole, ?_⟩
  intro k start items stack someItem
  simp only [List.map_append, List.map_map, Token.moved_comp_moved, List.map_cons, List.map_nil]
  refine .next (Move.feed_list_dot someItem rfl) ?_
  exact (parsed _ (.dotted start items none :: stack) trivial).append
    (.last (Move.feed_dotted_rightParen rfl))

theorem spelled_pair_inList {car cdr : Datum} (head : Spelled car false) (tail : Spelled cdr true) :
    Spelled (.pair car cdr) true := by
  obtain ⟨ts, nonempty, cutHead, parsedHead⟩ := head
  obtain ⟨us, -, cutTail, parsedTail⟩ := tail
  have whole := (cutHead.spaced nonempty).append cutTail (fun rest _ => atBoundary_chars cdr rest)
  refine ⟨_, by simp [nonempty], whole, ?_⟩
  intro k start items stack someItem
  simp only [List.map_append, List.map_map, Token.moved_comp_moved]
  refine (parsedHead _ (.list start items :: stack) trivial).append ?_
  simpa [listWith_append] using parsedTail _ start (car :: items) stack (by simp)

theorem spelled_list {car cdr : Datum} (plain : abbreviation? car cdr = none)
    (head : Spelled car false) (tail : Spelled cdr true) : Spelled (.pair car cdr) false := by
  obtain ⟨ts, nonempty, cutHead, parsedHead⟩ := head
  obtain ⟨us, -, cutTail, parsedTail⟩ := tail
  have items := cutHead.append cutTail (fun rest _ => atBoundary_chars cdr rest)
  have whole := Cuts.leftParen.append items (fun _ _ => trivial)
  have text : chars false (.pair car cdr) = ['('] ++ (chars false car ++ chars true cdr) := by
    simp [chars_list plain]
  rw [← text] at whole
  refine ⟨_, by simp, whole, ?_⟩
  intro k stack awaits
  simp only [List.map_append, List.map_map, Token.moved_comp_moved, List.map_cons, List.map_nil]
  refine .next (Move.feed_leftParen awaits rfl) ?_
  refine (parsedHead _ (.list _ [] :: stack) trivial).append ?_
  simpa using parsedTail _ _ [car] stack (by simp)

/-- A mark is one token that stands for its quotation. Only the mark of an unquotation must not be
followed by an at sign. -/
theorem exists_mark {name mark : String} (found : Store.quotationMark? name = some mark) :
    ∃ t, t.kind.isQuotation = true ∧ OpenForm.quotationHead? t.text = some name ∧
      Cuts (fun rest => name = "unquote" → rest.head? ≠ some '@') mark.toList [t] := by
  unfold Store.quotationMark? at found
  split at found
  · cases found
    exact ⟨⟨.quote, "'", 0, 1⟩, rfl, rfl, Cuts.one rfl fun _ _ => rfl⟩
  · cases found
    exact ⟨⟨.quote, "`", 0, 1⟩, rfl, rfl, Cuts.one rfl fun _ _ => rfl⟩
  · cases found
    have comma (rest : List Char) (noSplice : "unquote" = "unquote" → rest.head? ≠ some '@') :
        Lexeme.next ([','] ++ rest) = .token .unquote [','] rest := by
      cases rest with
      | nil => rfl
      | cons c rest =>
        have noAt : c ≠ '@' := fun splice => noSplice rfl (by rw [splice]; rfl)
        simp [Lexeme.next, noAt]
    exact ⟨⟨.unquote, ",", 0, 1⟩, rfl, rfl, Cuts.one rfl comma⟩
  · cases found
    exact ⟨⟨.unquote, ",@", 0, 2⟩, rfl, rfl, Cuts.one rfl fun _ _ => rfl⟩
  · simp at found

/-- Only the text of a symbol starts with an at sign. -/
theorem head_chars_ne_at {item : Datum} {rest : List Char}
    (noSplice : ∀ name, item = .symbol name → name.toList.head? ≠ some '@')
    (readsBack : item.readsBack false = true) : (item.chars false ++ rest).head? ≠ some '@' := by
  cases item with
  | atom a =>
    cases a with
    | nil => simp [chars, Atom.write]
    | int n =>
      intro starts
      obtain ⟨c, more, text⟩ := List.exists_cons_of_ne_nil (Lexeme.toString_int_ne_nil n)
      have first : c ∈ (toString n).toList := by rw [text]; exact List.mem_cons_self
      simp only [chars, Atom.write, text, List.cons_append, List.head?_cons,
        Option.some.injEq] at starts
      rw [starts] at first
      simpa using Lexeme.mem_toString_int first
    | float x => simp [Datum.readsBack] at readsBack
    | string text => simp [chars, Atom.write, Atom.readableText]
    | symbol name =>
      simp only [Datum.readsBack, Bool.and_eq_true] at readsBack
      have alone := (next_of_isReaderSymbol readsBack.1).2
      cases text : name.toList with
      | nil => simp [text, Lexeme.next] at alone
      | cons c more =>
        have noAt := noSplice name rfl
        rw [text] at noAt
        simpa [chars, Atom.write, text] using noAt
    | char c => simp [chars, Atom.write]
  | pair car cdr =>
    cases found : abbreviation? car cdr with
    | none => simp [chars_list found]
    | some mark =>
      obtain ⟨name, item, rfl, rfl, named⟩ := abbreviation?_eq_some found
      rw [chars_abbreviated found]
      unfold Store.quotationMark? at named
      split at named <;> cases named <;> simp

theorem spelled_abbreviated {name mark : String} {item : Datum}
    (found : Store.quotationMark? name = some mark)
    (noSplice : ∀ rest, name = "unquote" → (item.chars false ++ rest).head? ≠ some '@')
    (spelled : Spelled item false) : Spelled (.pair (.symbol name) (.pair item .nil)) false := by
  obtain ⟨t, quotation, stands, cutMark⟩ := exists_mark found
  obtain ⟨ts, nonempty, cut, parsed⟩ := spelled
  have whole := cutMark.append cut (fun rest _ => noSplice rest)
  have text : chars false (.pair (.symbol name) (.pair item .nil)) =
      mark.toList ++ item.chars false := chars_abbreviated found
  rw [← text] at whole
  refine ⟨_, by simp, whole, ?_⟩
  intro k stack awaits
  simp only [List.map_append, List.map_map, Token.moved_comp_moved, List.map_cons, List.map_nil]
  refine .next (Move.feed_quotation awaits quotation stands) ?_
  exact parsed _ (.quotation name :: stack) trivial

theorem spelled_of_readsBack (d : Datum) (inList : Bool) (readsBack : d.readsBack inList = true) :
    d.Spelled inList := by
  match d, inList with
  | .atom a, false =>
    by_cases isNil : a = .nil
    · rw [isNil]
      exact spelled_nil
    · exact spelled_atom readsBack isNil
  | .atom a, true =>
    by_cases isNil : a = .nil
    · rw [isNil]
      exact spelled_nil_inList
    · have alone : (atom a).readsBack false = true := by
        cases a <;> exact readsBack
      exact spelled_atom_inList isNil (spelled_atom alone isNil)
  | .pair car cdr, true =>
    simp only [Datum.readsBack, Bool.and_eq_true] at readsBack
    exact spelled_pair_inList (spelled_of_readsBack car false readsBack.1.1)
      (spelled_of_readsBack cdr true readsBack.1.2)
  | .pair car cdr, false =>
    simp only [Datum.readsBack, Bool.and_eq_true, Bool.false_or, Bool.not_eq_true'] at readsBack
    obtain ⟨⟨head, tail⟩, noSplice⟩ := readsBack
    cases found : abbreviation? car cdr with
    | none =>
      exact spelled_list found (spelled_of_readsBack car false head)
        (spelled_of_readsBack cdr true tail)
    | some mark =>
      obtain ⟨name, item, rfl, rfl, found⟩ := abbreviation?_eq_some found
      simp only [Datum.readsBack, Bool.and_eq_true] at tail
      refine spelled_abbreviated found ?_ (spelled_of_readsBack item false tail.1.1)
      rintro rest rfl
      refine head_chars_ne_at ?_ tail.1.1
      rintro name rfl
      simpa [abbreviatesToSplice] using noSplice

end Datum

/-- The readable text of a value that can be read back is one form, the datum that the value stands
for. -/
theorem readAll_readable (s : Store) {v : Value} {d : Datum} (denotes : v.Denotes d)
    (readsBack : d.readsBack false = true) :
    ∃ text, s.readable none v = .ok text ∧ readAll none text.toList = .ok [d] := by
  refine ⟨_, s.readable_of_denotes denotes (Datum.hasText_of_readsBack readsBack), ?_⟩
  obtain ⟨tokens, -, cut, parsed⟩ := d.spelled_of_readsBack false readsBack
  have lexed : lex (d.chars false) = ⟨tokens, none⟩ := by
    have whole := cut [] trivial
    rw [List.append_nil] at whole
    rw [whole, lex_of_blank rfl]
    simp [Lexed.behind, Lexed.moved]
  have leads : Move.Leads [] tokens (.complete d) := by
    simpa [Move.fill] using parsed 0 [] trivial
  obtain ⟨stop, forms⟩ := leads.parseFormsFrom_eq none #[] 0 []
  rw [List.append_nil] at forms
  simp [readAll, parseForms, lexed, forms, parseFormsFrom, Lexed.exceeds]

theorem readAll_readable_nested :
    ∃ text,
      Store.empty.readable none
        (.pair 0 (.symbol "unquote") (.pair 1
          (.pair 2 (.atom (.char ' ')) (.pair 3 (.string "a\"\n") (.pair 4 (.symbol "unquote")
            (.pair 5 (.symbol "@x") (.atom (.int (-12))))))) .nil)) = .ok text ∧
      readAll none text.toList = .ok
        [.pair (.symbol "unquote") (.pair
          (.pair (.atom (.char ' ')) (.pair (.atom (.string "a\"\n")) (.pair (.symbol "unquote")
            (.pair (.symbol "@x") (.atom (.int (-12))))))) .nil)] := by
  refine readAll_readable _ ?_ ?_
  · repeat' constructor
  · decide +kernel

end LazyLisp
