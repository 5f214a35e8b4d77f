import LazyLisp.Proofs.OutlinePlaces
import LazyLisp.Proofs.Printing

/-!
What reading can fail with.

The body of a string literal is a row of pieces, characters that stand for themselves and escapes.
It is decoded piece by piece up to the first escape that means nothing, and this is the only way in
which decoding fails. The other tables are asked only for what the lexer lets through. So a text
that cannot be read has an error in it, and nothing else goes wrong.
-/

namespace LazyLisp

inductive Piece where
  | plain (c : Char)
  /-- A backslash and the character behind it. -/
  | escape (c : Char)

namespace Piece

def meaning? : Char → Option Char
  | 'n' => some '\n'
  | 't' => some '\t'
  | 'r' => some '\r'
  | '0' => some '\x00'
  | '\\' => some '\\'
  | '"' => some '"'
  | _ => none

theorem lookup_stringEscapes (c : Char) : Atom.stringEscapes.lookup c = meaning? c := by
  unfold meaning?
  split
  case h_7 n t r zero backslash quote =>
    simpa [Atom.stringEscapes, List.lookup_eq_none_iff] using ⟨n, t, r, zero, backslash, quote⟩
  all_goals rfl

def char? : Piece → Option Char
  | plain c => some c
  | escape c => meaning? c

def chars : Piece → List Char
  | plain c => [c]
  | escape c => ['\\', c]

def IsSolid : Piece → Prop
  | plain c => c ≠ '\\'
  | escape _ => True

theorem unescapeFrom_append {ps : List Piece} (solid : ∀ p ∈ ps, p.IsSolid)
    (known : ∀ p ∈ ps, p.char? ≠ none) (soFar : List Char) (pos : Nat) (rest : List Char) :
    Atom.unescapeFrom soFar pos (ps.flatMap chars ++ rest) =
      Atom.unescapeFrom ((ps.filterMap char?).reverse ++ soFar) (pos + (ps.flatMap chars).length)
        rest := by
  induction ps generalizing soFar pos with
  | nil => rfl
  | cons p ps ih =>
    have later := ih (fun q member => solid q (List.mem_cons_of_mem p member))
      (fun q member => known q (List.mem_cons_of_mem p member))
    have first := solid p List.mem_cons_self
    cases p with
    | plain c =>
      have noBackslash : c ≠ '\\' := first
      have spelled : (plain c :: ps).flatMap chars = c :: ps.flatMap chars := rfl
      have width : pos + (c :: ps.flatMap chars).length = pos + 1 + (ps.flatMap chars).length := by
        rw [List.length_cons]
        omega
      rw [spelled, width, List.cons_append]
      simp [Atom.unescapeFrom, noBackslash, later, char?]
    | escape c =>
      obtain ⟨d, means⟩ := Option.ne_none_iff_exists'.mp (known (escape c) List.mem_cons_self)
      have found : Atom.stringEscapes.lookup c = some d := by
        rw [lookup_stringEscapes]
        exact means
      have spelled : (escape c :: ps).flatMap chars = '\\' :: c :: ps.flatMap chars := rfl
      have width : pos + ('\\' :: c :: ps.flatMap chars).length =
          pos + 2 + (ps.flatMap chars).length := by
        rw [List.length_cons, List.length_cons]
        omega
      rw [spelled, width, List.cons_append, List.cons_append]
      simp [Atom.unescapeFrom, found, later, means]

theorem known_or_first (ps : List Piece) : (∀ c, escape c ∈ ps → meaning? c ≠ none) ∨
    ∃ front c back, ps = front ++ escape c :: back ∧
      (∀ d, escape d ∈ front → meaning? d ≠ none) ∧ meaning? c = none := by
  induction ps with
  | nil => exact .inl (by simp)
  | cons p ps ih =>
    by_cases means : ∀ c, p = escape c → meaning? c ≠ none
    · have all {qs : List Piece} (known : ∀ c, escape c ∈ qs → meaning? c ≠ none) (c : Char)
          (member : escape c ∈ p :: qs) : meaning? c ≠ none := by
        rcases List.mem_cons.mp member with here | later
        · exact means c here.symm
        · exact known c later
      rcases ih with known | ⟨front, c, back, rfl, known, unknown⟩
      · exact .inl (all known)
      · exact .inr ⟨p :: front, c, back, rfl, all known, unknown⟩
    · obtain ⟨c, meaningless⟩ := not_forall.mp means
      obtain ⟨rfl, unknown⟩ := Classical.not_imp.mp meaningless
      exact .inr ⟨[], c, ps, rfl, by simp, not_not.mp unknown⟩

def quoted (ps : List Piece) : List Char := '"' :: (ps.flatMap chars ++ ['"'])

section Quoted

variable {ps : List Piece}

theorem unescape_quoted (ps : List Piece) (offset : Nat) :
    Atom.unescape (quoted ps) offset =
      String.ofList <$> Atom.unescapeFrom [] offset (ps.flatMap chars) := by
  rw [Atom.unescape, quoted, List.drop_one, List.tail_cons, List.dropLast_concat]

theorem known_iff : (∀ p ∈ ps, p.char? ≠ none) ↔
    ∀ c, escape c ∈ ps → meaning? c ≠ none := by
  constructor
  · exact fun known c member => known (.escape c) member
  · intro known p member
    cases p with
    | plain c => simp [char?]
    | escape c => exact known c member

theorem unescape_of_known (solid : ∀ p ∈ ps, p.IsSolid)
    (known : ∀ c, escape c ∈ ps → meaning? c ≠ none) (offset : Nat) :
    Atom.unescape (quoted ps) offset = .ok (String.ofList (ps.filterMap char?)) := by
  have passed := unescapeFrom_append solid (known_iff.mpr known) [] offset []
  rw [List.append_nil, List.append_nil] at passed
  rw [unescape_quoted, passed]
  simp [Atom.unescapeFrom, Functor.map, Except.map]

/-- The complaint is about the place of the escape, behind the quote and the pieces in front. -/
theorem unescape_of_unknown (solid : ∀ p ∈ ps, p.IsSolid) {front : List Piece} {c : Char}
    {back : List Piece} (cut : ps = front ++ escape c :: back)
    (known : ∀ d, escape d ∈ front → meaning? d ≠ none) (unknown : meaning? c = none)
    (offset : Nat) : Atom.unescape (quoted ps) offset =
      .error (.error ⟨.unknownEscape c, offset + 1 + (front.flatMap chars).length⟩) := by
  have solidFront : ∀ p ∈ front, p.IsSolid := fun p member => solid p (by simp [cut, member])
  have missing : Atom.stringEscapes.lookup c = none := by rw [lookup_stringEscapes, unknown]
  have spelled : ps.flatMap chars = front.flatMap chars ++ '\\' :: c :: back.flatMap chars := by
    rw [cut, List.flatMap_append]
    rfl
  have place : offset + (front.flatMap chars).length + 1 =
      offset + 1 + (front.flatMap chars).length := Nat.add_right_comm ..
  rw [unescape_quoted, spelled, unescapeFrom_append solidFront (known_iff.mpr known),
    Atom.unescapeFrom, missing, place]
  rfl

end Quoted

end Piece

/-- A string literal is taken apart into the pieces between its quotes. Decoding fails exactly if
one of the escapes means nothing, and then at the first such; otherwise the text has the characters
that the pieces denote. -/
structure Decodes (literal : List Char) (ps : List Piece) : Prop where
  spelled : literal = Piece.quoted ps
  solid : ∀ p ∈ ps, p.IsSolid
  fails : ∀ offset, (∃ f, Atom.unescape literal offset = .error f) ↔
    ∃ c, Piece.escape c ∈ ps ∧ Piece.meaning? c = none
  first : ∀ offset front c back, ps = front ++ .escape c :: back →
    (∀ d, Piece.escape d ∈ front → Piece.meaning? d ≠ none) → Piece.meaning? c = none →
      Atom.unescape literal offset =
        .error (.error ⟨.unknownEscape c, offset + 1 + (front.flatMap Piece.chars).length⟩)
  decoded : ∀ offset, (∀ c, Piece.escape c ∈ ps → Piece.meaning? c ≠ none) →
    Atom.unescape literal offset = .ok (String.ofList (ps.filterMap Piece.char?))

section Decodes

variable {literal : List Char} {ps : List Piece}

theorem decodes_of_solid (solid : ∀ p ∈ ps, p.IsSolid) : Decodes (Piece.quoted ps) ps := by
  constructor
  · rfl
  · exact solid
  · intro offset
    rcases Piece.known_or_first ps with known | ⟨front, c, back, cut, known, unknown⟩
    · rw [Piece.unescape_of_known solid known]
      constructor
      · rintro ⟨f, failed⟩
        cases failed
      · rintro ⟨c, member, unknown⟩
        exact absurd unknown (known c member)
    · rw [Piece.unescape_of_unknown solid cut known unknown]
      exact ⟨fun _ => ⟨c, by simp [cut], unknown⟩, fun _ => ⟨_, rfl⟩⟩
  · intro offset front c back cut known unknown
    exact Piece.unescape_of_unknown solid cut known unknown offset
  · exact fun offset known => Piece.unescape_of_known solid known offset

theorem Decodes.ne_breakdown (decodes : Decodes literal ps) (offset : Nat) (b : Breakdown) :
    Atom.unescape literal offset ≠ .error (.breakdown b) := by
  rcases Piece.known_or_first ps with known | ⟨front, c, back, cut, known, unknown⟩
  · simp [decodes.decoded offset known]
  · simp [decodes.first offset front c back cut known unknown]

end Decodes

namespace Lexeme

variable {chars text rest : List Char}

theorem exists_pieces_of_closed {soFar : List Char}
    (found : stringBody soFar chars = .closed text rest) :
    ∃ ps : List Piece, text = soFar.reverse ++ (ps.flatMap Piece.chars ++ ['"']) ∧
      ∀ p ∈ ps, p.IsSolid := by
  fun_induction stringBody soFar chars with
  | case1 => cases found
  | case2 soFar rest =>
    cases found
    exact ⟨[], by simp, by simp⟩
  | case3 => cases found
  | case4 soFar c rest ih =>
    obtain ⟨ps, rfl, solid⟩ := ih found
    refine ⟨.escape c :: ps, by simp [Piece.chars], List.forall_mem_cons.mpr ⟨trivial, solid⟩⟩
  | case5 soFar c rest _ noStray noEscape ih =>
    obtain ⟨ps, rfl, solid⟩ := ih found
    have noBackslash : c ≠ '\\' := by
      intro backslash
      cases rest with
      | nil => exact noStray backslash rfl
      | cons d rest => exact noEscape d rest backslash rfl
    exact ⟨.plain c :: ps, by simp [Piece.chars], List.forall_mem_cons.mpr ⟨noBackslash, solid⟩⟩

theorem exists_pieces_of_next (found : next chars = .token .string text rest) :
    ∃ ps : List Piece, text = Piece.quoted ps ∧ ∀ p ∈ ps, p.IsSolid := by
  unfold next at found
  split at found <;> (try split at found) <;>
    simp only [token.injEq, reduceCtorEq, false_and] at found
  next closed =>
    obtain ⟨-, rfl, rfl⟩ := found
    exact exists_pieces_of_closed closed

end Lexeme

namespace Token

variable {t : Token}

theorem IsLexical.exists_decodes (lexical : t.IsLexical) (kind : t.kind = .string) :
    ∃ ps, Decodes t.text.toList ps := by
  obtain ⟨chars, rest, found⟩ := lexical.exists_next
  obtain ⟨ps, spelled, solid⟩ := Lexeme.exists_pieces_of_next (kind ▸ found)
  exact ⟨ps, spelled ▸ decodes_of_solid solid⟩

/-- Whatever the reader asks of a token has an answer: its quotation mark stands for a symbol, its
character literal for a character and its word for an atom, and neither decoding its text nor a move
of the parser breaks down. -/
structure Answers (t : Token) : Prop where
  quotation : t.kind.isQuotation = true → ∃ head, OpenForm.quotationHead? t.text = some head
  char : t.kind = .char → ∃ a, Atom.ofCharLiteral t.text.toList = .ok a
  word : t.kind = .word → ∃ a, Atom.ofWord t.text.toList = .ok a
  string : t.kind = .string → ∀ offset b, Atom.unescape t.text.toList offset ≠ .error (.breakdown b)
  known : ∀ name, t.kind ≠ .other name
  taken : ∀ stack b, Move.feed stack t ≠ .error (.breakdown b)

theorem IsProper.answers (proper : t.IsProper) : t.Answers where
  quotation := proper.lexical.exists_head
  char := proper.lexical.exists_char
  word := proper.exists_word
  string kind offset b := by
    obtain ⟨ps, decodes⟩ := proper.lexical.exists_decodes kind
    exact decodes.ne_breakdown offset b
  known := proper.lexical.kind_ne_other
  taken stack b broken := by
    obtain ⟨kind, failed⟩ := Move.breakdown_of_feed proper.lexical broken
    obtain ⟨a, denotes⟩ := proper.exists_word kind
    cases denotes.symm.trans failed

end Token

/-- A limit for nesting makes reading break down, or it makes no difference. -/
theorem readAll_limit (limit : Option Nat) (text : List Char) :
    (∃ most ∈ limit, most < nesting (lex text).tokens ∧
      readAll limit text = .error (.breakdown .nestedTooDeep)) ∨
        readAll limit text = readAll none text := by
  cases deep : (lex text).exceeds limit (parseForms (lex text)).stop with
  | true =>
    obtain ⟨most, limited, beyond⟩ := Input.exists_of_exceeds deep
    exact .inl ⟨most, limited, beyond, by simp [readAll, deep]⟩
  | false => exact .inr (by simp [readAll, deep, Input.exceeds_none])

/-- A text whose integers are not too long is read, or there is an error in it, or it nests deeper
than the limit, if there is one; and every question about one of its tokens has an answer. In any
text, a string literal is decoded up to the first escape that means nothing; and the readable form
of a string is decoded to this string. -/
theorem readAll_fails_with_errors (text : List Char) :
    ((∀ t ∈ (lex text).tokens, t.kind = .word → ∀ integer ∈ Atom.integer? t.text.toList,
        integer.2.length ≤ maxDigits) →
      (∀ limit, (∃ ds, readAll limit text = .ok ds) ∨
        (∃ e, readAll limit text = .error (.error e)) ∨
        ∃ most ∈ limit, most < nesting (lex text).tokens ∧
          readAll limit text = .error (.breakdown .nestedTooDeep)) ∧
      ∀ t ∈ (lex text).tokens, t.Answers) ∧
    (∀ t ∈ (lex text).tokens, t.kind = .string → ∃ ps, Decodes t.text.toList ps) ∧
    ∀ (s : Store) (room : Option Nat) (string : String), ∃ literal,
      s.readable room (.string string) = .ok literal ∧
        ∀ offset, Atom.unescape literal.toList offset = .ok string := by
  refine ⟨?_, ?_, ?_⟩
  · intro short
    have manageable : Manageable none text :=
      ⟨fun t member => ⟨Token.isLexical_of_mem_lex member,
        fun _ _ kind integer => short t member kind _ integer⟩, nofun⟩
    refine ⟨?_, fun t member => (manageable.proper t member).answers⟩
    intro limit
    rcases readAll_limit limit text with deep | same
    · exact .inr (.inr deep)
    · rw [same]
      cases read : readAll none text with
      | ok ds => exact .inl ⟨ds, rfl⟩
      | error f =>
        obtain ⟨e, rfl, -⟩ := manageable.concerns_of_readAll read
        exact .inr (.inl ⟨e, rfl⟩)
  · exact fun t member kind => (Token.isLexical_of_mem_lex member).exists_decodes kind
  · intro s room string
    exact ⟨Atom.readableText string, rfl, Atom.unescape_readableText string⟩

/-- A text with every kind of token. The second string in it has an escape that means nothing. -/
def mixedText : List Char := "(a . #\\)) '-12 `(,b ,@c) \"x\\ty\" #\\space \"p\\nq\\zr\"".toList

theorem readAll_fails_with_errors_mixedText :
    (∀ t ∈ (lex mixedText).tokens, t.kind = .word → ∀ integer ∈ Atom.integer? t.text.toList,
      integer.2.length ≤ maxDigits) ∧
    readAll none mixedText = .error (.error ⟨.unknownEscape 'z', 45⟩) ∧
    (∀ t ∈ (lex mixedText).tokens, t.Answers) ∧
    ∃ t ∈ (lex mixedText).tokens, t.kind = .string ∧ t.text = "\"p\\nq\\zr\"" ∧ t.start = 40 ∧
      ∃ ps, Decodes t.text.toList ps := by
  obtain ⟨reads, decodes, -⟩ := readAll_fails_with_errors mixedText
  have short : ∀ t ∈ (lex mixedText).tokens, t.kind = .word →
      ∀ integer ∈ Atom.integer? t.text.toList, integer.2.length ≤ maxDigits := by decide +kernel
  have failure : (match readAll none mixedText with
      | .ok _ => none
      | .error f => some f) = some (.error ⟨.unknownEscape 'z', 45⟩) := by decide +kernel
  obtain ⟨t, member, kind, spelled, place⟩ : ∃ t ∈ (lex mixedText).tokens,
      t.kind = .string ∧ t.text = "\"p\\nq\\zr\"" ∧ t.start = 40 := by decide +kernel
  obtain ⟨outcome, answers⟩ := reads short
  refine ⟨short, ?_, answers, t, member, kind, spelled, place, decodes t member kind⟩
  rcases outcome none with ⟨ds, read⟩ | ⟨e, failed⟩ | ⟨most, unlimited, -, -⟩
  · simp [read] at failure
  · simpa [failed] using failure
  · cases unlimited

end LazyLisp
