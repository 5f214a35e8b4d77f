import LazyLisp.Proofs.Positions

/-!
What the places in an outline stand for.

Every text has an outline, be it complete or not and whether or not the lexer gets through it, unless
the reader itself cannot cope with it. The place of a definition is where its name stands, and the
name belongs to the last pattern that defines it. There is a problem if and only if the text cannot be
read, and then its place is that of the read error.
-/

namespace LazyLisp

/-- A text that the reader copes with: no integer has too many digits, and what nests stays within the
limit. -/
structure Manageable (limit : Option Nat) (text : List Char) : Prop where
  proper : ∀ t ∈ (lex text).tokens, t.IsProper
  fits : ∀ most ∈ limit, nesting (lex text).tokens ≤ most

section Manageable

variable {limit : Option Nat} {text : List Char}

/-- Whether a text is manageable without a limit can be computed. -/
theorem Manageable.of_digits
    (short : ∀ t ∈ (lex text).tokens, ∀ integer ∈ Atom.integer? t.text.toList,
      integer.2.length ≤ maxDigits) : Manageable none text where
  proper t member :=
    ⟨Token.isLexical_of_mem_lex member, fun _ _ _ integer => short t member _ integer⟩
  fits _ limited := nomatch limited

theorem Manageable.exceeds_eq_false (manageable : Manageable limit text) (stop : Nat) :
    (lex text).exceeds limit stop = false := by
  by_contra deep
  rw [Bool.not_eq_false] at deep
  obtain ⟨most, limited, beyond⟩ := Input.exists_of_exceeds deep
  exact absurd (manageable.fits most limited) (Nat.not_le_of_lt beyond)

/-- A text that cannot be read has an error in it. -/
theorem Manageable.concerns_of_readAll (manageable : Manageable limit text) {f : ReadFailure}
    (failed : readAll limit text = .error f) : ∃ e, f = .error e ∧ e.Concerns text := by
  rcases Move.reads_or_fails [] (lex text).tokens with ⟨ds, last, reads⟩ |
      ⟨front, t, back, ds, middle, g, cut, reads, fails⟩
  · rw [readAll_of_reads reads, manageable.exceeds_eq_false] at failed
    cases lexed : (lex text).failure with
    | some e =>
      obtain rfl : .error e = f := by simpa [lexed] using failed
      exact ⟨e, rfl, (startsAt_lex lexed).concerns⟩
    | none =>
      cases last with
      | nil => simp [lexed] at failed
      | cons opened below =>
        obtain rfl : .error (Move.missing (opened :: below) (lastStop 0 (lex text).tokens)) = f := by
          simpa [lexed] using failed
        exact ⟨_, rfl, concerns_missing reads⟩
  · rw [readAll_of_fails cut reads fails, manageable.exceeds_eq_false] at failed
    obtain rfl : g = f := by simpa using failed
    have member : t ∈ (lex text).tokens := by simp [cut]
    have lexical := Token.isLexical_of_mem_lex member
    cases g with
    | error e => exact ⟨e, rfl, (Token.causes_of_feed lexical fails).concerns member⟩
    | breakdown b =>
      obtain ⟨kind, improper⟩ := Move.breakdown_of_feed lexical fails
      obtain ⟨a, denotes⟩ := (manageable.proper t member).exists_word kind
      cases denotes.symm.trans improper

end Manageable

theorem Token.unescape_ne_breakdown {t : Token} (lexical : t.IsLexical) (kind : t.kind = .string)
    (b : Breakdown) : Atom.unescape t.text.toList t.start ≠ .error (.breakdown b) := by
  obtain ⟨body, spelled, decodes⟩ := lexical.exists_body kind
  intro broken
  rw [unescape_of_spelled spelled] at broken
  cases decoded : Atom.unescapeFrom [] t.start body with
  | ok text => simp [decoded, Functor.map, Except.map] at broken
  | error f =>
    rw [decoded] at broken
    cases broken
    exact decodes [] t.start b decoded

namespace Outline

/-- The definitions of an outline stand where it says, each made last of its name, and none is
missing. There is a problem, at the place of the read error, if and only if the text cannot be read;
no string literal that may be documentation makes decoding break down. -/
structure Locates (limit : Option Nat) (text : List Char) (o : Outline) : Prop where
  names : (o.definitions.map (·.name)).Nodup
  complete : ∀ i t, Begins ((lex text).tokens.drop i) t → ∃ d ∈ o.definitions, d.name = t.text
  located : ∀ d ∈ o.definitions, ∃ i t, MadeAt (lex text).tokens d.name i t ∧
    d.place.offset? text = some t.start ∧
      text.extract t.start (t.start + d.name.length) = d.name.toList
  sound : o.problems = [] ↔ ∃ ds, readAll limit text = .ok ds
  objection : ∀ f, readAll limit text = .error f → ∃ e p, f = .error e ∧ o.problems = [p] ∧
    p.message = e.issue.message ∧ p.place.offset? text = some e.offset
  decodes : ∀ t ∈ (lex text).tokens, t.kind = .string →
    ∀ b, Atom.unescape t.text.toList t.start ≠ .error (.breakdown b)

section OfText

variable {limit : Option Nat} {text : List Char}

/-- A definition has the place and the spelling of the name that made it. -/
theorem spelled_of_mem {d : Definition} (member : d ∈ definitionsOf text) :
    ∃ i t, MadeAt (lex text).tokens d.name i t ∧ d.place = .ofOffset text t.start ∧
      t.start + d.name.length ≤ text.length ∧
      text.extract t.start (t.start + d.name.length) = d.name.toList := by
  obtain ⟨i, t, made, place⟩ := exists_madeAt member
  have among : t ∈ (lex text).tokens := List.mem_of_mem_drop made.begins.mem
  obtain ⟨front, back, cut⟩ := List.append_of_mem among
  have tiles := tiles_lex text
  obtain ⟨-, within, spelled⟩ := tiles.spelled among
  rw [cut] at tiles
  obtain ⟨-, -, -, -, -, -, stops, -, -⟩ := tiles.exists_tile
  rw [made.named, String.length_toList] at stops
  refine ⟨i, t, made, place, by omega, ?_⟩
  rw [← stops, ← spelled, made.named]

theorem problemsOf_eq (manageable : Manageable limit text) :
    (∃ ds, readAll limit text = .ok ds ∧ problemsOf limit text = .ok []) ∨
      ∃ e, readAll limit text = .error (.error e) ∧ e.offset ≤ text.length ∧
        problemsOf limit text = .ok [⟨e.issue.message, .ofOffset text e.offset⟩] := by
  cases read : readAll limit text with
  | ok ds => exact .inl ⟨ds, rfl, by rw [problemsOf, read]⟩
  | error f =>
    obtain ⟨e, rfl, concerns⟩ := manageable.concerns_of_readAll read
    exact .inr ⟨e, rfl, concerns.placed.within, by rw [problemsOf, read]⟩

theorem exists_ofText (manageable : Manageable limit text) :
    ∃ ps, problemsOf limit text = .ok ps ∧ ofText limit text = .ok ⟨definitionsOf text, ps⟩ := by
  rcases problemsOf_eq manageable with ⟨ds, -, none⟩ | ⟨e, -, -, one⟩
  · exact ⟨_, none, by rw [ofText, none]; rfl⟩
  · exact ⟨_, one, by rw [ofText, one]; rfl⟩

/-- Every text has an outline, and what it says about places is right. -/
theorem ofText_locates (manageable : Manageable limit text) :
    ∃ o, ofText limit text = .ok o ∧ o.Locates limit text := by
  obtain ⟨ps, problems, outline⟩ := exists_ofText manageable
  refine ⟨_, outline, ?_⟩
  constructor
  · exact nodup_definitionsOf text
  · exact fun i t begins => exists_definition_of_begins begins
  · intro d member
    obtain ⟨i, t, made, place, within, spelled⟩ := spelled_of_mem member
    refine ⟨i, t, made, ?_, spelled⟩
    rw [place]
    exact Position.offset?_ofOffset (by omega)
  · rcases problemsOf_eq manageable with ⟨ds, read, none⟩ | ⟨e, read, -, one⟩
    · obtain rfl := Except.ok.inj (problems.symm.trans none)
      simp [read]
    · obtain rfl := Except.ok.inj (problems.symm.trans one)
      simp [read]
  · intro f failed
    rcases problemsOf_eq manageable with ⟨ds, read, -⟩ | ⟨e, read, within, one⟩
    · cases failed.symm.trans read
    · cases failed.symm.trans read
      obtain rfl := Except.ok.inj (problems.symm.trans one)
      exact ⟨e, _, rfl, rfl, rfl, Position.offset?_ofOffset within⟩
  · exact fun t member kind => Token.unescape_ne_breakdown (Token.isLexical_of_mem_lex member) kind

def unfinishedBuffer : List Char := "(define x\n  1)\n(define (f a) \"twice\" (define x".toList

theorem ofText_locates_unfinishedBuffer :
    Manageable none unfinishedBuffer ∧
      ∃ o, ofText none unfinishedBuffer = .ok o ∧ o.Locates none unfinishedBuffer ∧
        o.definitions = [⟨"x", .value, ⟨2, 30⟩, none⟩, ⟨"f", .function, ⟨2, 9⟩, some "twice"⟩] ∧
        o.problems = [⟨"unmatched '('", ⟨2, 22⟩⟩] := by
  have manageable : Manageable none unfinishedBuffer := .of_digits (by decide +kernel)
  obtain ⟨o, outline, locates⟩ := ofText_locates manageable
  have computed : ofText none unfinishedBuffer =
      .ok ⟨[⟨"x", .value, ⟨2, 30⟩, none⟩, ⟨"f", .function, ⟨2, 9⟩, some "twice"⟩],
        [⟨"unmatched '('", ⟨2, 22⟩⟩]⟩ := by decide +kernel
  cases outline.symm.trans computed
  exact ⟨manageable, _, outline, locates, rfl, rfl⟩

end OfText

end Outline

end LazyLisp
