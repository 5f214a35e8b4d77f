import LazyLisp.Proofs.UnambiguousText

/-!
The tokens of printed data.

A datum is printed as a row of tokens that follows its shape: an atom is one token, a list stands
between parentheses, an abbreviated quotation is a mark in front of its form. Which tokens these are
does not depend on what stands behind the datum. Doubles are words here too, whether or not they read
back.
-/

namespace LazyLisp

namespace Token

def IsOpen (t : Token) : Prop := t.kind = .leftParen ∧ t.text = "("

def IsClose (t : Token) : Prop := t.kind = .rightParen ∧ t.text = ")"

def kindOf : Atom → Token.Kind
  | .string _ => .string
  | .char _ => .char
  | _ => .word

def Writes (t : Token) (a : Atom) : Prop := t.kind = kindOf a ∧ t.text = a.write true

section Inside

variable {t : Token}

theorem Writes.inside {a : Atom} (writes : t.Writes a) :
    t.kind ≠ .leftParen ∧ t.kind ≠ .rightParen := by
  rw [writes.1]
  cases a <;> simp [kindOf]

theorem inside_of_isQuotation (marks : t.kind.isQuotation = true) :
    t.kind ≠ .leftParen ∧ t.kind ≠ .rightParen := by
  constructor <;> intro kind <;> simp [kind, Kind.isQuotation] at marks

theorem inside_of_isDot (isDot : t.isDot = true) :
    t.kind ≠ .leftParen ∧ t.kind ≠ .rightParen := by
  simp [kind_of_isDot isDot]

end Inside

end Token

/-- The datum is printed as these tokens: by itself, or as the rest of a list of which items have been
written. -/
inductive Datum.Row : (inList : Bool) → Datum → List Token → Prop where
  | nil {opening closing} : opening.IsOpen → closing.IsClose → Row false .nil [opening, closing]
  | atom {a t} : a ≠ .nil → t.Writes a → Row false (.atom a) [t]
  | quotation {name item mark ts} : mark.kind.isQuotation = true →
      OpenForm.quotationHead? mark.text = some name → Row false item ts →
      Row false (.pair (.symbol name) (.pair item .nil)) (mark :: ts)
  | list {car cdr opening ts us} : abbreviation? car cdr = none → opening.IsOpen → Row false car ts →
      Row true cdr us → Row false (.pair car cdr) (opening :: (ts ++ us))
  | close {closing} : closing.IsClose → Row true .nil [closing]
  | dotted {a dot t closing} : a ≠ .nil → dot.isDot = true → t.Writes a → closing.IsClose →
      Row true (.atom a) [dot, t, closing]
  | item {car cdr ts us} : Row false car ts → Row true cdr us → Row true (.pair car cdr) (ts ++ us)

namespace Datum.Row

variable {inList : Bool} {d : Datum} {ts : List Token}

theorem moved (row : d.Row inList ts) (k : Nat) : d.Row inList (ts.map (Token.moved k)) := by
  induction row with
  | nil opens closes => exact .nil opens closes
  | atom notNil writes => exact .atom notNil writes
  | quotation marks stands _ ih => exact .quotation marks stands ih
  | list plain opens _ _ head tail =>
    rw [List.map_cons, List.map_append]
    exact .list plain opens head tail
  | close closes => exact .close closes
  | dotted notNil isDot writes closes => exact .dotted notNil isDot writes closes
  | item _ _ head tail =>
    rw [List.map_append]
    exact .item head tail

end Datum.Row

def isNumeralChar (c : Char) : Bool := c.isDigit || ".+-enaif".toList.contains c

theorem isNumeralChar_of_isDigit {c : Char} (digit : c.isDigit = true) : isNumeralChar c = true := by
  rw [isNumeralChar, digit, Bool.true_or]

theorem isNumeralChar_of_mem_toDigits (n : Nat) : ∀ c ∈ Nat.toDigits 10 n, isNumeralChar c = true :=
  fun _ member =>
    isNumeralChar_of_isDigit (Nat.isDigit_of_mem_toDigits (by decide) (by decide) member)

namespace Decimal

theorem isNumeralChar_of_mem_searchShortest (m : Magnitude) (point : Int) (width more : Nat) :
    ∀ c ∈ (searchShortest m point width more).digits, isNumeralChar c = true := by
  fun_induction searchShortest m point width more with
  | case1 width more place found count =>
    intro c member
    have kept := (List.dropWhile_sublist _).mem (List.mem_reverse.mp member)
    exact isNumeralChar_of_mem_toDigits count c (List.mem_reverse.mp kept)
  | case2 width more place found none ih => exact ih
  | case3 width place found none => exact isNumeralChar_of_mem_toDigits m.significand

theorem isNumeralChar_of_mem_zeros (n : Int) : ∀ c ∈ zeros n, isNumeralChar c = true := by
  intro c member
  rw [(List.mem_replicate.mp member).2]
  rfl

section Body

variable {s : Shortest} (digits : ∀ c ∈ s.digits, isNumeralChar c = true)

include digits

theorem isNumeralChar_of_mem_positional : ∀ c ∈ positional s, isNumeralChar c = true := by
  have zeros := isNumeralChar_of_mem_zeros
  dsimp only [positional]
  split
  · simp only [List.forall_mem_append, List.forall_mem_cons]
    exact ⟨⟨rfl, rfl, zeros _⟩, digits⟩
  · split
    · simp only [List.forall_mem_append, List.forall_mem_cons]
      exact ⟨⟨digits, zeros _⟩, rfl, rfl, by simp⟩
    · simp only [List.forall_mem_append, List.forall_mem_cons]
      exact ⟨fun c member => digits c (List.mem_of_mem_take member), rfl,
        fun c member => digits c (List.mem_of_mem_drop member)⟩

theorem isNumeralChar_of_mem_exponential : ∀ c ∈ exponential s, isNumeralChar c = true := by
  have exponent := isNumeralChar_of_mem_toDigits (s.point - 1).natAbs
  simp only [exponential, List.forall_mem_append, List.forall_mem_cons]
  refine ⟨⟨fun c member => digits c (List.mem_of_mem_take member), ?_⟩, rfl, ?_, ?_⟩
  · split
    · simp
    · simp only [List.forall_mem_cons]
      exact ⟨rfl, fun c member => digits c (List.mem_of_mem_drop member)⟩
  · split <;> rfl
  · split
    · simp only [List.forall_mem_cons]
      exact ⟨rfl, exponent⟩
    · exact exponent

end Body

/-- Doubles are written with the characters of numbers. -/
theorem isNumeralChar_of_mem_render (x : Float) : ∀ c ∈ (render x).toList, isNumeralChar c = true := by
  have sign (negative : Bool) : ∀ c ∈ (if negative then ['-'] else []), isNumeralChar c = true :=
    List.all_eq_true.mp (by cases negative <;> rfl)
  have digits := isNumeralChar_of_mem_searchShortest (magnitude x) (decimalPoint (magnitude x)) 1 16
  unfold render
  split
  · exact List.all_eq_true.mp (by decide)
  · dsimp only
    split
    · rw [String.toList_ofList, List.forall_mem_append]
      exact ⟨sign _, List.all_eq_true.mp (by decide)⟩
    · split
      · rw [String.toList_ofList, List.forall_mem_append]
        exact ⟨sign _, List.all_eq_true.mp (by decide)⟩
      · rw [String.toList_ofList, List.forall_mem_append]
        refine ⟨sign _, ?_⟩
        split
        · exact isNumeralChar_of_mem_positional digits
        · exact isNumeralChar_of_mem_exponential digits

theorem one_lt_length_positional (s : Shortest) : 1 < (positional s).length := by
  dsimp only [positional]
  split
  · simp
  · split
    all_goals
      simp only [List.length_append, List.length_take, List.length_cons, List.length_nil]
      omega

theorem one_lt_length_exponential (s : Shortest) : 1 < (exponential s).length := by
  simp only [exponential, List.length_append, List.length_cons]
  omega

theorem one_lt_length_render (x : Float) : 1 < (render x).toList.length := by
  have behind (sign : List Char) {body : List Char} (long : 1 < body.length) :
      1 < (String.ofList (sign ++ body)).toList.length := by
    rw [String.toList_ofList, List.length_append]
    omega
  unfold render
  split
  · decide
  · dsimp only
    split
    · exact behind _ (by decide)
    · split
      · exact behind _ (by decide)
      · refine behind _ ?_
        split
        · exact one_lt_length_positional _
        · exact one_lt_length_exponential _

theorem render_ne_nil (x : Float) : (render x).toList ≠ [] :=
  List.ne_nil_of_length_pos (Nat.zero_lt_of_lt (one_lt_length_render x))

end Decimal

theorem Lexeme.isWordChar_of_isNumeralChar {c : Char} (numeral : isNumeralChar c = true) :
    isWordChar c = true ∧ c ≠ '#' ∧ c ≠ '@' := by
  simp only [isNumeralChar, Bool.or_eq_true, List.contains_iff_mem] at numeral
  rcases numeral with digit | sign
  · refine ⟨isWordChar_of_isDigit digit, ?_, ?_⟩ <;> rintro rfl <;> cases digit
  · have signs : ".+-enaif".toList.all (fun c => isWordChar c && c != '#' && c != '@') = true := by
      decide
    simpa [and_assoc] using List.all_eq_true.mp signs c sign

theorem Lexeme.next_of_numeral {chars : List Char} (nonempty : chars ≠ [])
    (numeral : ∀ c ∈ chars, isNumeralChar c = true) : next chars = .token .word chars [] := by
  obtain ⟨c, more, rfl⟩ := List.exists_cons_of_ne_nil nonempty
  obtain ⟨word, noHash, -⟩ := isWordChar_of_isNumeralChar (numeral c List.mem_cons_self)
  have starts : StartsWord c more := by
    refine ⟨?_, fun _ hash => absurd hash noHash, fun _ _ hash => absurd hash noHash⟩
    simp only [isWordChar, Bool.and_eq_true, Bool.not_eq_true'] at word
    exact word.2
  have whole : ∀ d ∈ more, isWordChar d = true :=
    fun d member => (isWordChar_of_isNumeralChar (numeral d (List.mem_cons_of_mem c member))).1
  have boundary : AtBoundary [] := trivial
  have ends := takeWhile_isWordChar_append whole boundary
  rw [List.append_nil] at ends
  rw [next_of_startsWord starts, ends.1, ends.2]

namespace Atom

variable {a : Atom}

def IsCut (a : Atom) : Prop :=
  ∃ t : Token, t.Writes a ∧ Cuts Lexeme.AtBoundary (a.write true).toList [t]

theorem isCut_of_next {c : Char} {more : List Char} (text : (a.write true).toList = c :: more)
    (solid : Text.isBlank c = false)
    (found : ∀ rest, Lexeme.AtBoundary rest →
      Lexeme.next ((a.write true).toList ++ rest) =
        .token (Token.kindOf a) (a.write true).toList rest) : a.IsCut := by
  have spelling : String.ofList (c :: more) = a.write true := by
    rw [← text, String.ofList_toList]
  refine ⟨⟨Token.kindOf a, a.write true, 0, (c :: more).length⟩, ⟨rfl, rfl⟩, ?_⟩
  rw [text] at found ⊢
  rw [← spelling]
  exact Cuts.one solid found

theorem isCut_of_word (kind : Token.kindOf a = .word) (nonempty : (a.write true).toList ≠ [])
    (solid : (a.write true).toList.dropWhile Text.isBlank = (a.write true).toList)
    (alone : Lexeme.next (a.write true).toList = .token .word (a.write true).toList [])
    (noMark : a.write true ≠ "#\\") : a.IsCut := by
  obtain ⟨c, more, text⟩ := List.exists_cons_of_ne_nil nonempty
  have first : Text.isBlank c = false := by
    have noBlank := noBlank_head?_dropWhile (a.write true).toList
    rw [solid, text] at noBlank
    exact noBlank c rfl
  refine isCut_of_next text first fun rest boundary => ?_
  rw [kind]
  exact Lexeme.next_word_append alone (fun same => noMark (String.toList_inj.mp same)) boundary

theorem isCut_of_numeral (kind : Token.kindOf a = .word) (nonempty : (a.write true).toList ≠ [])
    (numeral : ∀ c ∈ (a.write true).toList, isNumeralChar c = true) : a.IsCut := by
  refine isCut_of_word kind nonempty ?_ (Lexeme.next_of_numeral nonempty numeral) ?_
  · obtain ⟨c, more, text⟩ := List.exists_cons_of_ne_nil nonempty
    rw [text] at numeral ⊢
    have word := (Lexeme.isWordChar_of_isNumeralChar (numeral c List.mem_cons_self)).1
    rw [List.dropWhile_cons_of_neg (by simp [Lexeme.isBlank_of_isWordChar word])]
  · intro mark
    rw [mark] at numeral
    exact absurd (numeral '#' (by decide)) (by decide)

theorem isNumeralChar_of_mem_int (n : Int) : ∀ c ∈ (toString n).toList, isNumeralChar c = true := by
  intro c member
  rcases Lexeme.mem_toString_int member with rfl | digit
  · rfl
  · exact isNumeralChar_of_isDigit digit

/-- Symbols that are words by themselves and all other atoms are cut into one token. -/
theorem isCut (notNil : a ≠ .nil)
    (word : ∀ name, a = .symbol name → isReaderSymbol name = true ∧ name ≠ "#\\") : a.IsCut := by
  cases a with
  | nil => exact absurd rfl notNil
  | int n => exact isCut_of_numeral rfl (Lexeme.toString_int_ne_nil n) (isNumeralChar_of_mem_int n)
  | float x =>
    exact isCut_of_numeral rfl (Decimal.render_ne_nil x) (Decimal.isNumeralChar_of_mem_render x)
  | symbol name =>
    obtain ⟨symbol, noMark⟩ := word name rfl
    obtain ⟨solid, alone⟩ := next_of_isReaderSymbol symbol
    refine isCut_of_word rfl ?_ solid alone noMark
    intro (empty : name.toList = [])
    simp [empty, Lexeme.next] at alone
  | string text =>
    have chars : ((string text).write true).toList =
        '"' :: (text.toList.flatMap escapeChar ++ ['"']) := by
      simp [write, readableText]
    exact isCut_of_next chars rfl fun rest _ => next_readableText text rest
  | char c =>
    have chars : ((char c).write true).toList = '#' :: '\\' :: (charName c).toList := by
      simp [write]
    refine isCut_of_next chars rfl fun rest boundary => ?_
    rw [chars]
    exact Lexeme.next_charName c boundary

end Atom

namespace Datum

def Words (d : Datum) : Prop := ∀ name ∈ d.symbols, isReaderSymbol name = true ∧ name ≠ "#\\"

theorem words_pair {car cdr : Datum} : (pair car cdr).Words ↔ car.Words ∧ cdr.Words :=
  List.forall_mem_append

theorem head_row_ne_at {item : Datum} {rest : List Char} (words : item.Words)
    (noSplice : ∀ name, item = .symbol name → name.toList.head? ≠ some '@') :
    (item.chars false ++ rest).head? ≠ some '@' := by
  have numeral {text : List Char} (nonempty : text ≠ [])
      (all : ∀ c ∈ text, isNumeralChar c = true) : (text ++ rest).head? ≠ some '@' := by
    obtain ⟨c, more, rfl⟩ := List.exists_cons_of_ne_nil nonempty
    simpa using (Lexeme.isWordChar_of_isNumeralChar (all c List.mem_cons_self)).2.2
  cases item with
  | atom a =>
    cases a with
    | nil => simp [chars, Atom.write]
    | int n => exact numeral (Lexeme.toString_int_ne_nil n) (Atom.isNumeralChar_of_mem_int n)
    | float x => exact numeral (Decimal.render_ne_nil x) (Decimal.isNumeralChar_of_mem_render x)
    | string text => simp [chars, Atom.write, Atom.readableText]
    | symbol name =>
      have alone := (next_of_isReaderSymbol (words name (by simp [symbols])).1).2
      cases text : name.toList with
      | nil => simp [text, Lexeme.next] at alone
      | cons c more => simpa [chars, Atom.write, text] using noSplice name rfl
    | char c => simp [chars, Atom.write]
  | pair car cdr =>
    cases found : abbreviation? car cdr with
    | none => simp [chars_list found]
    | some mark =>
      obtain ⟨name, item, rfl, rfl, named⟩ := abbreviation?_eq_some found
      rw [chars_abbreviated found]
      unfold Store.quotationMark? at named
      split at named <;> cases named <;> simp

theorem exists_row_quotation {name mark : String} {item : Datum} {ts : List Token}
    (found : Store.quotationMark? name = some mark)
    (noSplice : ∀ rest, name = "unquote" → (item.chars false ++ rest).head? ≠ some '@')
    (row : item.Row false ts) (cut : Cuts Lexeme.AtBoundary (item.chars false) ts) :
    ∃ us, (pair (.symbol name) (.pair item .nil)).Row false us ∧
      Cuts Lexeme.AtBoundary (chars false (.pair (.symbol name) (.pair item .nil))) us := by
  obtain ⟨t, marks, stands, cutMark⟩ := exists_mark found
  have text : chars false (.pair (.symbol name) (.pair item .nil)) =
      mark.toList ++ item.chars false := chars_abbreviated found
  have whole := cutMark.append cut fun rest _ => noSplice rest
  rw [← text] at whole
  exact ⟨_, .quotation marks stands (row.moved _), whole⟩

theorem exists_row_dotted {a : Atom} (notNil : a ≠ .nil) (cut : a.IsCut) :
    ∃ ts, (atom a).Row true ts ∧ Cuts Lexeme.AtBoundary (chars true (.atom a)) ts := by
  obtain ⟨t, writes, cut⟩ := cut
  have text : chars true (.atom a) = ' ' :: ['.'] ++ (' ' :: (a.write true).toList ++ [')']) := by
    cases a <;> simp_all [chars]
  have closed := (cut.spaced (by simp)).append (fun rest (_ : Lexeme.AtBoundary rest) =>
    Cuts.rightParen rest trivial) (fun _ _ => Or.inr rfl)
  have whole := (Cuts.dot.spaced (by simp)).append closed (fun _ _ => Or.inl rfl)
  rw [← text] at whole
  refine ⟨_, ?_, whole⟩
  exact .dotted notNil rfl writes ⟨rfl, rfl⟩

theorem exists_row_item {car cdr : Datum} {ts us : List Token} (head : car.Row false ts)
    (tail : cdr.Row true us) (nonempty : ts ≠ []) (cutHead : Cuts Lexeme.AtBoundary (car.chars false) ts)
    (cutTail : Cuts Lexeme.AtBoundary (cdr.chars true) us) :
    ∃ vs, (pair car cdr).Row true vs ∧ Cuts Lexeme.AtBoundary (chars true (.pair car cdr)) vs :=
  ⟨_, .item (head.moved 1) (tail.moved _),
    (cutHead.spaced nonempty).append cutTail fun rest _ => atBoundary_chars cdr rest⟩

theorem exists_row_list {car cdr : Datum} {ts us : List Token} (plain : abbreviation? car cdr = none)
    (head : car.Row false ts) (tail : cdr.Row true us)
    (cutHead : Cuts Lexeme.AtBoundary (car.chars false) ts)
    (cutTail : Cuts Lexeme.AtBoundary (cdr.chars true) us) :
    ∃ vs, (pair car cdr).Row false vs ∧ Cuts Lexeme.AtBoundary (chars false (.pair car cdr)) vs := by
  have text : chars false (.pair car cdr) = ['('] ++ (chars false car ++ chars true cdr) := by
    simp [chars_list plain]
  have items := cutHead.append cutTail fun rest _ => atBoundary_chars cdr rest
  have whole := Cuts.leftParen.append items fun _ _ => trivial
  rw [← text, List.map_append] at whole
  exact ⟨_, .list plain ⟨rfl, rfl⟩ (head.moved _) ((tail.moved _).moved _), whole⟩

theorem Row.ne_nil {d : Datum} {ts : List Token} (row : d.Row false ts) : ts ≠ [] := by
  cases row <;> simp

theorem Words.isCut {a : Atom} (words : (atom a).Words) (notNil : a ≠ .nil) : a.IsCut := by
  refine Atom.isCut notNil ?_
  rintro name rfl
  exact words name (by simp [symbols])

/-- Induction over the parts of a datum as they are printed. -/
theorem printed_induction {motive : Datum → Bool → Prop} (nil : motive .nil false)
    (close : motive .nil true) (atom : ∀ a : Atom, a ≠ .nil → motive (.atom a) false)
    (dotted : ∀ a : Atom, a ≠ .nil → motive (.atom a) true)
    (item : ∀ car cdr, motive car false → motive cdr true → motive (.pair car cdr) true)
    (list : ∀ car cdr, abbreviation? car cdr = none → motive car false → motive cdr true →
      motive (.pair car cdr) false)
    (quotation : ∀ name mark item, Store.quotationMark? name = some mark → motive item false →
      motive (.pair (.symbol name) (.pair item .nil)) false)
    (d : Datum) (inList : Bool) : motive d inList := by
  -- The form behind a mark is the head of the rest of the list.
  suffices all : (motive d false ∧ motive d true) ∧ ∀ car cdr, d = .pair car cdr → motive car false by
    cases inList
    · exact all.1.1
    · exact all.1.2
  induction d with
  | atom a =>
    refine ⟨?_, fun _ _ same => by cases same⟩
    rcases eq_or_ne a .nil with rfl | notNil
    · exact ⟨nil, close⟩
    · exact ⟨atom a notNil, dotted a notNil⟩
  | pair car cdr head tail =>
    refine ⟨⟨?_, item car cdr head.1.1 tail.1.2⟩, fun _ _ same => by cases same; exact head.1.1⟩
    cases found : abbreviation? car cdr with
    | none => exact list car cdr found head.1.1 tail.1.2
    | some mark =>
      obtain ⟨name, quoted, rfl, rfl, named⟩ := abbreviation?_eq_some found
      exact quotation name mark quoted named (tail.2 quoted .nil rfl)

/-- The text of a datum is cut into its row of tokens. -/
theorem exists_row (d : Datum) (inList : Bool) (words : d.Words)
    (unquotes : d.keepsUnquotes inList = true) :
    ∃ ts, d.Row inList ts ∧ Cuts Lexeme.AtBoundary (d.chars inList) ts := by
  induction d, inList using printed_induction with
  | nil =>
    exact ⟨_, .nil ⟨rfl, rfl⟩ ⟨rfl, rfl⟩, Cuts.leftParen.append
      (fun rest _ => Cuts.rightParen rest trivial) (fun _ _ => trivial)⟩
  | close => exact ⟨_, .close ⟨rfl, rfl⟩, fun rest _ => Cuts.rightParen rest trivial⟩
  | atom a notNil =>
    obtain ⟨t, writes, cut⟩ := words.isCut notNil
    exact ⟨[t], .atom notNil writes, cut⟩
  | dotted a notNil => exact exists_row_dotted notNil (words.isCut notNil)
  | item car cdr head tail =>
    simp only [keepsUnquotes, Bool.and_eq_true] at unquotes
    rw [words_pair] at words
    obtain ⟨ts, head, cutHead⟩ := head words.1 unquotes.1.1
    obtain ⟨us, tail, cutTail⟩ := tail words.2 unquotes.1.2
    exact exists_row_item head tail head.ne_nil cutHead cutTail
  | list car cdr plain head tail =>
    simp only [keepsUnquotes, Bool.and_eq_true] at unquotes
    rw [words_pair] at words
    obtain ⟨ts, head, cutHead⟩ := head words.1 unquotes.1.1
    obtain ⟨us, tail, cutTail⟩ := tail words.2 unquotes.1.2
    exact exists_row_list plain head tail cutHead cutTail
  | quotation name mark item named ih =>
    simp only [keepsUnquotes, Bool.and_eq_true, Bool.false_or, Bool.not_eq_true'] at unquotes
    have inner := (words_pair.mp (words_pair.mp words).2).1
    obtain ⟨ts, row, cut⟩ := ih inner unquotes.1.2.1.1
    refine exists_row_quotation named ?_ row cut
    rintro rest rfl
    refine head_row_ne_at inner ?_
    rintro name rfl
    simpa [abbreviatesToSplice] using unquotes.2

end Datum

end LazyLisp
