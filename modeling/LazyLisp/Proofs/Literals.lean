import LazyLisp.Datum.Literal
import LazyLisp.Token.Lexer
import Mathlib.Tactic.IntervalCases
import Mathlib.Tactic.SplitIfs

/-!
Atoms and their spellings. The readable form of an integer, a text or a character is one lexeme,
and what that lexeme denotes is the atom itself.
-/

namespace LazyLisp

namespace Text

theorem digitValue?_of_isDigit {c : Char} (digit : c.isDigit = true) :
    digitValue? c = some (c.toNat - '0'.toNat) := by
  simp only [Char.isDigit, Bool.and_eq_true, decide_eq_true_eq, UInt32.le_iff_toNat_le,
    ge_iff_le] at digit
  have first : (0x30 ≤ c.toNat && c.toNat < 0x30 + 10) = true := by
    simp only [Bool.and_eq_true, decide_eq_true_eq]
    exact ⟨digit.1, Nat.lt_succ_of_le digit.2⟩
  rw [digitValue?, digitZeros, List.findSome?_cons, if_pos first]
  rfl

theorem digitsValue_of_isDigit {digits : List Char} (all : ∀ c ∈ digits, c.isDigit = true) :
    digitsValue digits = Nat.ofDigitChars 10 digits 0 := by
  have from_any (n : Nat) :
      digits.foldl (fun n c => 10 * n + (digitValue? c).getD 0) n =
        Nat.ofDigitChars 10 digits n := by
    induction digits generalizing n with
    | nil => rfl
    | cons c rest ih =>
      have head := digitValue?_of_isDigit (all c List.mem_cons_self)
      simp only [List.foldl_cons, head, Option.getD_some, Nat.ofDigitChars_cons]
      exact ih (fun d member => all d (List.mem_cons_of_mem c member)) _
  exact from_any 0

theorem isDigit_of_mem_toDigits {n : Nat} {c : Char} (member : c ∈ Nat.toDigits 10 n) :
    isDigit c = true := by
  have digit := Nat.isDigit_of_mem_toDigits (by decide) (by decide) member
  simp [isDigit, digitValue?_of_isDigit digit]

theorem digitsValue_toDigits (n : Nat) : digitsValue (Nat.toDigits 10 n) = n := by
  rw [digitsValue_of_isDigit fun c member =>
    Nat.isDigit_of_mem_toDigits (by decide) (by decide) member]
  exact Nat.ofDigitChars_ten_toDigits

end Text

theorem Decimal.tenTo_eq (n : Nat) : Decimal.tenTo n = 10 ^ n := rfl

namespace Atom

theorem toList_toString_int (n : Int) :
    (toString n).toList = (if n < 0 then ['-'] else []) ++ Nat.toDigits 10 n.natAbs := by
  cases n with
  | ofNat m => simp [toString, Int.repr]
  | negSucc m => simp [toString, Int.repr, Int.negSucc_lt_zero]

theorem splitSign_toString_int (n : Int) :
    Decimal.splitSign (toString n).toList = (decide (n < 0), Nat.toDigits 10 n.natAbs) := by
  rw [toList_toString_int]
  by_cases negative : n < 0
  · simp [negative, Decimal.splitSign]
  · -- The first digit is no sign.
    simp only [negative, if_false, List.nil_append, decide_false]
    cases digits : Nat.toDigits 10 n.natAbs with
    | nil => rfl
    | cons c rest =>
      have digit : c.isDigit = true :=
        Nat.isDigit_of_mem_toDigits (b := 10) (n := n.natAbs) (by decide) (by decide)
          (by rw [digits]; exact List.mem_cons_self)
      rw [Decimal.splitSign.eq_def]
      split <;> simp_all

theorem length_toDigits_le_maxDigits {n : Int} (short : LazyLisp.hasText n = true) :
    (Nat.toDigits 10 n.natAbs).length ≤ maxDigits := by
  rw [Nat.length_toDigits_le_iff (by decide) (by decide)]
  rwa [LazyLisp.hasText, decide_eq_true_eq, Decimal.tenTo_eq] at short

/-- An integer that has a text is what its text denotes. -/
theorem ofWord_toString_int {n : Int} (short : LazyLisp.hasText n = true) :
    ofWord (toString n).toList = .ok (int n) := by
  have digits : (!(Nat.toDigits 10 n.natAbs).isEmpty &&
      (Nat.toDigits 10 n.natAbs).all Text.isDigit) = true := by
    simp only [Bool.and_eq_true, Bool.not_eq_true', List.isEmpty_eq_false_iff, List.all_eq_true]
    exact ⟨Nat.toDigits_ne_nil, fun c member => Text.isDigit_of_mem_toDigits member⟩
  have integer : integer? (toString n).toList = some (decide (n < 0), Nat.toDigits 10 n.natAbs) := by
    simp only [integer?, splitSign_toString_int, digits, if_true]
  have fits := length_toDigits_le_maxDigits short
  have value : (if decide (n < 0) = true then -(n.natAbs : Int) else n.natAbs) = n := by
    split_ifs with negative
    · have := of_decide_eq_true negative
      omega
    · have := of_decide_eq_false (Bool.eq_false_iff.mpr negative)
      omega
  simp only [ofWord, integer, if_neg (Nat.not_lt.mpr fits), Text.digitsValue_toDigits, value]

/-- The symbol that a word denotes has the word for its name. -/
theorem name_of_ofWord {word : List Char} {name : String}
    (denotes : ofWord word = .ok (symbol name)) : name = String.ofList word := by
  unfold ofWord at denotes
  split at denotes
  · split at denotes <;> simp at denotes
  · split at denotes
    · simp at denotes
    · split at denotes
      · simp at denotes
      · exact (Atom.symbol.inj (Except.ok.inj denotes)).symm

/-- A character of a readable text is an escape that denotes it, or stands for itself. -/
theorem escapeChar_cases (c : Char) :
    (∃ e, escapeChar c = ['\\', e] ∧ stringEscapes.lookup e = some c) ∨
      escapeChar c = [c] ∧ c ≠ '\\' ∧ c ≠ '"' := by
  simp only [escapeChar, beq_iff_eq]
  split_ifs with backslash quote newline tab carriage
  · exact .inl ⟨'\\', rfl, by rw [backslash]; rfl⟩
  · exact .inl ⟨'"', rfl, by rw [quote]; rfl⟩
  · exact .inl ⟨'n', rfl, by rw [newline]; rfl⟩
  · exact .inl ⟨'t', rfl, by rw [tab]; rfl⟩
  · exact .inl ⟨'r', rfl, by rw [carriage]; rfl⟩
  · exact .inr ⟨rfl, backslash, quote⟩

theorem stringBody_escaped (text soFar rest : List Char) :
    Lexeme.stringBody soFar (text.flatMap escapeChar ++ '"' :: rest) =
      .closed (soFar.reverse ++ text.flatMap escapeChar ++ ['"']) rest := by
  induction text generalizing soFar with
  | nil => simp [Lexeme.stringBody]
  | cons c text ih =>
    rw [List.flatMap_cons]
    obtain ⟨e, escaped, -⟩ | ⟨plain, noBackslash, noQuote⟩ := escapeChar_cases c
    · simp [escaped, Lexeme.stringBody, ih]
    · simp [plain, Lexeme.stringBody, noBackslash, ih]

theorem unescapeFrom_escaped (text soFar : List Char) (pos : Nat) :
    unescapeFrom soFar pos (text.flatMap escapeChar) = .ok (soFar.reverse ++ text) := by
  induction text generalizing soFar pos with
  | nil => simp [unescapeFrom]
  | cons c text ih =>
    rw [List.flatMap_cons]
    obtain ⟨e, escaped, denotes⟩ | ⟨plain, noBackslash, -⟩ := escapeChar_cases c
    · simp [escaped, unescapeFrom, denotes, ih]
    · simp [plain, unescapeFrom, noBackslash, ih]

theorem unescape_readableText (text : String) (offset : Nat) :
    unescape (readableText text).toList offset = .ok text := by
  have body : ((readableText text).toList.drop 1).dropLast = text.toList.flatMap escapeChar := by
    simp [readableText]
  rw [unescape, body, unescapeFrom_escaped]
  simp [Functor.map, Except.map]

theorem next_readableText (text : String) (rest : List Char) :
    Lexeme.next ((readableText text).toList ++ rest) =
      .token .string (readableText text).toList rest := by
  simp [readableText, Lexeme.next, stringBody_escaped]

theorem charName_cases (c : Char) :
    (c = ' ' ∨ c = '\n' ∨ c = '\t' ∨ c = '\r') ∨ (charName c).toList = [c] := by
  by_cases named : c ∈ charNames.map Prod.fst
  · left
    simpa [charNames] using named
  · right
    have unnamed : charNames.lookup c = none := by
      simpa [charNames, List.lookup_eq_none_iff] using named
    simp [charName, unnamed]

theorem ofCharLiteral_charName (c : Char) :
    ofCharLiteral ('#' :: '\\' :: (charName c).toList) = .ok (char c) := by
  obtain (rfl | rfl | rfl | rfl) | plain := charName_cases c
  · rfl
  · rfl
  · rfl
  · rfl
  · simp [plain, ofCharLiteral]

end Atom

namespace Lexeme

def AtBoundary : List Char → Prop
  | [] => True
  | c :: _ => c = ' ' ∨ c = ')'

theorem charLength_charName (c : Char) {rest : List Char} (boundary : AtBoundary rest) :
    charLength ((Atom.charName c).toList ++ rest) = (Atom.charName c).toList.length := by
  obtain (rfl | rfl | rfl | rfl) | plain := Atom.charName_cases c
  · rfl
  · rfl
  · rfl
  · rfl
  · -- All names are longer than one letter, and no second letter follows.
    have unnamed : namedChars.find? (·.isPrefixOf (c :: rest)) = none := by
      cases rest with
      | nil => simp [namedChars]
      | cons d rest => rcases boundary with rfl | rfl <;> simp [namedChars]
    simp [plain, charLength, unnamed]

theorem next_charName (c : Char) {rest : List Char} (boundary : AtBoundary rest) :
    next ('#' :: '\\' :: (Atom.charName c).toList ++ rest) =
      .token .char ('#' :: '\\' :: (Atom.charName c).toList) rest := by
  have length := charLength_charName c boundary
  cases name : (Atom.charName c).toList with
  | nil =>
    rw [name] at length
    exact absurd length (Nat.ne_of_gt (charLength_pos _))
  | cons d more =>
    rw [name] at length
    simp only [List.cons_append, next]
    rw [← List.cons_append, length]
    simp

/-- A text of these characters starts with a word: its first character is no delimiter, and it
starts neither with a block comment nor with a character literal. -/
structure StartsWord (c : Char) (more : List Char) : Prop where
  plain : isDelimiter c = false
  noComment : ∀ rest, c = '#' → more ≠ '|' :: rest
  noLiteral : ∀ d rest, c = '#' → more ≠ '\\' :: d :: rest

theorem next_of_startsWord {c : Char} {more : List Char} (starts : StartsWord c more) :
    next (c :: more) =
      .token .word (c :: more.takeWhile isWordChar) (more.dropWhile isWordChar) := by
  obtain ⟨plain, noComment, noLiteral⟩ := starts
  unfold next
  split <;> simp_all [isDelimiter]

theorem startsWord_of_next {text chars rest : List Char}
    (found : next text = .token .word chars rest) :
    ∃ c more, text = c :: more ∧ StartsWord c more ∧
      chars = c :: more.takeWhile isWordChar ∧ rest = more.dropWhile isWordChar := by
  unfold next at found
  split at found <;> (try split at found) <;>
    simp only [token.injEq, reduceCtorEq, false_and] at found
  next c more _ _ _ _ _ _ _ _ _ _ =>
  refine ⟨c, more, rfl, ⟨?_, ?_, ?_⟩, found.2.1.symm, found.2.2.symm⟩
  · simp_all [isDelimiter]
  · simp_all
  · simp_all

theorem isWordChar_of_boundary {c : Char} {rest : List Char} (boundary : AtBoundary (c :: rest)) :
    isWordChar c = false := by
  rcases boundary with rfl | rfl <;> decide

theorem takeWhile_isWordChar_append {chars rest : List Char}
    (word : ∀ c ∈ chars, isWordChar c = true) (boundary : AtBoundary rest) :
    (chars ++ rest).takeWhile isWordChar = chars ∧
      (chars ++ rest).dropWhile isWordChar = rest := by
  rw [List.takeWhile_append_of_pos word, List.dropWhile_append_of_pos word]
  cases rest with
  | nil => simp
  | cons c rest => simp [isWordChar_of_boundary boundary]

theorem StartsWord.append {c : Char} {more rest : List Char} (starts : StartsWord c more)
    (notMark : c :: more ≠ ['#', '\\']) (boundary : AtBoundary rest) :
    StartsWord c (more ++ rest) := by
  refine ⟨starts.plain, ?_, ?_⟩
  · intro tail hash comment
    cases more with
    | nil => subst comment; simp [AtBoundary] at boundary
    | cons d more =>
      obtain ⟨rfl, -⟩ := List.cons.inj comment
      exact starts.noComment more hash rfl
  · intro d tail hash literal
    match more with
    | [] => subst literal; simp [AtBoundary] at boundary
    | [e] =>
      obtain ⟨rfl, -⟩ := List.cons.inj literal
      exact notMark (by rw [hash])
    | e :: f :: more =>
      obtain ⟨rfl, -⟩ := List.cons.inj literal
      exact starts.noLiteral f more hash rfl

/-- A word that is a lexeme by itself is one in front of a boundary too. The mark of a character
literal with no character behind it is the exception: it would take the boundary along. -/
theorem next_word_append {chars rest : List Char} (alone : next chars = .token .word chars [])
    (notMark : chars ≠ ['#', '\\']) (boundary : AtBoundary rest) :
    next (chars ++ rest) = .token .word chars rest := by
  obtain ⟨c, more, rfl, starts, whole, -⟩ := startsWord_of_next alone
  have word : ∀ d ∈ more, isWordChar d = true := by
    rw [(List.cons.inj whole).2]
    exact fun d member => List.all_eq_true.mp List.all_takeWhile d member
  have ends := takeWhile_isWordChar_append word boundary
  rw [List.cons_append, next_of_startsWord (starts.append notMark boundary), ends.1, ends.2]

theorem isWordChar_of_isDigit {c : Char} (digit : c.isDigit = true) : isWordChar c = true := by
  simp only [Char.isDigit, Bool.and_eq_true, decide_eq_true_eq, UInt32.le_iff_toNat_le,
    ge_iff_le] at digit
  have low : 48 ≤ c.toNat := digit.1
  have high : c.toNat ≤ 57 := digit.2
  rw [← Char.ofNat_toNat c]
  interval_cases c.toNat <;> decide

theorem mem_toString_int {n : Int} {c : Char} (member : c ∈ (toString n).toList) :
    c = '-' ∨ c.isDigit = true := by
  rw [Atom.toList_toString_int, List.mem_append] at member
  rcases member with sign | digit
  · split_ifs at sign
    · exact .inl (List.mem_singleton.mp sign)
    · simp at sign
  · exact .inr (Nat.isDigit_of_mem_toDigits (by decide) (by decide) digit)

theorem isWordChar_of_mem_toString_int {n : Int} {c : Char} (member : c ∈ (toString n).toList) :
    isWordChar c = true := by
  rcases mem_toString_int member with rfl | digit
  · decide
  · exact isWordChar_of_isDigit digit

theorem toString_int_ne_nil (n : Int) : (toString n).toList ≠ [] := by
  rw [Atom.toList_toString_int]
  exact List.append_ne_nil_of_right_ne_nil _ Nat.toDigits_ne_nil

theorem isBlank_of_isWordChar {c : Char} (word : isWordChar c = true) :
    Text.isBlank c = false := by
  simp only [isWordChar, Bool.and_eq_true, Bool.not_eq_true'] at word
  exact word.1

theorem next_toString_int (n : Int) :
    next (toString n).toList = .token .word (toString n).toList [] := by
  have word : ∀ c ∈ (toString n).toList, isWordChar c = true ∧ c ≠ '#' := by
    intro c member
    refine ⟨isWordChar_of_mem_toString_int member, ?_⟩
    rintro rfl
    simpa using mem_toString_int member
  obtain ⟨c, more, text⟩ := List.exists_cons_of_ne_nil (toString_int_ne_nil n)
  rw [text] at word ⊢
  have first := word c List.mem_cons_self
  have starts : StartsWord c more := by
    refine ⟨?_, fun _ hash => absurd hash first.2, fun _ _ hash => absurd hash first.2⟩
    have plain := first.1
    simp only [isWordChar, Bool.and_eq_true, Bool.not_eq_true'] at plain
    exact plain.2
  have whole : ∀ d ∈ more, isWordChar d = true :=
    fun d member => (word d (List.mem_cons_of_mem c member)).1
  have ends : (more ++ []).takeWhile isWordChar = more ∧ (more ++ []).dropWhile isWordChar = [] :=
    takeWhile_isWordChar_append whole trivial
  rw [List.append_nil] at ends
  rw [next_of_startsWord starts, ends.1, ends.2]

end Lexeme

end LazyLisp
