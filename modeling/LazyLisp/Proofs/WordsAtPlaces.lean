import LazyLisp.Editor
import LazyLisp.Proofs.OutlinePlaces

/-!
The word that an editor finds at the place of a definition.

Around a column an editor takes all characters up to the next word breaks. A recorded name has no
word break in it, so that the name is found from each of its columns with whatever stands right before
and behind it up to the next break. Semicolons, double quotes and the signs at the end of a block
comment end a name for the reader and are no word breaks. Lines are cut in two ways: for the reader
only the newline character ends one.
-/

namespace LazyLisp

namespace Text

def isSolid (c : Char) : Bool := !isWordBreak c

section Line

variable {chars : List Char}

theorem wordStart_eq {n : Nat} (within : n ≤ chars.length) :
    wordStart chars n = .ok (n - ((chars.take n).reverse.takeWhile isSolid).length) := by
  induction n with
  | zero => rfl
  | succ n ih =>
    have found : chars[n]? = some chars[n] := List.getElem?_eq_getElem within
    rw [wordStart, found, List.take_add_one, found, Option.toList_some, List.reverse_append,
      List.reverse_singleton, List.singleton_append, List.takeWhile_cons]
    cases breaks : isWordBreak chars[n] with
    | true => simp [isSolid, breaks]
    | false => simp [isSolid, breaks, ih (Nat.le_of_succ_le within)]

theorem itemAt?_natCast {α : Type} (items : List α) (i : Nat) : itemAt? items (i : Int) = items[i]? := by
  have natural : ¬ ((i : Int) < 0) := by omega
  simp [itemAt?, placeOf, natural]

theorem wordEnd_eq {count : Nat} {n : Nat} (whole : n + count = chars.length) :
    wordEnd chars n count = .ok ((n + ((chars.drop n).takeWhile isSolid).length : Nat) : Int) := by
  induction count generalizing n with
  | zero =>
    have ended : chars.drop n = [] := List.drop_eq_nil_of_le (by omega)
    simp [wordEnd, ended]
  | succ count ih =>
    have inside : n < chars.length := by omega
    rw [wordEnd, itemAt?_natCast, List.getElem?_eq_getElem inside, List.drop_eq_getElem_cons inside,
      List.takeWhile_cons]
    cases breaks : isWordBreak chars[n] with
    | true => simp [isSolid, breaks]
    | false =>
      have solid : isSolid chars[n] = true := by simp [isSolid, breaks]
      have next : (n : Int) + 1 = ((n + 1 : Nat) : Int) := rfl
      simp only [breaks, solid, next, ih (n := n + 1) (by omega), Bool.false_eq_true, if_false,
        if_true, List.length_cons]
      congr 2
      omega

def around (chars : List Char) (n : Nat) : List Char :=
  ((chars.take n).reverse.takeWhile isSolid).reverse ++ (chars.drop n).takeWhile isSolid

theorem slice_around {n : Nat} (within : n ≤ chars.length) :
    slice chars ((n - ((chars.take n).reverse.takeWhile isSolid).length : Nat) : Int)
      ((n + ((chars.drop n).takeWhile isSolid).length : Nat) : Int) = around chars n := by
  have natural (i : Nat) : (placeOf chars.length (i : Int)).toNat = i := by
    have : ¬ ((i : Int) < 0) := by omega
    simp [placeOf, this]
  have front : chars.take n = ((chars.take n).reverse.dropWhile isSolid).reverse ++
      ((chars.take n).reverse.takeWhile isSolid).reverse := by
    rw [← List.reverse_append, List.takeWhile_append_dropWhile, List.reverse_reverse]
  have whole : chars = ((chars.take n).reverse.dropWhile isSolid).reverse ++
      (around chars n ++ (chars.drop n).dropWhile isSolid) := by
    rw [around, List.append_assoc, List.takeWhile_append_dropWhile, ← List.append_assoc, ← front,
      List.take_append_drop]
  have size := congrArg List.length front
  rw [List.length_append, List.length_reverse, List.length_reverse, List.length_take_of_le within]
    at size
  have starts : n - ((chars.take n).reverse.takeWhile isSolid).length =
      ((chars.take n).reverse.dropWhile isSolid).reverse.length := by
    rw [List.length_reverse]
    omega
  have stops : n + ((chars.drop n).takeWhile isSolid).length =
      n - ((chars.take n).reverse.takeWhile isSolid).length + (around chars n).length := by
    rw [around, List.length_append, List.length_reverse]
    omega
  simp only [slice, natural]
  rw [List.drop_take, ← List.extract_eq_take_drop]
  exact (congrArg (List.extract · _ _) whole).trans (extract_middle starts stops)

theorem wordInLine_eq_around {n : Nat} (within : n ≤ chars.length) :
    wordInLine chars n = .ok (if (around chars n).isEmpty then none
      else some (String.ofList (around chars n))) := by
  have count : n + ((chars.length : Int) - (n : Int)).toNat = chars.length := by omega
  have stop := wordEnd_eq count
  cases n with
  | zero =>
    have word := slice_around within
    simp only [List.take_zero, List.reverse_nil, List.takeWhile_nil, List.length_nil] at word
    simp only [wordInLine, stop, bind, Except.bind]
    rw [if_neg (by omega), ← word]
    rfl
  | succ n =>
    have start : (Int.ofNat <$> wordStart chars ((n + 1 : Nat) : Int).toNat) =
        .ok (Int.ofNat (n + 1 - ((chars.take (n + 1)).reverse.takeWhile isSolid).length)) := by
      rw [Int.toNat_natCast, wordStart_eq within]
      rfl
    simp only [wordInLine, start, stop, bind, Except.bind]
    rw [if_pos (by omega), ← slice_around within]
    rfl

/-- From inside a stretch without breaks the word is this stretch, with what goes on in front of it
and behind it. -/
theorem around_inside (front back : List Char) {name : List Char} {k : Nat}
    (solid : ∀ c ∈ name, isSolid c = true)
    (inside : k ≤ name.length) :
    around (front ++ (name ++ back)) (front.length + k) =
      (front.reverse.takeWhile isSolid).reverse ++ (name ++ back.takeWhile isSolid) := by
  have first : ∀ c ∈ (name.take k).reverse, isSolid c = true :=
    fun c member => solid c (List.mem_of_mem_take (List.mem_reverse.mp member))
  have rest : ∀ c ∈ name.drop k, isSolid c = true :=
    fun c member => solid c (List.mem_of_mem_drop member)
  rw [around, List.take_length_add_append, List.drop_length_add_append,
    List.take_append_of_le_length inside, List.drop_append_of_le_length inside, List.reverse_append,
    List.takeWhile_append_of_pos first, List.takeWhile_append_of_pos rest, List.reverse_append,
    List.reverse_reverse, List.append_assoc, ← List.append_assoc (name.take k),
    List.take_append_drop]

end Line

section Lines

variable {soFar front rest : List Char}

theorem splitNewlinesFrom_append (front rest : List Char) :
    splitNewlinesFrom soFar (front ++ '\n' :: rest) =
      splitNewlinesFrom soFar (front ++ ['\n']) ++ splitNewlinesFrom [] rest := by
  induction front generalizing soFar with
  | nil => simp [splitNewlinesFrom]
  | cons c front ih =>
    by_cases newline : c = '\n' <;> simp [splitNewlinesFrom, newline, ih]

theorem length_splitNewlinesFrom (front : List Char) :
    (splitNewlinesFrom soFar (front ++ ['\n'])).length = front.count '\n' + 1 := by
  induction front generalizing soFar with
  | nil => simp [splitNewlinesFrom]
  | cons c front ih =>
    by_cases newline : c = '\n' <;> simp [splitNewlinesFrom, newline, ih]

theorem splitNewlinesFrom_line (inside : '\n' ∉ rest) (nonempty : soFar.reverse ++ rest ≠ []) :
    splitNewlinesFrom soFar rest = [soFar.reverse ++ rest] := by
  induction rest generalizing soFar with
  | nil => simpa [splitNewlinesFrom] using nonempty
  | cons c rest ih =>
    rw [List.mem_cons, not_or] at inside
    have other : c ≠ '\n' := Ne.symm inside.1
    have further : (c :: soFar).reverse ++ rest ≠ [] := by simp
    simpa [splitNewlinesFrom, other] using ih inside.2 further

def lineFront (front : List Char) : List Char := (front.reverse.takeWhile (· != '\n')).reverse

theorem not_mem_lineFront (front : List Char) : '\n' ∉ lineFront front := by
  intro member
  simpa using List.mem_takeWhile_imp (List.mem_reverse.mp member)

theorem lineFront_eq_self (inside : '\n' ∉ front) : lineFront front = front := by
  have all : ∀ c ∈ front.reverse, (c != '\n') = true := by
    intro c member
    rw [bne_iff_ne]
    rintro rfl
    exact inside (List.mem_reverse.mp member)
  rw [lineFront, List.takeWhile_eq_self_iff.mpr all, List.reverse_reverse]

theorem exists_front_of_mem (broken : '\n' ∈ front) :
    ∃ ended, front = ended ++ '\n' :: lineFront front := by
  have parts := List.takeWhile_append_dropWhile (p := (· != '\n')) (l := front.reverse)
  have some_left : front.reverse.dropWhile (· != '\n') ≠ [] := by
    intro nothing
    have passed := List.dropWhile_eq_nil_iff.mp nothing '\n' (List.mem_reverse.mpr broken)
    simp at passed
  obtain ⟨c, more, left⟩ := List.exists_cons_of_ne_nil some_left
  have stopped := List.head?_dropWhile_not (· != '\n') front.reverse
  obtain rfl : c = '\n' := by simpa [left] using stopped
  refine ⟨more.reverse, ?_⟩
  calc front = front.reverse.reverse := front.reverse_reverse.symm
    _ = (front.reverse.takeWhile (· != '\n') ++ '\n' :: more).reverse := by rw [← left, parts]
    _ = more.reverse ++ '\n' :: lineFront front := by simp [lineFront]

/-- Behind the lines that are ended in front of a place there is the line that it is on. -/
theorem exists_lines (front : List Char) {name : List Char} (nonempty : name ≠ []) (inside : '\n' ∉ name) :
    ∃ lines, splitNewlines (front ++ name) = lines ++ [lineFront front ++ name] ∧
      lines.length = front.count '\n' := by
  have alone : splitNewlines (lineFront front ++ name) = [lineFront front ++ name] :=
    splitNewlinesFrom_line (by simp [not_mem_lineFront, inside]) (by simp [nonempty])
  by_cases broken : '\n' ∈ front
  · obtain ⟨ended, whole⟩ := exists_front_of_mem broken
    refine ⟨splitNewlines (ended ++ ['\n']), ?_, ?_⟩
    · conv_lhs => rw [whole, List.append_assoc, List.cons_append]
      rw [splitNewlines, splitNewlinesFrom_append]
      exact congrArg _ alone
    · conv_rhs => rw [whole]
      rw [splitNewlines, length_splitNewlinesFrom, List.count_append, List.count_cons_self,
        List.count_eq_zero_of_not_mem (not_mem_lineFront front)]
  · refine ⟨[], ?_, (List.count_eq_zero_of_not_mem broken).symm⟩
    rwa [lineFront_eq_self broken] at alone ⊢

theorem splitLinesFrom_cons {c : Char} (single : ∀ more, c = '\r' → rest ≠ '\n' :: more) :
    splitLinesFrom soFar (c :: rest) =
      if isLineEnd c then (c :: soFar).reverse :: splitLinesFrom [] rest
      else splitLinesFrom (c :: soFar) rest := by
  rw [splitLinesFrom]
  exact fun more carriage newline => single more carriage newline

theorem splitLinesFrom_inside {c : Char} (inside : isLineEnd c = false) (soFar rest : List Char) :
    splitLinesFrom soFar (c :: rest) = splitLinesFrom (c :: soFar) rest := by
  have carriage : c ≠ '\r' := by
    rintro rfl
    cases inside
  rw [splitLinesFrom_cons fun _ same => absurd same carriage, if_neg (Bool.not_eq_true _ ▸ inside)]

/-- A carriage return with no newline behind it has none either where the text goes on with another
character. -/
theorem alone_append {c d : Char} {front : List Char} (newline : c ≠ '\n')
    (alone : ∀ more, d = '\r' → front = '\n' :: more → False) (back : List Char) :
    ∀ more, d = '\r' → front ++ c :: back ≠ '\n' :: more := by
  intro more isCarriage same
  cases front with
  | nil => exact newline (List.cons.inj same).1
  | cons e front => exact alone front isCarriage (by rw [(List.cons.inj same).1])

theorem splitLinesFrom_append {c : Char} (inside : isLineEnd c = false)
    (soFar front rest : List Char) :
    ∃ lines line, line ≠ [] ∧ splitLinesFrom soFar (front ++ [c]) = lines ++ [line] ∧
      splitLinesFrom soFar (front ++ c :: rest) = lines ++ splitLinesFrom line.reverse rest := by
  have newline : c ≠ '\n' := by
    rintro rfl
    cases inside
  fun_induction splitLinesFrom soFar front with
  | case1 soFar | case2 soFar =>
    refine ⟨[], (c :: soFar).reverse, by simp, ?_, ?_⟩
    · simp [splitLinesFrom_inside inside, splitLinesFrom]
    · simp [splitLinesFrom_inside inside]
  | case3 soFar front ih =>
    obtain ⟨lines, line, nonempty, first, whole⟩ := ih
    refine ⟨('\n' :: '\r' :: soFar).reverse :: lines, line, nonempty, ?_, ?_⟩
    · simp [splitLinesFrom, first]
    · simp [splitLinesFrom, whole]
  | case4 soFar d front alone ends ih =>
    obtain ⟨lines, line, nonempty, first, whole⟩ := ih
    refine ⟨(d :: soFar).reverse :: lines, line, nonempty, ?_, ?_⟩
    · rw [List.cons_append, splitLinesFrom_cons (alone_append newline alone []), if_pos ends, first]
      rfl
    · rw [List.cons_append, splitLinesFrom_cons (alone_append newline alone rest), if_pos ends, whole]
      rfl
  | case5 soFar d front alone goesOn ih =>
    obtain ⟨lines, line, nonempty, first, whole⟩ := ih
    refine ⟨lines, line, nonempty, ?_, ?_⟩
    · rw [List.cons_append, splitLinesFrom_cons (alone_append newline alone []), if_neg goesOn, first]
    · rw [List.cons_append, splitLinesFrom_cons (alone_append newline alone rest), if_neg goesOn,
        whole]

/-- A line goes on with what stands behind it, up to a line end or the end of the text. -/
theorem exists_line_end (soFar rest : List Char) (nonempty : soFar ≠ []) :
    ∃ back lines, splitLinesFrom soFar rest = (soFar.reverse ++ back) :: lines ∧
      back.head? = rest.head? := by
  fun_induction splitLinesFrom soFar rest with
  | case1 soFar empty => simp [nonempty] at empty
  | case2 soFar => exact ⟨[], [], by simp, rfl⟩
  | case3 soFar rest => exact ⟨['\r', '\n'], splitLinesFrom [] rest, by simp, rfl⟩
  | case4 soFar c rest => exact ⟨[c], splitLinesFrom [] rest, by simp, rfl⟩
  | case5 soFar c rest _ _ ih =>
    obtain ⟨back, lines, split, -⟩ := ih (by simp)
    exact ⟨c :: back, lines, by simp [split], rfl⟩

/-- Where both ways to cut lines agree up to the end of a name, its line is the one that only newlines
in front of it are counted for. -/
theorem exists_line_of_name {name : List Char} (back : List Char) (nonempty : name ≠ [])
    (inside : ∀ c ∈ name, isLineEnd c = false)
    (aligned : splitLines (front ++ name) = splitNewlines (front ++ name)) :
    ∃ behind, (splitLines (front ++ (name ++ back)))[front.count '\n']? =
      some (lineFront front ++ (name ++ behind)) ∧ behind.head? = back.head? := by
  have noNewline : '\n' ∉ name := by
    intro member
    cases inside '\n' member
  obtain ⟨ended, byNewlines, count⟩ := exists_lines front nonempty noNewline
  obtain ⟨most, last, rfl⟩ : ∃ most last, name = most ++ [last] :=
    ⟨_, _, (List.dropLast_concat_getLast nonempty).symm⟩
  obtain ⟨lines, line, some_chars, cut, whole⟩ :=
    splitLinesFrom_append (inside last (by simp)) [] (front ++ most) back
  have same : lines ++ [line] = ended ++ [lineFront front ++ (most ++ [last])] := by
    rw [← byNewlines, ← aligned, splitLines, ← List.append_assoc, cut]
  obtain ⟨rfl, rfl⟩ := List.append_inj' same rfl |>.imp id (fun single => (List.cons.inj single).1)
  obtain ⟨behind, more, goesOn, head⟩ :=
    exists_line_end (lineFront front ++ (most ++ [last])).reverse back (by simp)
  refine ⟨behind, ?_, head⟩
  have split : splitLines (front ++ (most ++ [last] ++ back)) =
      lines ++ (lineFront front ++ (most ++ [last] ++ behind)) :: more := by
    have shape : front ++ (most ++ [last] ++ back) = front ++ most ++ last :: back := by simp
    rw [shape, splitLines, whole, goesOn]
    simp
  rw [split, ← count, List.getElem?_append_right (Nat.le_refl _), Nat.sub_self]
  rfl

end Lines

section Names

variable {front name back : List Char}

/-- What goes on in front of a name and behind it does not belong to the same word. -/
def Apart (front back : List Char) : Prop :=
  (∀ c ∈ front.getLast?, isWordBreak c = true) ∧ ∀ c ∈ back.head?, isWordBreak c = true

theorem takeWhile_isSolid_eq_nil {chars : List Char} :
    chars.takeWhile isSolid = [] ↔ ∀ c ∈ chars.head?, isWordBreak c = true := by
  cases chars with
  | nil => simp
  | cons c chars => cases breaks : isWordBreak c <;> simp [isSolid, breaks]

theorem takeWhile_lineFront_eq_nil :
    (lineFront front).reverse.takeWhile isSolid = [] ↔
      ∀ c ∈ front.getLast?, isWordBreak c = true := by
  rw [takeWhile_isSolid_eq_nil, lineFront, List.reverse_reverse, ← List.head?_reverse]
  cases front.reverse with
  | nil => simp
  | cons c more =>
    by_cases newline : c = '\n'
    · simp [newline, isWordBreak]
    · simp [newline]

/-- Around a name there is the word that it is if and only if it stands apart. -/
theorem wordAt_eq_name_iff (back : List Char) (nonempty : name ≠ [])
    (inside : ∀ c ∈ name, isLineEnd c = false)
    (solid : ∀ c ∈ name, isSolid c = true)
    (aligned : splitLines (front ++ name) = splitNewlines (front ++ name)) {k : Nat}
    (within : k < name.length) :
    wordAt (front ++ (name ++ back)) (front.count '\n' : Nat)
        (((lineFront front).length : Nat) + (k : Int)) = .ok (some (String.ofList name)) ↔
      Apart front back := by
  obtain ⟨behind, line, head⟩ := exists_line_of_name back nonempty inside aligned
  obtain ⟨exists_line, -⟩ := List.getElem?_eq_some_iff.mp line
  have found : wordAt (front ++ (name ++ back)) (front.count '\n' : Nat)
      (((lineFront front).length : Nat) + (k : Int)) =
        .ok (some (String.ofList (((lineFront front).reverse.takeWhile isSolid).reverse ++
          (name ++ behind.takeWhile isSolid)))) := by
    have known := around_inside (lineFront front) behind solid within.le
    have some_word : (around (lineFront front ++ (name ++ behind)) ((lineFront front).length + k)).isEmpty
        = false := by
      rw [known]
      simp [nonempty]
    have column : (lineFront front).length + k ≤ (lineFront front ++ (name ++ behind)).length := by
      simp
      omega
    have word := wordInLine_eq_around column
    rw [some_word, known] at word
    rw [wordAt, if_neg (by omega), itemAt?_natCast, line]
    exact word
  rw [found, Apart, ← head, ← takeWhile_lineFront_eq_nil, ← takeWhile_isSolid_eq_nil]
  constructor
  · intro same
    have lengths := congrArg List.length (String.ofList_injective (Option.some.inj (Except.ok.inj same)))
    simp only [List.length_append, List.length_reverse] at lengths
    constructor <;> rw [← List.length_eq_zero_iff] <;> omega
  · rintro ⟨first, last⟩
    simp [first, last]

end Names

end Text

namespace Lexeme

theorem isLineEnd_of_isWordChar {c : Char} (word : isWordChar c = true) :
    Text.isLineEnd c = false := by
  simp only [isWordChar, Text.isBlank, Bool.and_eq_true, Bool.not_eq_true',
    Bool.or_eq_false_iff] at word
  simp only [Text.isLineEnd]
  grind

theorem isSolid_of_isWordChar {c : Char} (word : isWordChar c = true) : Text.isSolid c = true := by
  rw [Text.isSolid, Bool.not_eq_true']
  by_contra breaks
  rw [Bool.not_eq_false] at breaks
  simp only [Text.isWordBreak, Bool.or_eq_true, beq_iff_eq] at breaks
  obtain ((((((((rfl | rfl) | rfl) | rfl) | rfl) | rfl) | rfl) | rfl) | rfl) := breaks <;>
    revert word <;> decide

theorem isWordChar_of_mem_word {text : List Char} {t : Token} (member : t ∈ (lex text).tokens)
    (kind : t.kind = .word) {c : Char} (among : c ∈ t.text.toList) : isWordChar c = true := by
  have found := next_of_mem_lex member
  rw [kind] at found
  obtain ⟨first, more, -, starts, spelled, -⟩ := startsWord_of_next found
  obtain ⟨c', more', spelled', solid⟩ := exists_head_of_mem_lex member
  obtain ⟨rfl, -⟩ := List.cons.inj (spelled.symm.trans spelled')
  rw [spelled] at among
  rcases List.mem_cons.mp among with rfl | later
  · simp [isWordChar, solid, starts.plain]
  · exact List.mem_takeWhile_imp later

end Lexeme

namespace Outline

section Hover

variable {text : List Char} {d : Definition} {offset : Nat}

theorem definitions_of_ofText {limit : Option Nat} {o : Outline} (outline : ofText limit text = .ok o) :
    o.definitions = definitionsOf text := by
  cases problems : problemsOf limit text with
  | ok ps =>
    rw [ofText, problems] at outline
    cases outline
    rfl
  | error b =>
    rw [ofText, problems] at outline
    cases outline

/-- A recorded name stands in the text where its place is, and it is a word. -/
theorem exists_around_name (member : d ∈ definitionsOf text)
    (place : d.place.offset? text = some offset) :
    text.take (offset + d.name.length) = text.take offset ++ d.name.toList ∧
      d.place = .ofOffset text offset ∧ d.name.toList ≠ [] ∧
      ∀ c ∈ d.name.toList, Lexeme.isWordChar c = true := by
  obtain ⟨i, t, made, starts, within, spelled⟩ := spelled_of_mem member
  have there : Position.offset? text (.ofOffset text t.start) = some t.start :=
    Position.offset?_ofOffset (by omega)
  rw [← starts, place] at there
  obtain rfl := Option.some.inj there
  have among : t ∈ (lex text).tokens := List.mem_of_mem_drop made.begins.mem
  obtain ⟨c, more, nonempty, -⟩ := exists_head_of_mem_lex among
  rw [made.named] at nonempty
  refine ⟨?_, starts, by simp [nonempty], ?_⟩
  · rw [← spelled, List.extract_eq_take_drop, Nat.add_sub_cancel_left, List.take_add]
  · rw [← made.named]
    exact fun c member => Lexeme.isWordChar_of_mem_word among made.begins.word member

/-- A definition is found from all over its name if and only if the name stands apart from what is in
front of it and behind it. Then the editor shows this definition. -/
theorem hover_finds_iff {limit : Option Nat} {o : Outline} (outline : ofText limit text = .ok o)
    (member : d ∈ o.definitions) (place : d.place.offset? text = some offset)
    (aligned : Text.splitLines (text.take (offset + d.name.length)) =
      Text.splitNewlines (text.take (offset + d.name.length))) :
    ((∀ k < d.name.length, Text.wordAt text d.place.line (d.place.column + k) = .ok (some d.name)) ↔
        Text.Apart (text.take offset) (text.drop (offset + d.name.length))) ∧
      (Text.Apart (text.take offset) (text.drop (offset + d.name.length)) →
        o.find? d.name = some d ∧ ∀ (e : Editor) uri, e.find? uri = some ⟨text, o⟩ →
          ∀ k < d.name.length, e.hover uri d.place.line (d.place.column + k) = .ok (o.hover d.name)) := by
  have known := definitions_of_ofText outline
  rw [known] at member
  obtain ⟨upTo, starts, nonempty, word⟩ := exists_around_name member place
  have whole : text.take offset ++ (d.name.toList ++ text.drop (offset + d.name.length)) = text := by
    rw [← List.append_assoc, ← upTo, List.take_append_drop]
  rw [upTo] at aligned
  have word_iff {k : Nat} (within : k < d.name.length) :
      Text.wordAt text d.place.line (d.place.column + k) = .ok (some d.name) ↔
        Text.Apart (text.take offset) (text.drop (offset + d.name.length)) := by
    rw [← String.length_toList] at within
    have column : (Text.lineFront (text.take offset)).length = d.place.column := by
      simp [starts, Text.lineFront, Position.ofOffset]
    have line : (text.take offset).count '\n' = d.place.line := by rw [starts, Position.ofOffset]
    have agree := Text.wordAt_eq_name_iff (text.drop (offset + d.name.length)) nonempty
      (fun c member => Lexeme.isLineEnd_of_isWordChar (word c member))
      (fun c member => Lexeme.isSolid_of_isWordChar (word c member)) aligned within
    rwa [whole, column, line, String.ofList_toList] at agree
  refine ⟨⟨fun found => ?_, fun apart k within => (word_iff within).mpr apart⟩,
    fun apart => ⟨?_, ?_⟩⟩
  · have some_char : 0 < d.name.length := by
      rw [← String.length_toList]
      exact List.length_pos_iff.mpr nonempty
    exact (word_iff some_char).mp (found 0 some_char)
  · rw [find?, known]
    exact find?_of_mem_nodup (nodup_definitionsOf text) member
  · intro e uri opened k within
    simp only [Editor.hover, opened, (word_iff within).mpr apart]
    rfl

def secondLine : List Char := "(define y 1)\r\n(define (f x) x)".toList

def secondLineOutline : Outline :=
  ⟨[⟨"y", .value, ⟨0, 8⟩, none⟩, ⟨"f", .function, ⟨1, 9⟩, none⟩], []⟩

theorem hover_finds_iff_secondLine :
    ofText none secondLine = .ok secondLineOutline ∧
      Text.wordAt secondLine 1 9 = .ok (some "f") ∧
      Editor.hover ⟨[("u", ⟨secondLine, secondLineOutline⟩)]⟩ "u" 1 9 =
        .ok (some "f: function (defined at 2:10)") := by
  have outline : ofText none secondLine = .ok secondLineOutline := by decide +kernel
  have place : Position.offset? secondLine ⟨1, 9⟩ = some 23 := by decide +kernel
  obtain ⟨found, shown⟩ := hover_finds_iff outline
    (d := ⟨"f", .function, ⟨1, 9⟩, none⟩) (by decide) place (by decide +kernel)
  have apart : Text.Apart (secondLine.take 23) (secondLine.drop 24) := by
    constructor <;> rintro c ⟨⟩ <;> rfl
  refine ⟨outline, found.mpr apart 0 (by decide), ?_⟩
  exact (shown apart).2 _ "u" rfl 0 (by decide)

/-- Right behind a name a comment may begin, and the editor takes it for a part of the word. -/
theorem wordAt_comment : ¬ ∀ text, ∀ d ∈ definitionsOf text, ∀ k < d.name.length,
    Text.wordAt text d.place.line (d.place.column + k) = .ok (some d.name) := by
  intro always
  have found := always "(define x;c\n1)".toList ⟨"x", .value, ⟨0, 8⟩, none⟩ (by decide +kernel) 0
    (by decide)
  revert found
  decide +kernel

end Hover

end Outline

end LazyLisp
