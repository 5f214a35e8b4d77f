import LazyLisp.Input
import LazyLisp.Proofs.CutText
import LazyLisp.Proofs.Resuming

/-!
Reading a text line by line gives what reading it as a whole gives.

An input holds a text in pieces that are cut behind blanks. A piece that holds a complete form, or
something that no further text can mend, settles what the next read gives, so that a read does not
depend on where the text is cut. The reads one after the other then follow the forms of the whole
text.
-/

namespace LazyLisp

def WellCut (piece : List Char) : List (List Char) → Prop
  | [] => True
  | next :: rest => EndsBlank piece ∧ WellCut next rest

namespace WellCut

theorem append {piece next : List Char} {rest : List (List Char)} (ends : EndsBlank piece)
    (cut : WellCut next rest) : WellCut (piece ++ next) rest := by
  cases rest with
  | nil => trivial
  | cons line rest => exact ⟨ends.append cut.1, cut.2⟩

theorem drop {piece : List Char} {rest : List (List Char)} (cut : WellCut piece rest) (k : Nat) :
    WellCut (piece.drop k) rest := by
  cases rest with
  | nil => trivial
  | cons line rest =>
    refine ⟨?_, cut.2⟩
    have ends := cut.1
    rw [← List.take_append_drop k piece] at ends
    exact ends.of_append

end WellCut

namespace Text

theorem isBlank_of_isLineEnd {c : Char} (ends : isLineEnd c = true) : isBlank c = true := by
  simp only [isLineEnd, isBlank, Bool.or_eq_true, Bool.and_eq_true, decide_eq_true_eq,
    beq_iff_eq] at ends ⊢
  omega

theorem wellCut_splitLinesFrom (piece soFar text : List Char) (ends : EndsBlank piece) :
    WellCut piece (splitLinesFrom soFar text) := by
  fun_induction splitLinesFrom soFar text generalizing piece with
  | case1 => trivial
  | case2 => exact ⟨ends, trivial⟩
  | case3 soFar rest ih =>
    refine ⟨ends, ih _ ?_⟩
    intro c last
    simp only [List.reverse_cons, List.getLast?_append, List.getLast?_singleton, Option.some_or,
      Option.mem_def, Option.some.injEq] at last
    subst last
    decide
  | case4 soFar c rest _ ended ih =>
    refine ⟨ends, ih _ ?_⟩
    intro d last
    simp only [List.reverse_cons, List.getLast?_append, List.getLast?_singleton, Option.some_or,
      Option.mem_def, Option.some.injEq] at last
    subst last
    exact isBlank_of_isLineEnd ended
  | case5 soFar c rest _ _ ih => exact ih piece ends

end Text

def ReadFailure.isEnd : ReadFailure → Bool
  | error e => e.issue == .endOfInput
  | breakdown _ => false

theorem ReadFailure.isEnd_eq_false {f : ReadFailure} (mended : f.wantsMore = false) :
    f.isEnd = false := by
  cases f with
  | breakdown b => rfl
  | error e =>
    rw [wantsMore, ReadIssue.wantsMore, Bool.or_eq_false_iff] at mended
    exact mended.1

@[simp]
theorem ReadFailure.moved_zero (f : ReadFailure) : f.moved 0 = f := by
  cases f <;> rfl

theorem ReadFailure.moved_moved (j k : Nat) (f : ReadFailure) :
    (f.moved j).moved k = f.moved (j + k) := by
  cases f <;> simp [moved, ReadError.moved, Nat.add_assoc]

/-- The lexer has no complaint about the end of a text. -/
theorem failure_lex_ne_endOfInput {text : List Char} :
    ∀ e ∈ (lex text).failure, e.issue ≠ .endOfInput := by
  induction text using lexeme_induction with
  | token text kind chars rest found ih =>
    rw [lex_of_token found]
    simpa [Lexed.behind, Lexed.moved, ReadError.moved] using ih
  | comment text length rest found ih =>
    rw [lex_of_comment found]
    simpa [Lexed.moved, ReadError.moved] using ih
  | last text last =>
    rw [lex, lexFrom]
    split
    · next found => simp [found, Lexeme.rest?] at last
    · next found => simp [found, Lexeme.rest?] at last
    · simp
    · simp
    · split <;> simp

theorem isEnd_of_parseFormFrom {failure : Option ReadError} {stack : List OpenForm} {pos stop : Nat}
    {ts : List Token} {f : ReadFailure} (parsed : parseFormFrom failure stack pos ts = .failed f stop)
    (begun : failure ≠ none ∨ stack ≠ [] ∨ ts ≠ [])
    (complaint : ∀ e ∈ failure, e.issue ≠ .endOfInput) : f.isEnd = false := by
  induction ts generalizing stack pos with
  | nil =>
    obtain ⟨rfl, rfl⟩ := ParsedForm.failed.inj parsed
    cases failure with
    | some e => simpa [ReadFailure.isEnd] using complaint e rfl
    | none =>
      have opened : stack ≠ [] := by simpa using begun
      match stack with
      | .quotation _ :: _ | .list _ _ :: _ => rfl
      | .dotted _ _ none :: _ | .dotted _ _ (some _) :: _ => rfl
  | cons t ts ih =>
    rw [parseFormFrom] at parsed
    split at parsed
    · simp at parsed
    · next below fed =>
      refine ih parsed (.inr (.inl ?_))
      rintro rfl
      exact Move.feed_ne_stay_nil fed
    · next fed =>
      obtain ⟨rfl, rfl⟩ := ParsedForm.failed.inj parsed
      exact ReadFailure.isEnd_eq_false (Move.wantsMore_of_feed fed)

namespace Input

def remaining (p : Input) : List Char := p.buffer ++ p.pending.flatten

def IsCut (p : Input) : Prop := WellCut p.buffer p.pending

/-- The text that an input is made from, in one piece or in its lines. -/
theorem remaining_ofText (name : String) (text : List Char) :
    (ofText name text).remaining = text := by
  simp [remaining, ofText, ofLines]

theorem isCut_ofText (name : String) (text : List Char) : (ofText name text).IsCut := by
  refine Text.wellCut_splitLinesFrom [] [] text ?_
  simp [EndsBlank]

theorem length_remaining (p : Input) : p.remaining.length = p.size := by
  simp [remaining, size]

theorem exceeds_none (lexed : Lexed) (stop : Nat) : lexed.exceeds none stop = false := rfl

section FirstForm

variable {text : List Char}

/-- The first form of a text is there, or missing, or the text ends without one. -/
theorem firstForm_cases (text : List Char) :
    (lex text = ⟨[], none⟩ ∧ firstForm none text = .error (.error ⟨.endOfInput, text.length⟩)) ∨
    (∃ d stop, parseForm (lex text) = .form d stop ∧ firstForm none text = .ok (d, stop)) ∨
    ∃ f stop, parseForm (lex text) = .failed f stop ∧ firstForm none text = .error f ∧
      ((lex text).failure ≠ none ∨ (lex text).tokens ≠ []) := by
  by_cases ended : (lex text).tokens = [] ∧ (lex text).failure = none
  · left
    refine ⟨by rw [← ended.1, ← ended.2], ?_⟩
    simp [firstForm, ended]
  · right
    have begun : (lex text).failure ≠ none ∨ (lex text).tokens ≠ [] := by
      by_cases failed : (lex text).failure = none
      · exact .inr fun empty => ended ⟨empty, failed⟩
      · exact .inl failed
    have opened : ((lex text).tokens.isEmpty && (lex text).failure.isNone) = false := by
      rw [Bool.eq_false_iff]
      simpa using ended
    cases parsed : parseForm (lex text) with
    | form d stop => exact .inl ⟨d, stop, rfl, by simp [firstForm, opened, parsed, exceeds_none]⟩
    | failed f stop =>
      exact .inr ⟨f, stop, rfl, by simp [firstForm, opened, parsed, exceeds_none], begun⟩

/-- What is found in front of a cut and needs no more text is found in the whole text. -/
theorem firstForm_append (ends : EndsBlank text) (settled : wantsMore (firstForm none text) = false)
    (extra : List Char) : firstForm none (text ++ extra) = firstForm none text := by
  obtain ⟨first, wants⟩ := lex_append ends extra
  have certain (f : ReadFailure) (stop : Nat) (failed : parseForm (lex text) = .failed f stop) :
      f.wantsMore = false := by
    rcases firstForm_cases text with ⟨-, found⟩ | ⟨d, place, parsed, -⟩ | ⟨g, place, parsed, found, -⟩
    · simp [found, wantsMore, ReadFailure.wantsMore, ReadIssue.wantsMore] at settled
    · simp [parsed] at failed
    · obtain ⟨rfl, -⟩ := ParsedForm.failed.inj (parsed.symm.trans failed)
      simpa [found, wantsMore] using settled
  have same : parseForm (lex (text ++ extra)) = parseForm (lex text) :=
    parseFormFrom_append first wants certain _
  have begun : lex (text ++ extra) ≠ ⟨[], none⟩ := by
    intro ended
    rw [ended] at same
    have := certain _ _ same.symm
    cases this
  rcases firstForm_cases text with ⟨-, found⟩ | ⟨d, stop, parsed, found⟩ | ⟨f, stop, parsed, found, -⟩
  · simp [found, wantsMore, ReadFailure.wantsMore, ReadIssue.wantsMore] at settled
  · rcases firstForm_cases (text ++ extra) with
      ⟨ended, -⟩ | ⟨e, place, again, longer⟩ | ⟨g, place, again, -⟩
    · exact absurd ended begun
    · obtain ⟨rfl, rfl⟩ := ParsedForm.form.inj (again.symm.trans (same.trans parsed))
      rw [found, longer]
    · simp [again, parsed] at same
  · rcases firstForm_cases (text ++ extra) with
      ⟨ended, -⟩ | ⟨e, place, again, -⟩ | ⟨g, place, again, longer, -⟩
    · exact absurd ended begun
    · simp [again, parsed] at same
    · obtain ⟨rfl, rfl⟩ := ParsedForm.failed.inj (again.symm.trans (same.trans parsed))
      rw [found, longer]

/-- The first form lies within the text and takes at least one character, and the forms of the text
are the first one and those of the rest. -/
theorem parseForms_of_firstForm {d : Datum} {stop : Nat} (found : firstForm none text = .ok (d, stop)) :
    0 < stop ∧ stop ≤ text.length ∧ parseForms (lex text) =
      ((parseForms (lex (text.drop stop))).moved stop).behind [(d, stop)] := by
  have parsed : parseForm (lex text) = .form d stop := by
    rcases firstForm_cases text with ⟨-, other⟩ | ⟨e, place, parsed, other⟩ | ⟨g, place, -, other, -⟩
    · simp [other] at found
    · obtain ⟨rfl, rfl⟩ := Prod.mk.inj (Except.ok.inj (other.symm.trans found))
      exact parsed
    · simp [other] at found
  obtain ⟨front, t, back, cut, rfl, step⟩ := parseFormsFrom_of_form #[] parsed
  have bounds := bounds_of_mem_lex (by rw [cut]; simp : t ∈ (lex text).tokens)
  have resumed := lex_drop cut
  refine ⟨by omega, bounds.2.2, ?_⟩
  have moved := parseFormsFrom_moved t.stop (lex (text.drop t.stop)).failure [] 0
    (lex (text.drop t.stop)).tokens
  obtain ⟨tokens, failure⟩ := Lexed.mk.inj resumed
  rw [tokens, failure, List.map_nil, Nat.zero_add] at moved
  rw [parseForms, step, parseFormsFrom_eq, moved]
  rfl

/-- Where there is no first form, the forms end. -/
theorem parseForms_of_firstForm_error {f : ReadFailure} (found : firstForm none text = .error f) :
    (parseForms (lex text)).forms = [] ∧
      (parseForms (lex text)).failure = if f.isEnd then none else some f := by
  rcases firstForm_cases text with ⟨ended, other⟩ | ⟨d, stop, -, other⟩ | ⟨g, stop, parsed, other, begun⟩
  · obtain rfl := Except.error.inj (other.symm.trans found)
    rw [ended]
    exact ⟨rfl, rfl⟩
  · simp [other] at found
  · obtain rfl := Except.error.inj (other.symm.trans found)
    have begun : (lex text).failure ≠ none ∨ [] ≠ ([] : List OpenForm) ∨ (lex text).tokens ≠ [] := by
      simpa using begun
    rw [parseForms, parseFormsFrom_of_failed #[] parsed begun,
      isEnd_of_parseFormFrom parsed begun failure_lex_ne_endOfInput]
    exact ⟨rfl, rfl⟩

end FirstForm

/-- What a read gives, and what it leaves: the text behind the form, in pieces again. -/
theorem readFrom_eq (p : Input) {buffer : List Char} {pending : List (List Char)}
    (cut : WellCut buffer pending) :
    match firstForm none (buffer ++ pending.flatten) with
    | .ok (d, stop) => ∃ q, readFrom none p buffer pending = (.ok d, q) ∧
        q.remaining = (buffer ++ pending.flatten).drop stop ∧ q.IsCut
    | .error f => (readFrom none p buffer pending).1 = .error f := by
  induction pending generalizing buffer with
  | nil =>
    rw [List.flatten_nil, List.append_nil, readFrom]
    cases firstForm none buffer with
    | ok found =>
      refine ⟨_, rfl, ?_, trivial⟩
      simp [remaining]
    | error f => cases f <;> rfl
  | cons line rest ih =>
    rw [readFrom]
    by_cases wants : wantsMore (firstForm none buffer) = true
    · simp only [wants, if_true, List.flatten_cons, ← List.append_assoc]
      exact ih (.append cut.1 cut.2)
    · rw [firstForm_append cut.1 (by simpa using wants)]
      simp only [wants]
      cases found : firstForm none buffer with
      | ok result =>
        obtain ⟨d, stop⟩ := result
        refine ⟨_, rfl, ?_, cut.drop stop⟩
        have bounds := parseForms_of_firstForm found
        rw [List.drop_append_of_le_length bounds.2.1]
        rfl
      | error f => cases f <;> rfl

theorem read_eq (p : Input) (cut : p.IsCut) :
    match firstForm none p.remaining with
    | .ok (d, stop) => ∃ q, p.read none = (.ok d, q) ∧ q.remaining = p.remaining.drop stop ∧ q.IsCut
    | .error f => (p.read none).1 = .error f :=
  readFrom_eq p cut

/-- Reads one after the other that give these forms. -/
inductive Reads : Input → List Datum → Input → Prop where
  | done {p} : Reads p [] p
  | next {p q r d ds} : p.read none = (.ok d, q) → Reads q ds r → Reads p (d :: ds) r

/-- The reads of an input give the forms of its text, and then one read gives what ended them. -/
theorem exists_reads (p : Input) (cut : p.IsCut) :
    ∃ q f, Reads p ((parseForms (lex p.remaining)).forms.map (·.1)) q ∧
      (q.read none).1 = .error f ∧ q.size ≤ p.size ∧
      (parseForms (lex p.remaining)).forms.length ≤ p.size ∧
      (parseForms (lex p.remaining)).failure =
        if f.isEnd then none else some (f.moved (p.size - q.size)) := by
  induction size : p.size using Nat.strongRecOn generalizing p with
  | ind n ih =>
    have step := read_eq p cut
    cases found : firstForm none p.remaining with
    | error f =>
      obtain ⟨forms, failure⟩ := parseForms_of_firstForm_error found
      rw [found] at step
      refine ⟨p, f, ?_, step, by omega, by simp [forms], ?_⟩
      · rw [forms]
        exact .done
      · rw [failure, ← size, Nat.sub_self, ReadFailure.moved_zero]
    | ok result =>
      obtain ⟨d, stop⟩ := result
      rw [found] at step
      obtain ⟨q, read, left, cutLeft⟩ := step
      obtain ⟨positive, within, forms⟩ := parseForms_of_firstForm found
      have sizes : q.size + stop = n := by
        rw [← length_remaining, left, List.length_drop]
        rw [length_remaining] at within ⊢
        omega
      obtain ⟨r, f, reads, ending, smaller, many, failure⟩ := ih q.size (by omega) q cutLeft rfl
      rw [left] at reads many failure
      refine ⟨r, f, ?_, ending, by omega, ?_, ?_⟩
      · have tail : ((parseForms (lex p.remaining)).forms.map (·.1)) =
            d :: (parseForms (lex (p.remaining.drop stop))).forms.map (·.1) := by
          simp [forms, ParsedForms.behind, ParsedForms.moved]
        rw [tail]
        exact .next read reads
      · simp only [forms, ParsedForms.behind, ParsedForms.moved, List.length_append,
          List.length_singleton, List.length_map]
        omega
      · simp only [forms, ParsedForms.behind, ParsedForms.moved, failure]
        split
        · rfl
        · simp only [Option.map_some, ReadFailure.moved_moved]
          congr 2
          omega

/-- Reading form after form gives the forms that the reads give. -/
theorem formsWithin_of_reads {p q : Input} {ds : List Datum} {f : ReadFailure} {fuel : Nat}
    (done : Array Datum) (reads : Reads p ds q) (ending : (q.read none).1 = .error f)
    (enough : ds.length < fuel) :
    formsWithin none done fuel p = (done.toList ++ ds, if f.isEnd then none else some f) := by
  induction reads generalizing done fuel with
  | @done p =>
    cases fuel with
    | zero => simp at enough
    | succ fuel =>
      rw [formsWithin, List.append_nil]
      generalize p.read none = outcome at ending
      obtain ⟨result, left⟩ := outcome
      subst ending
      match f with
      | .breakdown b => rfl
      | .error ⟨issue, offset⟩ => cases issue <;> rfl
  | @next p q r d ds read _ ih =>
    cases fuel with
    | zero => simp at enough
    | succ fuel =>
      rw [formsWithin, read]
      have rest := ih (done.push d) ending (Nat.lt_of_succ_lt_succ enough)
      simpa using rest

end Input

/-- Reading a text line by line and reading it as a whole give the same forms; and where the whole
cannot be read, the lines give the forms in front of the failure and then the same failure, at its
place in what the earlier reads left. -/
theorem forms_ofText_eq_readAll (name : String) (text : List Char) :
    (∀ ds, (Input.ofText name text).forms none = (ds, none) ↔ readAll none text = .ok ds) ∧
    ∀ failure, readAll none text = .error failure →
      ∃ ds q f, ds = (parseForms (lex text)).forms.map (·.1) ∧
        Input.Reads (Input.ofText name text) ds q ∧ (q.read none).1 = .error f ∧
        f.moved (text.length - q.size) = failure ∧
        (Input.ofText name text).forms none = (ds, some f) := by
  obtain ⟨q, f, reads, ending, -, many, failure⟩ :=
    Input.exists_reads _ (Input.isCut_ofText name text)
  have forms := Input.formsWithin_of_reads #[] reads ending
    (by rw [List.length_map]; exact Nat.lt_succ_of_le many)
  change (Input.ofText name text).forms none = _ at forms
  rw [← Input.length_remaining] at failure
  rw [Input.remaining_ofText] at reads failure forms
  have whole : readAll none text =
      if f.isEnd then .ok ((parseForms (lex text)).forms.map (·.1))
      else .error (f.moved (text.length - q.size)) := by
    rw [readAll, Input.exceeds_none, failure]
    cases f.isEnd <;> rfl
  rw [whole, forms]
  constructor
  · intro ds
    cases f.isEnd <;> simp
  · intro failure failed
    cases isEnd : f.isEnd with
    | true => simp [isEnd] at failed
    | false =>
      refine ⟨_, q, f, rfl, reads, ending, ?_, ?_⟩
      · simpa [isEnd] using failed
      · simp

end LazyLisp
