import LazyLisp.Proofs.ProperTokens
import LazyLisp.Proofs.Reading
import LazyLisp.Proofs.TameRuns
import LazyLisp.Proofs.TextPrefixes
import LazyLisp.Proofs.WholeTexts

/-!
The books of an input.

Every read takes some lines, joins them to the text that is left over and takes a piece off the
front of the whole. Nothing else happens to the text: over any number of reads, whether they give
forms or fail, the lines are the pieces taken in turn and what is left over. A piece taken for a
form is a text of that form alone, and a line is taken only where the text at hand has no form yet
and may still get one.
-/

namespace LazyLisp

theorem exists_reads_of_form {failure : Option ReadError} {stack : List OpenForm} {pos stop : Nat}
    {ts : List Token} {d : Datum} (parsed : parseFormFrom failure stack pos ts = .form d stop) :
    ∃ front t back, ts = front ++ t :: back ∧ t.stop = stop ∧
      Move.Reads stack (front ++ [t]) [d] [] := by
  induction ts generalizing stack pos with
  | nil => cases parsed
  | cons t ts ih =>
    rw [parseFormFrom] at parsed
    split at parsed
    · next e fed =>
      obtain ⟨rfl, rfl⟩ := ParsedForm.form.inj parsed
      exact ⟨[], t, ts, rfl, rfl, .complete fed .done⟩
    · next below fed =>
      obtain ⟨front, u, back, rfl, rfl, reads⟩ := ih parsed
      exact ⟨t :: front, u, back, rfl, rfl, .stay fed reads⟩
    · cases parsed

theorem nesting_le_of_front {ts us : List Token} (front : ts <+: us) :
    nesting ts ≤ nesting us := by
  obtain ⟨more, rfl⟩ := front
  rw [nesting_eq, nesting_eq, List.foldl_append]
  obtain ⟨depth, marks, most⟩ := ts.foldl nestingStep (0, 0, 0)
  rw [foldl_nestingStep]
  exact Nat.le_max_left _ _

def Unfinished (text : List Char) : Prop :=
  (parseForms (lex text)).forms = [] ∧
    ∀ f ∈ (parseForms (lex text)).failure, ∃ e, f = .error e ∧ e.issue.isIncomplete = true

namespace Input

variable {limit : Option Nat} {text : List Char}

theorem exists_of_exceeds {lexed : Lexed} {stop : Nat} (deep : lexed.exceeds limit stop = true) :
    ∃ most ∈ limit, most < nesting lexed.tokens := by
  obtain ⟨most, held, less⟩ := (Option.any_eq_true _ _).mp deep
  refine ⟨most, held, ?_⟩
  calc most < nesting (lexed.tokens.takeWhile (·.stop ≤ stop)) := of_decide_eq_true less
    _ ≤ nesting lexed.tokens := nesting_le_of_front (List.takeWhile_prefix _)

theorem exceeds_of_firstForm {d : Datum} {stop : Nat}
    (found : firstForm limit text = .ok (d, stop)) :
    (lex text).exceeds limit stop = false := by
  have parsed := parseForm_of_firstForm (firstForm_none_of_ok found)
  by_contra deep
  rw [Bool.not_eq_false] at deep
  by_cases ended : ((lex text).tokens.isEmpty && (lex text).failure.isNone) = true
  · simp [firstForm, ended] at found
  · simp [firstForm, ended, parsed, deep] at found

theorem prefix_takeWhile_stop {front back : List Token} {t : Token}
    (cut : (lex text).tokens = front ++ t :: back) :
    front ++ [t] <+: (lex text).tokens.takeWhile (·.stop ≤ t.stop) := by
  have ordered := (tiles_lex text).pairwise
  rw [cut, List.pairwise_append] at ordered
  have within : ∀ u ∈ front ++ [t], decide (u.stop ≤ t.stop) = true := by
    intro u member
    rw [decide_eq_true_eq]
    rcases List.mem_append.mp member with among | last
    · have bounds := bounds_of_mem_lex (by rw [cut]; simp : t ∈ (lex text).tokens)
      have before := ordered.2.2 u among t List.mem_cons_self
      omega
    · rw [List.mem_singleton.mp last]
  have whole : front ++ t :: back = front ++ [t] ++ back := by simp
  rw [cut, whole, List.takeWhile_append_of_pos within]
  exact List.prefix_append _ _

theorem readAll_take_of_firstForm {d : Datum} {stop : Nat}
    (found : firstForm limit text = .ok (d, stop)) :
    readAll limit (text.take stop) = .ok [d] := by
  have shallow := exceeds_of_firstForm found
  obtain ⟨front, t, back, cut, rfl, reads⟩ :=
    exists_reads_of_form (parseForm_of_firstForm (firstForm_none_of_ok found))
  rw [readAll_eq_ok_iff, lex_take cut]
  refine ⟨rfl, reads, ?_⟩
  rintro most held
  have fits : nesting ((lex text).tokens.takeWhile (·.stop ≤ t.stop)) ≤ most := by
    simpa [Lexed.exceeds, Option.mem_def.mp held] using shallow
  exact (nesting_le_of_front (prefix_takeWhile_stop cut)).trans fits

theorem unfinished_of_wantsMore (wants : wantsMore (firstForm limit text) = true) :
    Unfinished text := by
  rcases firstForm_limit limit text with deep | same
  · rw [deep] at wants
    cases wants
  · rw [same] at wants
    cases found : firstForm none text with
    | ok result =>
      rw [found] at wants
      cases wants
    | error f =>
      obtain ⟨forms, failure⟩ := parseForms_of_firstForm_error found
      refine ⟨forms, ?_⟩
      intro g held
      rw [failure] at held
      by_cases ended : f.isEnd = true
      · simp [ended] at held
      · obtain rfl : f = g := by simpa [ended] using held
        rw [found] at wants
        match f with
        | .breakdown b => cases wants
        | .error e =>
          have more : (e.issue == .endOfInput || e.issue.isIncomplete) = true := wants
          rcases Bool.or_eq_true_iff.mp more with last | open'
          · exact absurd last ended
          · exact ⟨e, rfl, open'⟩

/-- A limit is no matter to the first form of a text that does not nest deeper. -/
theorem firstForm_of_fits (fits : ∀ most ∈ limit, nesting (lex text).tokens ≤ most) :
    firstForm limit text = firstForm none text := by
  have shallow (stop : Nat) : (lex text).exceeds limit stop = false := by
    rw [Bool.eq_false_iff]
    intro deep
    obtain ⟨most, held, less⟩ := exists_of_exceeds deep
    exact absurd (fits most held) (Nat.not_le_of_lt less)
  simp [firstForm, shallow, exceeds_none]

theorem exists_of_firstForm_tooDeep (found : firstForm limit text = .error tooDeep) :
    ∃ most ∈ limit, most < nesting (lex text).tokens := by
  by_contra! fits
  cases eq_tooManyDigits_of_firstForm ((firstForm_of_fits fits).symm.trans found)

theorem fits_drop (fits : ∀ most ∈ limit, nesting (lex text).tokens ≤ most) {d : Datum} {stop : Nat}
    (found : firstForm none text = .ok (d, stop)) :
    ∀ most ∈ limit, nesting (lex (text.drop stop)).tokens ≤ most := by
  obtain ⟨front, t, back, cut, rfl, reads⟩ := exists_reads_of_form (parseForm_of_firstForm found)
  have behind : (lex (text.drop t.stop)).tokens.map (Token.moved t.stop) = back :=
    congrArg Lexed.tokens (lex_drop cut)
  have whole : (lex text).tokens = front ++ [t] ++ back := by simp [cut]
  intro most held
  have most_le := fits most held
  rw [whole, reads.nesting_append, ← behind, nesting_moved] at most_le
  exact (Nat.le_max_right _ _).trans most_le

theorem readFrom_of_fits (p : Input) {buffer : List Char} {pending : List (List Char)}
    (cut : WellCut buffer pending)
    (fits : ∀ most ∈ limit, nesting (lex (buffer ++ pending.flatten)).tokens ≤ most) :
    readFrom limit p buffer pending = readFrom none p buffer pending := by
  induction pending generalizing buffer with
  | nil =>
    rw [List.flatten_nil, List.append_nil] at fits
    rw [readFrom, readFrom, firstForm_of_fits fits]
  | cons line rest ih =>
    have front := (lex_append cut.1 (line :: rest).flatten).1
    have same : firstForm limit buffer = firstForm none buffer := firstForm_of_fits
      fun most held => (nesting_le_of_front front).trans (fits most held)
    rw [List.flatten_cons, ← List.append_assoc] at fits
    rw [readFrom, readFrom, same, ih (.append cut.1 cut.2) fits]

theorem formsWithin_of_fits (done : Array Datum) (fuel : Nat) {p : Input} (cut : p.IsCut)
    (fits : ∀ most ∈ limit, nesting (lex p.remaining).tokens ≤ most) :
    formsWithin limit done fuel p = formsWithin none done fuel p := by
  induction fuel generalizing done p with
  | zero => rfl
  | succ fuel ih =>
    have same : p.read limit = p.read none := readFrom_of_fits p cut fits
    have step := read_eq p cut
    rw [formsWithin, formsWithin, same]
    split
    · next d q read =>
      cases found : firstForm none p.remaining with
      | error f => simp [found, read] at step
      | ok result =>
        obtain ⟨e, stop⟩ := result
        simp only [found, read, Prod.mk.injEq] at step
        obtain ⟨_, ⟨-, rfl⟩, left, cutLeft⟩ := step
        exact ih _ cutLeft (left ▸ fits_drop fits found)
    · rfl
    · rfl

/-- Within a limit that the whole text keeps, reading line by line gives the forms of the text. -/
theorem forms_of_readAll {ds : List Datum} (read : readAll limit text = .ok ds) (name : String) :
    (ofText name text).forms limit = (ds, none) := by
  obtain ⟨sound, reads, fits⟩ := readAll_eq_ok_iff.mp read
  have unlimited : readAll none text = .ok ds :=
    readAll_eq_ok_iff.mpr ⟨sound, reads, fun _ absent => nomatch absent⟩
  obtain ⟨es, f, spells⟩ := exists_spells text
  obtain ⟨rfl, ended⟩ := spells.readAll_eq_ok_iff.mp unlimited
  rw [← remaining_ofText name text] at fits
  have same := formsWithin_of_fits #[] ((ofText name text).size + 1) (isCut_ofText name text) fits
  calc (ofText name text).forms limit = (ofText name text).forms none := same
    _ = (ds, none) := by rw [spells.forms_eq name, if_pos ended]

theorem exists_not_isProper_of_parseFormFrom {failure : Option ReadError} {stack : List OpenForm}
    {pos stop : Nat} {ts : List Token} {b : Breakdown} (lexical : ∀ t ∈ ts, t.IsLexical)
    (parsed : parseFormFrom failure stack pos ts = .failed (.breakdown b) stop) :
    ∃ t ∈ ts, ¬ t.IsProper := by
  induction ts generalizing stack pos with
  | nil => cases parsed
  | cons t ts ih =>
    rw [parseFormFrom] at parsed
    split at parsed
    · cases parsed
    · obtain ⟨u, member, improper⟩ :=
        ih (fun u member => lexical u (List.mem_cons_of_mem t member)) parsed
      exact ⟨u, List.mem_cons_of_mem t member, improper⟩
    · next fed =>
      obtain ⟨rfl, -⟩ := ParsedForm.failed.inj parsed
      refine ⟨t, List.mem_cons_self, ?_⟩
      intro proper
      obtain ⟨kind, failed⟩ := Move.breakdown_of_feed (lexical t List.mem_cons_self) fed
      obtain ⟨a, denotes⟩ := proper.exists_word kind
      cases denotes.symm.trans failed

/-- What the reader cannot cope with: an integer of too many digits, or nesting beyond the limit. -/
theorem breakdown_of_firstForm {b : Breakdown}
    (found : firstForm limit text = .error (.breakdown b)) :
    b = .tooManyDigits ∧ (∃ t ∈ (lex text).tokens, ¬ t.IsProper) ∨
      b = .nestedTooDeep ∧ ∃ most ∈ limit, most < nesting (lex text).tokens := by
  rcases firstForm_limit limit text with deep | same
  · cases found.symm.trans deep
    exact .inr ⟨rfl, exists_of_firstForm_tooDeep found⟩
  · rw [same] at found
    left
    refine ⟨eq_tooManyDigits_of_firstForm found, ?_⟩
    rcases firstForm_cases text with ⟨-, other⟩ | ⟨d, stop, -, other⟩ | ⟨f, stop, parsed, other, -⟩
    · cases found.symm.trans other
    · cases found.symm.trans other
    · cases found.symm.trans other
      exact exists_not_isProper_of_parseFormFrom (fun t => Token.isLexical_of_mem_lex) parsed

/-- A read takes lines while the text at hand may still get a form, and ends with what it has. -/
theorem readFrom_eq_finish (p : Input) (buffer : List Char) (pending : List (List Char)) :
    ∃ pulled left, pending = pulled ++ left ∧
      readFrom limit p buffer pending =
        p.finish (buffer ++ pulled.flatten) left (firstForm limit (buffer ++ pulled.flatten)) ∧
      (∀ front line back, pulled = front ++ line :: back →
        wantsMore (firstForm limit (buffer ++ front.flatten)) = true) ∧
      (wantsMore (firstForm limit (buffer ++ pulled.flatten)) = true → left = []) := by
  induction pending generalizing buffer with
  | nil => exact ⟨[], [], rfl, by simp [readFrom], by simp, fun _ => rfl⟩
  | cons line rest ih =>
    by_cases wants : wantsMore (firstForm limit buffer) = true
    · obtain ⟨pulled, left, rfl, same, needed, ended⟩ := ih (buffer ++ line)
      rw [List.append_assoc, ← List.flatten_cons] at same ended
      refine ⟨line :: pulled, left, rfl, ?_, ?_, ended⟩
      · rw [readFrom]
        simpa [wants] using same
      · intro front next back cut
        cases front with
        | nil => simpa using wants
        | cons first front =>
          obtain ⟨rfl, later⟩ := List.cons.inj cut
          simpa using needed front next back later
    · refine ⟨[], line :: rest, rfl, ?_, by simp, ?_⟩
      · rw [readFrom]
        simp [wants]
      · simp [wants]

/-- A read in the books: the input before it, what it gave, and the input behind it. -/
structure ReadEntry where
  before : Input
  outcome : Except ReadFailure Datum
  after : Input

namespace ReadEntry

def pulled (r : ReadEntry) : List (List Char) :=
  r.before.pending.take (r.before.pending.length - r.after.pending.length)

def atHand (r : ReadEntry) : List Char := r.before.buffer ++ r.pulled.flatten

def taken (r : ReadEntry) : List Char := r.atHand.take (r.atHand.length - r.after.buffer.length)

/-- A read as it should be. -/
structure Sound (limit : Option Nat) (r : ReadEntry) : Prop where
  pending : r.before.pending = r.pulled ++ r.after.pending
  atHand : r.atHand = r.taken ++ r.after.buffer
  /-- The text taken for a form gives this form alone. -/
  form : ∀ d, r.outcome = .ok d → readAll limit r.taken = .ok [d]
  /-- A line is taken only where the text at hand is unfinished. -/
  needed : ∀ front line back, r.pulled = front ++ line :: back →
    Unfinished (r.before.buffer ++ front.flatten)
  /-- An error leaves no text over, and want of text is an error only behind the last line. -/
  dropped : ∀ e, r.outcome = .error (.error e) → r.after.buffer = [] ∧
    (e.issue.wantsMore = true → r.after.pending = [])
  /-- Nothing is taken where the reader cannot cope with the text. -/
  breakdown : ∀ b, r.outcome = .error (.breakdown b) → r.taken = [] ∧
    (b = .tooManyDigits ∧ (∃ t ∈ (lex r.atHand).tokens, ¬ t.IsProper) ∨
      b = .nestedTooDeep ∧ ∃ most ∈ limit, most < nesting (lex r.atHand).tokens)
  /-- Behind the last line there is nothing more to read. -/
  ended : r.before.pending = [] → r.before.buffer = [] →
    r.outcome = .error (.error ⟨.endOfInput, 0⟩)

def next (limit : Option Nat) (p : Input) : ReadEntry := ⟨p, (p.read limit).1, (p.read limit).2⟩

/-- A read is as it should be if it takes some lines and a piece of the text that they make. -/
theorem sound_of_cut {p q : Input} {outcome : Except ReadFailure Datum}
    {pulled : List (List Char)} {text piece : List Char} (pending : p.pending = pulled ++ q.pending)
    (held : p.buffer ++ pulled.flatten = text) (cut : text = piece ++ q.buffer)
    (needed : ∀ front line back, pulled = front ++ line :: back →
      Unfinished (p.buffer ++ front.flatten))
    (form : ∀ d, outcome = .ok d → readAll limit piece = .ok [d])
    (dropped : ∀ e, outcome = .error (.error e) →
      q.buffer = [] ∧ (e.issue.wantsMore = true → q.pending = []))
    (breakdown : ∀ b, outcome = .error (.breakdown b) → piece = [] ∧
      (b = .tooManyDigits ∧ (∃ t ∈ (lex text).tokens, ¬ t.IsProper) ∨
        b = .nestedTooDeep ∧ ∃ most ∈ limit, most < nesting (lex text).tokens))
    (ended : p.pending = [] → p.buffer = [] → outcome = .error (.error ⟨.endOfInput, 0⟩)) :
    (⟨p, outcome, q⟩ : ReadEntry).Sound limit := by
  have lines : (⟨p, outcome, q⟩ : ReadEntry).pulled = pulled := by
    simp [ReadEntry.pulled, pending]
  have whole : (⟨p, outcome, q⟩ : ReadEntry).atHand = text := by
    rw [atHand, lines, held]
  have front : (⟨p, outcome, q⟩ : ReadEntry).taken = piece := by
    rw [taken, whole, cut]
    simp
  constructor
  · rw [lines, pending]
  · rw [whole, front, cut]
  · rwa [front]
  · rwa [lines]
  · exact dropped
  · rwa [front, whole]
  · exact ended

theorem outcome_of_empty {p : Input} (lines : p.pending = []) (text : p.buffer = []) :
    (next limit p).outcome = .error (.error ⟨.endOfInput, 0⟩) := by
  have ended : firstForm limit [] = .error (.error ⟨.endOfInput, 0⟩) := by
    simp [firstForm]
  simp only [next, read, lines, text, readFrom, ended, finish]

theorem sound_next (limit : Option Nat) (p : Input) : (next limit p).Sound limit := by
  have atEnd := @outcome_of_empty limit p
  obtain ⟨pulled, left, pending, read, needed, ended⟩ :=
    @readFrom_eq_finish limit p p.buffer p.pending
  have unfinished : ∀ front line back, pulled = front ++ line :: back →
      Unfinished (p.buffer ++ front.flatten) :=
    fun front line back cut => unfinished_of_wantsMore (needed front line back cut)
  have read : p.read limit = _ := read
  rw [next, read] at atEnd ⊢
  generalize held : p.buffer ++ pulled.flatten = text at ended atEnd ⊢
  match found : firstForm limit text with
  | .ok (d, stop) =>
    rw [found] at atEnd
    apply sound_of_cut pending held (List.take_append_drop stop text).symm unfinished
    · rintro _ ⟨⟩
      exact readAll_take_of_firstForm found
    · rintro _ ⟨⟩
    · rintro _ ⟨⟩
    · exact atEnd
  | .error (.error e) =>
    rw [found] at atEnd ended
    apply sound_of_cut pending held (List.append_nil text).symm unfinished
    · rintro _ ⟨⟩
    · rintro _ ⟨⟩
      exact ⟨rfl, ended⟩
    · rintro _ ⟨⟩
    · exact atEnd
  | .error (.breakdown b) =>
    rw [found] at atEnd
    apply sound_of_cut pending held (List.nil_append text).symm unfinished
    · rintro _ ⟨⟩
    · rintro _ ⟨⟩
    · rintro _ ⟨⟩
      exact ⟨rfl, breakdown_of_firstForm found⟩
    · exact atEnd

end ReadEntry

def entries (limit : Option Nat) : Nat → Input → List ReadEntry
  | 0, _ => []
  | count + 1, p => .next limit p :: entries limit count (p.read limit).2

def afterReads (limit : Option Nat) : Nat → Input → Input
  | 0, p => p
  | count + 1, p => afterReads limit count (p.read limit).2

/-- The books balance: what was held and the lines taken are what the reads took and what is left. -/
theorem entries_balance (limit : Option Nat) (count : Nat) (p : Input) :
    p.pending =
        (entries limit count p).flatMap ReadEntry.pulled ++ (afterReads limit count p).pending ∧
      p.buffer ++ ((entries limit count p).flatMap ReadEntry.pulled).flatten =
        (entries limit count p).flatMap ReadEntry.taken ++ (afterReads limit count p).buffer := by
  induction count generalizing p with
  | zero => simp [entries, afterReads]
  | succ count ih =>
    obtain ⟨lines, text⟩ := ih (p.read limit).2
    have first := ReadEntry.sound_next limit p
    rw [entries, afterReads, List.flatMap_cons, List.flatMap_cons]
    constructor
    · rw [List.append_assoc, ← lines]
      exact first.pending
    · have held : p.buffer ++ (ReadEntry.next limit p).pulled.flatten =
          (ReadEntry.next limit p).taken ++ (p.read limit).2.buffer := first.atHand
      rw [List.flatten_append, ← List.append_assoc, held, List.append_assoc, text,
        List.append_assoc]

theorem sound_of_mem_entries {count : Nat} {p : Input} {r : ReadEntry}
    (member : r ∈ entries limit count p) : r.Sound limit := by
  induction count generalizing p with
  | zero => cases member
  | succ count ih =>
    rcases List.mem_cons.mp member with rfl | later
    · exact ReadEntry.sound_next limit p
    · exact ih later

end Input

open Input in
/-- Reads lose nothing, repeat nothing and take no line too early, however many there are and
whether they give forms or fail. -/
theorem reads_account_for_lines (limit : Option Nat) (name : String) (lines : List (List Char))
    (count : Nat) :
    lines = (entries limit count (ofLines name lines)).flatMap ReadEntry.pulled ++
        (afterReads limit count (ofLines name lines)).pending ∧
      ((entries limit count (ofLines name lines)).flatMap ReadEntry.pulled).flatten =
        (entries limit count (ofLines name lines)).flatMap ReadEntry.taken ++
          (afterReads limit count (ofLines name lines)).buffer ∧
      ∀ r ∈ entries limit count (ofLines name lines), r.Sound limit := by
  obtain ⟨pulled, taken⟩ := entries_balance limit count (ofLines name lines)
  refine ⟨pulled, ?_, fun r member => sound_of_mem_entries member⟩
  simpa [ofLines] using taken

end LazyLisp
