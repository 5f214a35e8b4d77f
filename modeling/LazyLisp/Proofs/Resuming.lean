import LazyLisp.Proofs.Lexing
import LazyLisp.Proofs.Parsing

/-!
Parsing taken up again. The place of the tokens does not matter to the forms, so that the forms of
a text are its first form and the forms of the rest behind it; and a form, once complete, stays the
same whatever tokens follow.
-/

namespace LazyLisp

def OpenForm.moved (k : Nat) : OpenForm → OpenForm
  | quotation head => quotation head
  | list start items => list (start + k) items
  | dotted start items tail => dotted (start + k) items tail

def Move.moved (k : Nat) : Move → Move
  | complete d => complete d
  | stay stack => stay (stack.map (OpenForm.moved k))

def ReadFailure.moved (k : Nat) : ReadFailure → ReadFailure
  | error e => error (e.moved k)
  | breakdown b => breakdown b

section MapError

variable {α ε ε' : Type} (f : ε → ε')

@[simp]
theorem mapError_ok (a : α) : (Except.ok a : Except ε α).mapError f = .ok a := rfl

@[simp]
theorem mapError_error (e : ε) : (Except.error e : Except ε α).mapError f = .error (f e) := rfl

end MapError

theorem Atom.unescapeFrom_moved (soFar : List Char) (pos k : Nat) (body : List Char) :
    unescapeFrom soFar (pos + k) body =
      (unescapeFrom soFar pos body).mapError (ReadFailure.moved k) := by
  fun_induction unescapeFrom soFar pos body with
  | case1 => simp [unescapeFrom]
  | case2 => simp [unescapeFrom, ReadFailure.moved]
  | case3 soFar pos c rest d known ih =>
    rw [← ih, unescapeFrom, known, Nat.add_right_comm]
  | case4 soFar pos c rest unknown =>
    simp [unescapeFrom, unknown, ReadFailure.moved, ReadError.moved,
      Nat.add_right_comm]
  | case5 soFar pos c rest noStray noEscape ih =>
    rw [← ih, unescapeFrom, Nat.add_right_comm]
    · exact noStray
    · exact noEscape

theorem Atom.unescape_moved (literal : List Char) (pos k : Nat) :
    unescape literal (pos + k) = (unescape literal pos).mapError (ReadFailure.moved k) := by
  rw [unescape, unescape, unescapeFrom_moved]
  cases unescapeFrom [] pos (literal.drop 1).dropLast <;> rfl

theorem Atom.wantsMore_of_unescape {literal : List Char} {offset : Nat} {f : ReadFailure}
    (failed : unescape literal offset = .error f) : f.wantsMore = false := by
  have decodes (soFar : List Char) (pos : Nat) (body : List Char)
      (failed : unescapeFrom soFar pos body = .error f) : f.wantsMore = false := by
    fun_induction unescapeFrom soFar pos body with
    | case1 => simp at failed
    | case2 =>
      cases failed
      rfl
    | case3 _ _ _ _ _ _ ih => exact ih failed
    | case4 =>
      cases failed
      rfl
    | case5 _ _ _ _ _ _ ih => exact ih failed
  apply decodes [] offset (literal.drop 1).dropLast
  rw [unescape] at failed
  cases body : unescapeFrom [] offset (literal.drop 1).dropLast with
  | ok text =>
    rw [body] at failed
    cases failed
  | error e =>
    rw [body] at failed
    cases failed
    rfl

namespace Move

theorem fill_moved (k : Nat) (d : Datum) (stack : List OpenForm) :
    fill d (stack.map (OpenForm.moved k)) = (fill d stack).moved k := by
  fun_induction fill d stack with
  | case1 => rfl
  | case2 d head stack ih => exact ih
  | case3 => rfl
  | case4 => rfl

theorem begin_moved (k : Nat) (stack : List OpenForm) (t : Token) :
    begin (stack.map (OpenForm.moved k)) (t.moved k) =
      ((begin stack t).map (Move.moved k)).mapError (ReadFailure.moved k) := by
  have text : (t.moved k).text = t.text := rfl
  have start : (t.moved k).start = t.start + k := rfl
  have dot : (t.moved k).isDot = t.isDot := rfl
  have kind : (t.moved k).kind = t.kind := rfl
  unfold begin
  rw [kind, text, start, dot]
  cases t.kind with
  | word =>
    by_cases isDot : t.isDot
    · simp [isDot, Except.map, ReadFailure.moved, ReadError.moved]
    · cases Atom.ofWord t.text.toList <;>
        simp [isDot, fill_moved, Except.map, ReadFailure.moved]
  | quote | unquote =>
    cases OpenForm.quotationHead? t.text <;>
      simp [Except.map, ReadFailure.moved, Move.moved, OpenForm.moved]
  | leftParen => rfl
  | rightParen => rfl
  | char =>
    cases Atom.ofCharLiteral t.text.toList <;>
      simp [fill_moved, Except.map, ReadFailure.moved]
  | string =>
    simp only [Atom.unescape_moved]
    cases Atom.unescape t.text.toList t.start <;>
      simp [fill_moved, Except.map]
  | other name => rfl

/-- The parser makes the same move further to the right. -/
theorem feed_moved (k : Nat) (stack : List OpenForm) (t : Token) :
    feed (stack.map (OpenForm.moved k)) (t.moved k) =
      ((feed stack t).map (Move.moved k)).mapError (ReadFailure.moved k) := by
  have kind : (t.moved k).kind = t.kind := rfl
  have dot : (t.moved k).isDot = t.isDot := rfl
  match stack with
  | [] => exact begin_moved k [] t
  | .quotation head :: below => exact begin_moved k (.quotation head :: below) t
  | .dotted start items none :: below => exact begin_moved k (.dotted start items none :: below) t
  | .dotted start items (some tail) :: below =>
    simp only [List.map_cons, OpenForm.moved, feed, kind, fill_moved]
    split <;> rfl
  | .list start items :: below =>
    have begins := begin_moved k (.list start items :: below) t
    simp only [List.map_cons, OpenForm.moved] at begins
    simp only [List.map_cons, OpenForm.moved, feed, kind, dot, begins, fill_moved]
    (repeat' split) <;> rfl

theorem missing_moved (k : Nat) (stack : List OpenForm) (pos : Nat) :
    missing (stack.map (OpenForm.moved k)) (pos + k) = (missing stack pos).moved k := by
  match stack with
  | [] => rfl
  | .quotation _ :: _ => rfl
  | .list _ _ :: _ => rfl
  | .dotted _ _ none :: _ => rfl
  | .dotted _ _ (some _) :: _ => rfl

theorem wantsMore_missing (stack : List OpenForm) (pos : Nat) :
    (missing stack pos).issue.wantsMore = true := by
  unfold missing
  split <;> rfl

theorem fill_ne_stay_nil {d : Datum} {stack : List OpenForm} : fill d stack ≠ .stay [] := by
  fun_induction fill d stack with
  | case1 => simp
  | case2 d head stack ih => exact ih
  | case3 => simp
  | case4 => simp

theorem feed_ne_stay_nil {stack : List OpenForm} {t : Token} : feed stack t ≠ .ok (.stay []) := by
  have begins : begin stack t ≠ .ok (.stay []) := by
    unfold begin
    (repeat' split) <;> simp [fill_ne_stay_nil]
  unfold feed
  (repeat' split) <;> simp_all [fill_ne_stay_nil]

theorem wantsMore_of_begin {stack : List OpenForm} {t : Token} {f : ReadFailure}
    (begun : begin stack t = .error f) : f.wantsMore = false := by
  unfold begin at begun
  split at begun
  case h_7 =>
    split at begun
    · cases begun
    · next failed =>
      cases begun
      exact Atom.wantsMore_of_unescape failed
  all_goals
    (repeat' split at begun) <;> cases begun
    all_goals rfl

/-- What the parser complains about, no further token can mend. -/
theorem wantsMore_of_feed {stack : List OpenForm} {t : Token} {f : ReadFailure}
    (fed : feed stack t = .error f) : f.wantsMore = false := by
  unfold feed at fed
  split at fed
  · split at fed <;> cases fed
    rfl
  · split at fed
    · cases fed
    · split at fed
      · split at fed <;> cases fed
        rfl
      · exact wantsMore_of_begin fed
  · exact wantsMore_of_begin fed

end Move

namespace ParsedForms

def moved (k : Nat) (p : ParsedForms) : ParsedForms :=
  ⟨p.forms.map fun (d, stop) => (d, stop + k), p.failure.map (ReadFailure.moved k), p.stop + k⟩

def behind (forms : List (Datum × Nat)) (p : ParsedForms) : ParsedForms :=
  { p with forms := forms ++ p.forms }

end ParsedForms

theorem parseFormsFrom_eq (failure : Option ReadError) (done : Array (Datum × Nat))
    (stack : List OpenForm) (pos : Nat) (ts : List Token) :
    parseFormsFrom failure done stack pos ts =
      (parseFormsFrom failure #[] stack pos ts).behind done.toList := by
  induction ts generalizing done stack pos with
  | nil => simp [parseFormsFrom, ParsedForms.behind]
  | cons t ts ih =>
    cases fed : Move.feed stack t with
    | error f => simp [parseFormsFrom, fed, ParsedForms.behind]
    | ok move =>
      cases move with
      | stay below => simpa [parseFormsFrom, fed] using ih done below t.stop
      | complete d =>
        simp only [parseFormsFrom, fed]
        rw [ih (done.push (d, t.stop)), ih (#[].push (d, t.stop))]
        simp [ParsedForms.behind]

/-- The place of the tokens does not matter to the forms. -/
theorem parseFormsFrom_moved (k : Nat) (failure : Option ReadError) (stack : List OpenForm)
    (pos : Nat) (ts : List Token) :
    parseFormsFrom (failure.map (ReadError.moved k)) #[] (stack.map (OpenForm.moved k)) (pos + k)
        (ts.map (Token.moved k)) =
      (parseFormsFrom failure #[] stack pos ts).moved k := by
  induction ts generalizing stack pos with
  | nil => 
    cases failure <;> cases stack <;>
      simp [parseFormsFrom, ParsedForms.moved, ReadFailure.moved, ← Move.missing_moved]
  | cons t ts ih =>
    have later := Move.feed_moved k stack t
    have stop : (t.moved k).stop = t.stop + k := rfl
    cases fed : Move.feed stack t with
    | error f =>
      rw [fed] at later
      simp [parseFormsFrom, fed, later, ParsedForms.moved, Except.map, stop]
    | ok move =>
      rw [fed] at later
      cases move with
      | stay below =>
        simp only [List.map_cons, parseFormsFrom, fed, later, Except.map, mapError_ok,
          Move.moved, stop]
        exact ih below t.stop
      | complete d =>
        simp only [List.map_cons, parseFormsFrom, fed, later, Except.map, mapError_ok,
          Move.moved, stop]
        have rest := ih [] t.stop
        rw [parseFormsFrom_eq, parseFormsFrom_eq _ (#[].push (d, t.stop))]
        simp only [List.map_nil] at rest
        rw [rest]
        simp [ParsedForms.behind, ParsedForms.moved]

section Step

variable {failure : Option ReadError} {stack : List OpenForm} {pos stop : Nat} {ts : List Token}

/-- The first form of a row of tokens, and the tokens behind it. -/
theorem parseFormsFrom_of_form {d : Datum} (done : Array (Datum × Nat))
    (parsed : parseFormFrom failure stack pos ts = .form d stop) :
    ∃ front t back, ts = front ++ t :: back ∧ t.stop = stop ∧
      parseFormsFrom failure done stack pos ts =
        parseFormsFrom failure (done.push (d, stop)) [] stop back := by
  induction ts generalizing stack pos with
  | nil => simp [parseFormFrom] at parsed
  | cons t ts ih =>
    rw [parseFormFrom] at parsed
    rw [parseFormsFrom]
    split at parsed
    · next e fed =>
      obtain ⟨rfl, rfl⟩ := ParsedForm.form.inj parsed
      exact ⟨[], t, ts, rfl, rfl, rfl⟩
    · next below fed =>
      obtain ⟨front, u, back, rfl, rfl, same⟩ := ih parsed
      exact ⟨t :: front, u, back, rfl, rfl, same⟩
    · simp at parsed

/-- Where the first form fails, so do the forms, except at the end of the tokens. -/
theorem parseFormsFrom_of_failed {f : ReadFailure} (done : Array (Datum × Nat))
    (parsed : parseFormFrom failure stack pos ts = .failed f stop)
    (begun : failure ≠ none ∨ stack ≠ [] ∨ ts ≠ []) :
    parseFormsFrom failure done stack pos ts = ⟨done.toList, some f, stop⟩ := by
  induction ts generalizing stack pos with
  | nil =>
    obtain ⟨rfl, rfl⟩ := ParsedForm.failed.inj parsed
    cases failure with
    | some e => simp [parseFormsFrom]
    | none =>
      have opened : stack ≠ [] := by simpa using begun
      simp [parseFormsFrom, opened]
  | cons t ts ih =>
    rw [parseFormFrom] at parsed
    rw [parseFormsFrom]
    split at parsed
    · simp at parsed
    · next below fed =>
      refine ih parsed (.inr (.inl ?_))
      rintro rfl
      exact Move.feed_ne_stay_nil fed
    · next e fed =>
      obtain ⟨rfl, rfl⟩ := ParsedForm.failed.inj parsed
      rfl

/-- A form or a failure that no further token can mend is found again when tokens are added. -/
theorem parseFormFrom_append {longer : List Token} (starts : ts <+: longer)
    (wants : ∀ e ∈ failure, e.issue.wantsMore = true)
    (settled : ∀ f stop, parseFormFrom failure stack pos ts = .failed f stop → f.wantsMore = false)
    (later : Option ReadError) :
    parseFormFrom later stack pos longer = parseFormFrom failure stack pos ts := by
  induction ts generalizing stack pos longer with
  | nil =>
    have settled := settled _ _ rfl
    cases failure with
    | none => simp [ReadFailure.wantsMore, Move.wantsMore_missing] at settled
    | some e => simp [ReadFailure.wantsMore, wants e rfl] at settled
  | cons t ts ih =>
    obtain ⟨added, rfl⟩ := starts
    rw [List.cons_append, parseFormFrom, parseFormFrom]
    rw [parseFormFrom] at settled
    split
    · rfl
    · next below fed =>
      simp only [fed] at settled
      exact ih (List.prefix_append ts added) settled
    · rfl

end Step

end LazyLisp
