import LazyLisp.Proofs.Acceptance
import LazyLisp.Proofs.Tiling

/-!
Texts that can be read.

A text can be read if the lexer has no complaint about it, the parser takes all of its tokens and
holds nothing open at their end, and they do not nest too deep. Each of the three is known of a row
of tokens that is put together from two rows, if the first one leaves nothing open: its parentheses
and marks are then no part of the nesting of the second one.
-/

namespace LazyLisp

namespace Move.Reads

variable {stack middle last other : List OpenForm} {ts us : List Token} {ds es : List Datum}

/-- Behind a run there is only one way to go on. -/
theorem append_iff (first : Reads stack ts ds middle) :
    Reads stack (ts ++ us) es last ↔ ∃ fs, es = ds ++ fs ∧ Reads middle us fs last := by
  constructor
  · intro whole
    induction first generalizing es with
    | done => exact ⟨es, rfl, whole⟩
    | stay fed _ ih =>
      cases whole with
      | stay fed' rest =>
        cases fed.symm.trans fed'
        exact ih rest
      | complete fed' rest => cases fed.symm.trans fed'
    | complete fed _ ih =>
      cases whole with
      | stay fed' rest => cases fed.symm.trans fed'
      | complete fed' rest =>
        cases fed.symm.trans fed'
        obtain ⟨fs, rfl, second⟩ := ih rest
        exact ⟨fs, rfl, second⟩
  · rintro ⟨fs, rfl, second⟩
    exact first.append second

theorem unique (first : Reads stack ts ds last) (second : Reads stack ts es other) :
    es = ds ∧ other = last := by
  rw [← List.append_nil ts] at second
  obtain ⟨fs, rfl, nothing⟩ := first.append_iff.mp second
  cases nothing
  simp

theorem moved (reads : Reads stack ts ds last) (k : Nat) :
    Reads (stack.map (OpenForm.moved k)) (ts.map (Token.moved k)) ds
      (last.map (OpenForm.moved k)) := by
  induction reads with
  | done => exact .done
  | @stay stack below t ts ds last fed _ ih =>
    have later := feed_moved k stack t
    rw [fed] at later
    exact .stay later ih
  | @complete stack t d ts ds last fed _ ih =>
    have later := feed_moved k stack t
    rw [fed] at later
    exact .complete later ih

/-- The place of the tokens does not matter to whether they can be read. -/
theorem moved_iff {k : Nat} : Reads [] (ts.map (Token.moved k)) ds [] ↔ Reads [] ts ds [] := by
  refine ⟨fun later => ?_, fun reads => reads.moved k⟩
  rcases reads_or_fails [] ts with ⟨es, last, reads⟩ |
      ⟨front, t, back, es, middle, f, rfl, reads, fails⟩
  · obtain ⟨rfl, same⟩ := (reads.moved k).unique later
    obtain rfl := List.map_eq_nil_iff.mp same.symm
    exact reads
  · have failsLater := feed_moved k middle t
    rw [fails] at failsLater
    rw [List.map_append, List.map_cons] at later
    exact (later.not_fails (reads.moved k) failsLater).elim

end Move.Reads

/-- What one token adds to the parentheses that are open, the marks in front of the same form, and
the most that have been open. -/
def nestingStep : Nat × Nat × Nat → Token → Nat × Nat × Nat
  | (depth, marks, most), t =>
    match t.kind with
    | .leftParen => (depth + 1, 0, max most (depth + 1))
    | .rightParen => (depth - 1, 0, most)
    | kind => if kind.isQuotation then (depth, marks + 1, max most (depth + marks + 1))
      else (depth, 0, most)

theorem nesting_eq (ts : List Token) : nesting ts = (ts.foldl nestingStep (0, 0, 0)).2.2 := rfl

theorem nesting_moved (k : Nat) (ts : List Token) :
    nesting (ts.map (Token.moved k)) = nesting ts := by
  rw [nesting_eq, nesting_eq, List.foldl_map]
  rfl

/-- What was open before matters only if it is more than all that is open later. -/
theorem nestingStep_eq (depth marks most : Nat) (t : Token) :
    nestingStep (depth, marks, most) t =
      ((nestingStep (depth, marks, 0) t).1, (nestingStep (depth, marks, 0) t).2.1,
        max most (nestingStep (depth, marks, 0) t).2.2) := by
  cases kind : t.kind <;> simp [nestingStep, kind, Token.Kind.isQuotation]

theorem foldl_nestingStep (ts : List Token) (depth marks most : Nat) :
    ts.foldl nestingStep (depth, marks, most) =
      ((ts.foldl nestingStep (depth, marks, 0)).1, (ts.foldl nestingStep (depth, marks, 0)).2.1,
        max most (ts.foldl nestingStep (depth, marks, 0)).2.2) := by
  induction ts generalizing depth marks most with
  | nil => simp
  | cons t ts ih =>
    rw [List.foldl_cons, List.foldl_cons, nestingStep_eq]
    obtain ⟨depth', marks', opened⟩ := nestingStep (depth, marks, 0) t
    rw [ih depth' marks' (max most opened), ih depth' marks' opened, Nat.max_assoc]

/-- The parentheses that a stack holds open, and the marks in front of the same form. -/
def openCounts : List OpenForm → Nat × Nat
  | [] => (0, 0)
  | .quotation _ :: below => ((openCounts below).1, (openCounts below).2 + 1)
  | .list _ _ :: below | .dotted _ _ _ :: below => ((openCounts below).1 + 1, 0)

namespace Move

variable {stack below : List OpenForm} {t : Token} {d e : Datum}

def counts : Move → Nat × Nat
  | complete _ => (0, 0)
  | stay stack => openCounts stack

theorem counts_fill (d : Datum) (stack : List OpenForm) :
    (fill d stack).counts = ((openCounts stack).1, 0) := by
  fun_induction fill d stack with
  | case1 => rfl
  | case2 d head stack ih => exact ih
  | case3 => rfl
  | case4 => rfl

def nestingCounts (stack : List OpenForm) (t : Token) : Nat × Nat :=
  let state := nestingStep ((openCounts stack).1, (openCounts stack).2, 0) t
  (state.1, state.2.1)

theorem counts_begin {move : Move} (begun : begin stack t = .ok move) :
    nestingCounts stack t = move.counts := by
  unfold begin at begun
  split at begun <;> (repeat' split at begun) <;> cases begun <;>
    simp_all [nestingCounts, nestingStep, Token.Kind.isQuotation, counts_fill] <;> rfl

theorem counts_feed {move : Move} (fed : feed stack t = .ok move) :
    nestingCounts stack t = move.counts := by
  unfold feed at fed
  split at fed
  · split at fed <;> cases fed
    simp_all [nestingCounts, nestingStep, counts_fill, openCounts]
  · split at fed
    · cases fed
      simp_all [nestingCounts, nestingStep, counts_fill, openCounts]
    · split at fed
      · next dot =>
        split at fed <;> cases fed
        simp [nestingCounts, nestingStep, Token.kind_of_isDot dot, Token.Kind.isQuotation, counts,
          openCounts]
      · exact counts_begin fed
  · exact counts_begin fed

namespace Reads

variable {last : List OpenForm} {ts us : List Token} {ds : List Datum}

theorem exists_foldl_eq (reads : Reads stack ts ds last) (most : Nat) :
    ∃ most', ts.foldl nestingStep ((openCounts stack).1, (openCounts stack).2, most) =
      ((openCounts last).1, (openCounts last).2, most') := by
  induction reads generalizing most with
  | done => exact ⟨most, rfl⟩
  | stay fed _ ih =>
    obtain ⟨depth, marks⟩ := Prod.mk.inj (counts_feed fed)
    rw [List.foldl_cons, nestingStep_eq, depth, marks]
    exact ih _
  | complete fed _ ih =>
    obtain ⟨depth, marks⟩ := Prod.mk.inj (counts_feed fed)
    rw [List.foldl_cons, nestingStep_eq, depth, marks]
    exact ih _

theorem nesting_append (reads : Reads [] ts ds []) :
    nesting (ts ++ us) = max (nesting ts) (nesting us) := by
  obtain ⟨most, ended⟩ := reads.exists_foldl_eq 0
  have ended : ts.foldl nestingStep (0, 0, 0) = (0, 0, most) := ended
  simp only [nesting_eq, List.foldl_append, ended]
  rw [foldl_nestingStep us 0 0 most]

end Reads

end Move

section ReadAll

variable {limit : Option Nat} {text : List Char} {ds : List Datum}

theorem stop_le_lastStop {pos : Nat} {ts : List Token}
    (ordered : ts.Pairwise fun t u => t.stop ≤ u.start) (proper : ∀ t ∈ ts, t.start ≤ t.stop)
    {t : Token} (member : t ∈ ts) : t.stop ≤ lastStop pos ts := by
  induction ts generalizing pos t with
  | nil => cases member
  | cons u ts ih =>
    obtain ⟨first, orderedRest⟩ := List.pairwise_cons.mp ordered
    have properRest : ∀ v ∈ ts, v.start ≤ v.stop :=
      fun v among => proper v (List.mem_cons_of_mem u among)
    rcases List.mem_cons.mp member with rfl | among
    · cases ts with
      | nil => exact Nat.le_refl _
      | cons v ts =>
        calc t.stop ≤ v.start := first v List.mem_cons_self
          _ ≤ v.stop := properRest v List.mem_cons_self
          _ ≤ lastStop t.stop (v :: ts) := ih orderedRest properRest List.mem_cons_self
    · exact ih orderedRest properRest among

theorem exceeds_lastStop :
    (lex text).exceeds limit (lastStop 0 (lex text).tokens) = false ↔
      ∀ most ∈ limit, nesting (lex text).tokens ≤ most := by
  have ordered := (tiles_lex text).pairwise
  have proper : ∀ t ∈ (lex text).tokens, t.start ≤ t.stop :=
    fun t member => (bounds_of_mem_lex member).2.1.le
  have all : (lex text).tokens.takeWhile (·.stop ≤ lastStop 0 (lex text).tokens) =
      (lex text).tokens := by
    rw [List.takeWhile_eq_self_iff]
    intro t member
    exact decide_eq_true (stop_le_lastStop ordered proper member)
  rw [Lexed.exceeds, all]
  cases limit <;> simp

/-- Where the parser takes all tokens, a text that does not nest too deep fails only where the lexer
stopped, or because something is open at its end. -/
theorem readAll_of_reads {last : List OpenForm} (reads : Move.Reads [] (lex text).tokens ds last) :
    readAll limit text =
      if (lex text).exceeds limit (lastStop 0 (lex text).tokens) then
        .error (.breakdown .nestedTooDeep)
      else match (lex text).failure, last with
        | some e, _ => .error (.error e)
        | none, [] => .ok ds
        | none, opened :: below =>
          .error (.error (Move.missing (opened :: below) (lastStop 0 (lex text).tokens))) := by
  obtain ⟨forms, same, parsed⟩ := reads.parseFormsFrom_append (lex text).failure #[] 0
  have ended := parsed []
  rw [List.append_nil] at ended
  rw [readAll, parseForms, ended]
  cases (lex text).failure <;> cases last <;> simp_all [parseFormsFrom]

/-- Where the parser fails at a token, the text behind it does not matter. -/
theorem readAll_of_fails {front back : List Token} {t : Token} {middle : List OpenForm}
    {f : ReadFailure} (cut : (lex text).tokens = front ++ t :: back)
    (reads : Move.Reads [] front ds middle) (fails : Move.feed middle t = .error f) :
    readAll limit text =
      if (lex text).exceeds limit t.stop then .error (.breakdown .nestedTooDeep) else .error f := by
  obtain ⟨forms, -, parsed⟩ := reads.parseFormsFrom_append (lex text).failure #[] 0
  have failed := parsed (t :: back)
  rw [← cut, parseFormsFrom, fails] at failed
  rw [readAll, parseForms, failed]

/-- A text can be read if and only if it is cut into tokens, the parser takes all of them, and they
do not nest too deep. -/
theorem readAll_eq_ok_iff : readAll limit text = .ok ds ↔
    (lex text).failure = none ∧ Move.Reads [] (lex text).tokens ds [] ∧
      ∀ most ∈ limit, nesting (lex text).tokens ≤ most := by
  rw [← exceeds_lastStop]
  rcases Move.reads_or_fails [] (lex text).tokens with ⟨es, last, reads⟩ |
      ⟨front, t, back, es, middle, f, cut, reads, fails⟩
  · have same : Move.Reads [] (lex text).tokens ds [] ↔ es = ds ∧ last = [] := by
      refine ⟨fun whole => whole.unique reads, ?_⟩
      rintro ⟨rfl, rfl⟩
      exact reads
    rw [readAll_of_reads reads, same]
    cases (lex text).exceeds limit (lastStop 0 (lex text).tokens) <;>
      cases (lex text).failure <;> cases last <;> simp
  · have impossible : ¬ Move.Reads [] (lex text).tokens ds [] := by
      rw [cut]
      exact fun whole => whole.not_fails reads fails
    rw [readAll_of_fails cut reads fails]
    cases (lex text).exceeds limit t.stop <;> simp [impossible]

end ReadAll

end LazyLisp
