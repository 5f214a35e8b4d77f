import LazyLisp.Outline
import LazyLisp.Proofs.WholeTexts

/-!
Passing over a form without parsing it.

The search for definitions counts parentheses where the parser keeps a stack. The count is the
number of lists on the stack, and only quotation marks may stand in front of the form while no list
is open. So the search and the parser go over the same tokens until the form is complete, whatever
the tokens are; and where there is no complete form, the search still passes over something.
-/

namespace LazyLisp

namespace Outline

def skipOpen (depth : Nat) (ts : List Token) : List Token :=
  if depth = 0 then skipForm ts else skipList depth ts

@[simp]
theorem skipOpen_zero (ts : List Token) : skipOpen 0 ts = skipForm ts := rfl

@[simp]
theorem skipOpen_succ (depth : Nat) (ts : List Token) :
    skipOpen (depth + 1) ts = skipList (depth + 1) ts := rfl

/-- The search ends behind a token that leaves nothing open, and goes on behind any other. -/
theorem skipOpen_cons (depth marks : Nat) (t : Token) (rest : List Token) :
    skipOpen depth (t :: rest) =
      let (depth, marks, _) := nestingStep (depth, marks, 0) t
      if depth = 0 ∧ marks = 0 then rest else skipOpen depth rest := by
  cases depth with
  | zero => cases kind : t.kind <;> simp [skipForm, nestingStep, kind, Token.Kind.isQuotation]
  | succ depth =>
    cases kind : t.kind
    case rightParen => cases depth <;> simp [skipList, nestingStep, kind]
    all_goals simp [skipList, nestingStep, kind, Token.Kind.isQuotation]

end Outline

theorem openCounts_eq_zero_iff {stack : List OpenForm} : openCounts stack = (0, 0) ↔ stack = [] := by
  cases stack with
  | nil => simp [openCounts]
  | cons opened below => cases opened <;> simp [openCounts]

namespace Move

variable {stack below : List OpenForm} {t : Token} {front : List Token} {d : Datum}

theorem skipOpen_of_stay (fed : feed stack t = .ok (.stay below)) (rest : List Token) :
    Outline.skipOpen (openCounts stack).1 (t :: rest) =
      Outline.skipOpen (openCounts below).1 rest := by
  have counts : nestingCounts stack t = openCounts below := counts_feed fed
  have opened : openCounts below ≠ (0, 0) := by
    intro none
    obtain rfl := openCounts_eq_zero_iff.mp none
    exact feed_ne_stay_nil fed
  rw [Outline.skipOpen_cons _ (openCounts stack).2]
  simp only [nestingCounts] at counts
  simp only [← counts, ne_eq, Prod.mk.injEq] at opened ⊢
  exact if_neg opened

theorem skipOpen_of_complete (fed : feed stack t = .ok (.complete d)) (rest : List Token) :
    Outline.skipOpen (openCounts stack).1 (t :: rest) = rest := by
  have counts : nestingCounts stack t = (0, 0) := counts_feed fed
  rw [Outline.skipOpen_cons _ (openCounts stack).2]
  simp only [nestingCounts, Prod.mk.injEq] at counts
  exact if_pos counts

theorem Leads.skipOpen_append (leads : Leads stack front (.complete d)) (rest : List Token) :
    Outline.skipOpen (openCounts stack).1 (front ++ rest) = rest := by
  generalize same : Move.complete d = ending at leads
  induction leads with
  | last fed =>
    subst same
    exact skipOpen_of_complete fed rest
  | next fed _ ih =>
    rw [List.cons_append, skipOpen_of_stay fed]
    exact ih same

theorem Leads.ne_nil {move : Move} (leads : Leads stack front move) : front ≠ [] := by
  cases leads <;> simp

theorem Leads.skipForm_append (leads : Leads [] front (.complete d)) (rest : List Token) :
    Outline.skipForm (front ++ rest) = rest := leads.skipOpen_append rest

/-- The form, once complete, does not depend on what follows. -/
theorem Leads.parseFormFrom_append (leads : Leads stack front (.complete d))
    (failure : Option ReadError) (pos : Nat) (rest : List Token) :
    parseFormFrom failure stack pos (front ++ rest) = .form d (lastStop pos front) := by
  generalize same : Move.complete d = ending at leads
  induction leads generalizing pos with
  | last fed =>
    subst same
    simp [parseFormFrom, fed]
  | @next stack below t ts ending fed _ ih => simpa [parseFormFrom, fed] using ih t.stop same

end Move

namespace Outline

variable {ts front rest : List Token} {i : Nat}

theorem skipList_suffix (depth : Nat) (ts : List Token) : skipList depth ts <:+ ts := by
  induction ts generalizing depth with
  | nil => exact List.suffix_rfl
  | cons t ts ih =>
    have behind (depth : Nat) : skipList depth ts <:+ t :: ts :=
      (ih depth).trans (List.suffix_cons t ts)
    rw [skipList]
    split
    · exact behind _
    · split
      · exact List.suffix_cons t ts
      · exact behind _
    · exact behind _

theorem skipForm_suffix (t : Token) (ts : List Token) : skipForm (t :: ts) <:+ ts := by
  have marked : (t :: ts).dropWhile (·.kind.isQuotation) <:+ t :: ts := List.dropWhile_suffix _
  rw [skipForm]
  split
  · exact List.nil_suffix
  · next u rest left =>
    rw [left] at marked
    obtain ⟨front, whole⟩ := marked
    have behind : rest <:+ ts := by
      cases front with
      | nil =>
        obtain ⟨-, rfl⟩ := List.cons.inj whole
        exact List.suffix_rfl
      | cons mark front =>
        obtain ⟨-, rfl⟩ := List.cons.inj whole
        exact (List.suffix_cons u rest).trans (List.suffix_append front _)
    split
    · exact (skipList_suffix 1 rest).trans behind
    · exact behind

/-- The place behind the form at a place in a row of tokens. -/
def formEnd (ts : List Token) (i : Nat) : Nat := ts.length - (skipForm (ts.drop i)).length

theorem drop_formEnd (ts : List Token) (i : Nat) : ts.drop (formEnd ts i) = skipForm (ts.drop i) := by
  have left : skipForm (ts.drop i) <:+ ts := by
    cases row : ts.drop i with
    | nil => exact List.nil_suffix
    | cons t rest =>
      have behind : t :: rest <:+ ts := row ▸ List.drop_suffix i ts
      exact (skipForm_suffix t rest).trans ((List.suffix_cons t rest).trans behind)
  exact (List.suffix_iff_eq_drop.mp left).symm

theorem formEnd_bounds (inside : i < ts.length) : i < formEnd ts i ∧ formEnd ts i ≤ ts.length := by
  have row := List.drop_eq_getElem_cons inside
  have shorter := (skipForm_suffix ts[i] (ts.drop (i + 1))).length_le
  rw [List.length_drop, ← row] at shorter
  unfold formEnd
  omega

theorem formEnd_of_skipForm (row : ts.drop i = front ++ rest)
    (skipped : skipForm (ts.drop i) = rest) (nonempty : front ≠ []) :
    formEnd ts i = i + front.length := by
  have count := congrArg List.length row
  have positive := List.length_pos_iff.mpr nonempty
  rw [List.length_drop, List.length_append] at count
  rw [formEnd, skipped]
  omega

/-- The parser takes these tokens for a form, the last one completes it, and the form is the same
whatever follows. -/
structure TakenFor (front : List Token) (d : Datum) : Prop where
  leads : Move.Leads [] front (.complete d)
  parsed : ∀ failure pos rest,
    parseFormFrom failure [] pos (front ++ rest) = .form d (lastStop pos front)

theorem takenFor_of_leads {d : Datum} (leads : Move.Leads [] front (.complete d)) :
    TakenFor front d := ⟨leads, leads.parseFormFrom_append⟩

theorem formEnd_of_leads {d : Datum} (row : ts.drop i = front ++ rest)
    (leads : Move.Leads [] front (.complete d)) : formEnd ts i = i + front.length := by
  have skipped : skipForm (ts.drop i) = rest := by
    rw [row]
    exact leads.skipForm_append rest
  exact formEnd_of_skipForm row skipped leads.ne_nil

/-- Where a form of the grammar stands, passing over it takes the tokens that the parser takes for
it, and so wherever the parser takes tokens for a form. Elsewhere at least one token is passed over
and no more than there are. -/
theorem formEnd_agrees (ts : List Token) (i : Nat) :
    (∀ (tree : Tree) rest, tree.Valid → ts.drop i = tree.tokens ++ rest →
      TakenFor tree.tokens tree.datum ∧ formEnd ts i = i + tree.tokens.length) ∧
    (∀ front rest d, ts.drop i = front ++ rest → TakenFor front d →
      formEnd ts i = i + front.length) ∧
    (i < ts.length → i + 1 ≤ formEnd ts i ∧ formEnd ts i ≤ ts.length) ∧
    skipForm (ts.drop i) = ts.drop (formEnd ts i) := by
  refine ⟨?_, ?_, formEnd_bounds, (drop_formEnd ts i).symm⟩
  · intro tree rest valid row
    have leads : Move.Leads [] tree.tokens (.complete tree.datum) := valid.leads trivial
    exact ⟨takenFor_of_leads leads, formEnd_of_leads row leads⟩
  · exact fun front rest d row taken => formEnd_of_leads row taken.leads

def quotedDotted : Tree :=
  .quotation ⟨.quote, "'", 1, 2⟩ "quote"
    (.dotted ⟨.leftParen, "(", 2, 3⟩ [.leaf ⟨.word, "a", 3, 4⟩ (.symbol "a")] ⟨.word, ".", 5, 6⟩
      (.list ⟨.leftParen, "(", 7, 8⟩ [.leaf ⟨.string, "\")\"", 8, 11⟩ (.string ")")]
        ⟨.rightParen, ")", 11, 12⟩)
      ⟨.rightParen, ")", 12, 13⟩)

theorem valid_quotedDotted : quotedDotted.Valid := by
  have name : (Tree.leaf ⟨.word, "a", 3, 4⟩ (.symbol "a")).Valid := .leaf (.word rfl rfl rfl)
  have parenthesis : Escaped [')'] [')'] := .plain (by decide) .nil
  have text : (Tree.leaf ⟨.string, "\")\"", 8, 11⟩ (.string ")")).Valid :=
    .leaf (.string rfl rfl parenthesis)
  refine .quotation rfl rfl (.dotted rfl rfl rfl (by simp) ?_ (.list rfl rfl ?_))
  · simpa using name
  · simpa using text

def openRow : List Token := (lex "('(a . (\")\")) b".toList).tokens

theorem formEnd_agrees_quotedDotted :
    quotedDotted.Valid ∧
    openRow.drop 1 = quotedDotted.tokens ++ [⟨.word, "b", 14, 15⟩] ∧
    TakenFor quotedDotted.tokens quotedDotted.datum ∧ formEnd openRow 1 = 9 ∧
    0 < openRow.length ∧ 0 + 1 ≤ formEnd openRow 0 ∧ formEnd openRow 0 ≤ 10 := by
  have row : openRow.drop 1 = quotedDotted.tokens ++ [⟨.word, "b", 14, 15⟩] := by decide +kernel
  have count : openRow.length = 10 := by decide +kernel
  have form := (formEnd_agrees openRow 1).1 quotedDotted _ valid_quotedDotted row
  have taken := (formEnd_agrees openRow 1).2.1 _ _ _ row form.1
  have bounds := (formEnd_agrees openRow 0).2.2.1 (by omega)
  exact ⟨valid_quotedDotted, row, form.1, taken, by omega, bounds.1, count ▸ bounds.2⟩

end Outline

end LazyLisp
