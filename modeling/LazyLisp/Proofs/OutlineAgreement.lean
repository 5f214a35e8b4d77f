import LazyLisp.Proofs.PrintedUnquotations
import LazyLisp.Proofs.Separators
import LazyLisp.Proofs.StoredDefinitions

/-!
Outlines agree with evaluation.

The outline of a text is made without evaluation, and without parsing. Where the text consists of the
printed forms of definitions, one on each line, it tells what evaluation makes of them: which names
are defined, whether for a value, a procedure or an expander, and which documentation the procedures
and expanders get.
-/

namespace LazyLisp

theorem Datum.Row.exists_last {inList : Bool} {d : Datum} {ts : List Token} (row : d.Row inList ts)
    (within : inList = true) : ∃ front closing, ts = front ++ [closing] ∧ closing.IsClose := by
  induction row with
  | nil | atom | quotation | list => cases within
  | @close closing closes => exact ⟨[], closing, rfl, closes⟩
  | @dotted a dot t closing _ _ _ closes => exact ⟨[dot, t], closing, rfl, closes⟩
  | @item car cdr ts us _ _ _ tail =>
    obtain ⟨front, closing, rfl, closes⟩ := tail rfl
    exact ⟨ts ++ front, closing, by simp, closes⟩

theorem Datum.not_marked_list {name : String} {cdr : Datum}
    (plain : Store.quotationMark? name = none) : ¬ (pair (.symbol name) cdr).Marked := by
  intro marked
  generalize same : pair (.symbol name) cdr = d at marked
  cases marked with
  | symbol => cases same
  | quotation named _ =>
    cases (Datum.pair.inj same).1
    rw [plain] at named
    cases named

namespace DefinitionForm

structure IsClear (form : DefinitionForm) : Prop where
  /-- The signature is not abbreviated. -/
  plain : Store.quotationMark? form.name = none
  /-- Nothing inside looks like a definition. -/
  once : ∀ name ∈ form.datum.symbols.tail, Outline.isDefining name = false
  /-- A form that makes a closure has parameters. -/
  takes : ∀ name args, form = .value name (.pair (.symbol "lambda") args) →
    ∃ params body, args = .pair params body

theorem exists_of_row (form : DefinitionForm) {ts : List Token} (row : form.datum.Row false ts) :
    ∃ opening head us, ts = opening :: head :: us ∧ opening.kind = .leftParen ∧
      ∃ front closing, us = front ++ [closing] ∧ closing.IsClose := by
  cases form <;>
  · obtain ⟨opening, head, us, rfl, opens, -, -, row⟩ := Outline.exists_of_row_list row rfl
    exact ⟨opening, head, us, rfl, opens, row.exists_last rfl⟩

theorem unmarked (form : DefinitionForm) : ¬ form.datum.Marked := by
  cases form <;> exact Datum.not_marked_list rfl

end DefinitionForm

namespace Outline

inductive Rows : List DefinitionForm → List Token → Prop where
  | nil : Rows [] []
  | cons {form forms ts us} : form.datum.Row false ts → Rows forms us → Rows (form :: forms) (ts ++ us)

namespace Rows

variable {forms : List DefinitionForm} {ts : List Token}

theorem moved (rows : Rows forms ts) (k : Nat) : Rows forms (ts.map (Token.moved k)) := by
  induction rows with
  | nil => exact .nil
  | cons row _ ih =>
    rw [List.map_append]
    exact .cons (row.moved k) ih

theorem head_ne_word (rows : Rows forms ts) : ∀ t ∈ ts.head?, t.kind ≠ .word := by
  cases rows with
  | nil => simp
  | @cons form _ _ _ row _ =>
    obtain ⟨opening, head, us, rfl, opens, -⟩ := form.exists_of_row row
    simp [opens]

/-- Every one of the definitions is found, and nothing else. -/
theorem findings (rows : Rows forms ts) (clear : ∀ form ∈ forms, form.IsClear) :
    List.Forall₂ (fun f form => f.token.text = form.name ∧ f.kind = form.kind ∧ f.doc = form.doc?)
      (findings ts) forms := by
  induction rows with
  | nil => exact .nil
  | @cons form forms ts us row rows ih =>
    rw [List.forall_mem_cons] at clear
    obtain ⟨⟨plain, once, takes⟩, clear⟩ := clear
    obtain ⟨t, named, found⟩ := findings_row form row plain once takes rows.head_ne_word
    rw [found]
    exact .cons ⟨named, rfl, rfl⟩ (ih clear)

end Rows

end Outline

structure ReadAs (limit : Option Nat) (text : List Char) (ts : List Token) (ds : List Datum) :
    Prop where
  lexed : lex text = ⟨ts, none⟩
  reads : Move.Reads [] ts ds []
  fits : ∀ most ∈ limit, nesting ts ≤ most

namespace ReadAs

variable {limit : Option Nat} {a b : List Char} {ts us : List Token} {ds es : List Datum}

theorem of_readAll (read : readAll limit a = .ok ds) (lexed : lex a = ⟨ts, none⟩) :
    ReadAs limit a ts ds := by
  rw [readAll_eq_ok_iff, lexed] at read
  exact ⟨lexed, read.2.1, read.2.2⟩

theorem readAll (read : ReadAs limit a ts ds) : readAll limit a = .ok ds := by
  rw [readAll_eq_ok_iff, read.lexed]
  exact ⟨rfl, read.reads, read.fits⟩

theorem append_line (first : ReadAs limit a ts ds) (second : ReadAs limit b us es)
    (whole : ¬ EndsInMark a) :
    ∃ k, ReadAs limit (a ++ '\n' :: b) (ts ++ us.map (Token.moved k)) (ds ++ es) := by
  have layout : Layout b [] := .nil
  obtain ⟨sound, k, tokens⟩ := lex_append_separator (by rw [first.lexed]) whole layout
  rw [first.lexed, second.lexed] at tokens
  have complete := sound.mpr (by rw [second.lexed])
  refine ⟨k, ?_, first.reads.append (Move.Reads.moved_iff.mpr second.reads), fun most bound => ?_⟩
  · rw [← tokens, ← complete]
    rfl
  · rw [first.reads.nesting_append, nesting_moved, Nat.max_le]
    exact ⟨first.fits most bound, second.fits most bound⟩

end ReadAs

/-- A definition that the evaluator accepts, with its printed form, from which it reads back. -/
structure PrintedDefinition (limit : Option Nat) where
  form : DefinitionForm
  value : Value
  text : String
  denotes : value.Denotes form.datum
  printed : ∃ room, ∃ s : Store, s.readable room value = .ok text
  readBack : readAll limit text.toList = .ok [form.datum]
  /-- Only a definition of a variable by any other form need not be evaluated for this. -/
  accepted : form.kind ≠ .value → ∃ w fuel room frame caller s v t,
    evaluate w fuel room value frame caller s = .ok v t
  named : form.name ∉ ["quote", "quasiquote", "unquote", "unquote-splicing"]
  once : ∀ name ∈ form.datum.symbols.tail, name ≠ "define" ∧ name ≠ "define-macro"

namespace PrintedDefinition

variable {limit : Option Nat}

theorem isClear (p : PrintedDefinition limit) : p.form.IsClear where
  plain := by
    have named := p.named
    unfold Store.quotationMark?
    split <;> simp_all
  once := by simpa [Outline.isDefining] using p.once
  takes := by
    intro name args same
    have makes : p.form.kind ≠ .value := by
      simp [same, DefinitionForm.kind, Datum.makesProcedure]
    obtain ⟨w, fuel, room, frame, caller, s, v, t, ended⟩ := p.accepted makes
    have spelled := Datum.spells_of_denotes p.denotes
    rw [same] at spelled
    exact exists_params_of_value spelled ended

/-- The text of a definition is cut into its row of tokens. -/
theorem exists_row (p : PrintedDefinition limit) :
    ∃ ts, p.form.datum.Row false ts ∧ ReadAs limit p.text.toList ts [p.form.datum] := by
  obtain ⟨room, s, printed⟩ := p.printed
  obtain ⟨-, text⟩ := s.readable_eq_ok_of_denotes p.denotes printed
  have read := p.readBack
  have chars : p.text.toList = p.form.datum.chars false := by rw [text, String.toList_ofList]
  obtain ⟨ts, row, lexed⟩ := Datum.exists_row_of_readAll p.form.unmarked (chars ▸ read)
  exact ⟨ts, row, .of_readAll read (chars ▸ lexed)⟩

theorem not_endsInMark (p : PrintedDefinition limit) : ¬ EndsInMark p.text.toList := by
  obtain ⟨ts, row, read⟩ := p.exists_row
  obtain ⟨opening, head, us, rfl, -, front, closing, rfl, closes⟩ := p.form.exists_of_row row
  rintro ⟨t, last, mark⟩
  have behind : opening :: head :: (front ++ [closing]) = (opening :: head :: front) ++ [closing] := rfl
  rw [read.lexed, behind, List.getLast?_concat] at last
  obtain rfl := Option.some.inj last
  rw [closes.2] at mark
  exact absurd mark (by decide)

/-- The definitions one below the other. -/
def joined (ps : List (PrintedDefinition limit)) : String := "\n".intercalate (ps.map (·.text))

theorem toList_joined_cons (p q : PrintedDefinition limit) (ps : List (PrintedDefinition limit)) :
    (joined (p :: q :: ps)).toList = p.text.toList ++ '\n' :: (joined (q :: ps)).toList := by
  simp [joined, String.toList_intercalate]

theorem exists_rows (ps : List (PrintedDefinition limit)) :
    ∃ ts, Outline.Rows (ps.map (·.form)) ts ∧
      ReadAs limit (joined ps).toList ts (ps.map (·.form.datum)) := by
  induction ps with
  | nil => exact ⟨[], .nil, lex_nil, .done, fun _ _ => Nat.zero_le _⟩
  | cons p ps ih =>
    obtain ⟨ts, row, read⟩ := p.exists_row
    cases ps with
    | nil =>
      have alone : joined [p] = p.text := by simp [joined]
      have rows := Outline.Rows.cons row .nil
      rw [List.append_nil] at rows
      exact ⟨ts, rows, alone ▸ read⟩
    | cons q ps =>
      obtain ⟨us, rows, reads⟩ := ih
      obtain ⟨k, whole⟩ := read.append_line reads p.not_endsInMark
      rw [← toList_joined_cons] at whole
      exact ⟨_, .cons row (rows.moved k), whole⟩

end PrintedDefinition

/-- What an outline tells about a definition is what its evaluation makes, in any frame of any store:
a procedure or an expander with this documentation. About a value nothing but its name is told. -/
structure Definition.Describes {limit : Option Nat} (d : Definition) (p : PrintedDefinition limit) :
    Prop where
  name : d.name = p.form.name
  kind : d.kind = p.form.kind
  undocumented : p.form.kind = .value → d.doc = none
  documented : p.form.kind ≠ .value → ∀ {w fuel room frame caller s v t}, frame < s.frames.size →
    evaluate w fuel room p.value frame caller s = .ok v t →
    t.Documents frame d.name (d.kind == .expander) d.doc

namespace Outline

theorem describes {limit : Option Nat} {d : Definition} {p : PrintedDefinition limit}
    (name : d.name = p.form.name) (kind : d.kind = p.form.kind) (doc : d.doc = p.form.doc?) :
    d.Describes p where
  name := name
  kind := kind
  undocumented value := doc.trans (DefinitionForm.doc?_of_value value)
  documented makes w fuel room frame caller s v t inside ended := by
    rw [name, kind, doc]
    exact documents_of_evaluate makes (Datum.spells_of_denotes p.denotes) inside ended

/-- The outline of printed definitions with different names has these definitions in their order, and
no problems. -/
theorem ofText_describes {limit : Option Nat} (ps : List (PrintedDefinition limit))
    (distinct : (ps.map (·.form.name)).Nodup) :
    ∃ o, ofText limit (PrintedDefinition.joined ps).toList = .ok o ∧ o.problems = [] ∧
      List.Forall₂ Definition.Describes o.definitions ps := by
  obtain ⟨ts, rows, read⟩ := PrintedDefinition.exists_rows ps
  have found := rows.findings fun form member => by
    obtain ⟨p, -, rfl⟩ := List.mem_map.mp member
    exact p.isClear
  rw [List.forall₂_map_right_iff] at found
  let text := (PrintedDefinition.joined ps).toList
  have names : ((findings ts).map (Finding.definition text)).map (·.name) =
      ps.map (·.form.name) := by
    rw [← List.forall₂_eq_eq_eq, List.map_map, List.forall₂_map_left_iff,
      List.forall₂_map_right_iff]
    exact found.imp fun f p same => same.1
  have definitions : definitionsOf text = (findings ts).map (Finding.definition text) := by
    rw [definitionsOf_eq, read.lexed, entered_of_nodup (names ▸ distinct)]
  refine ⟨⟨definitionsOf text, []⟩, ?_, rfl, ?_⟩
  · simp [text, ofText, problemsOf, read.readAll, bind, Except.bind, pure, Except.pure]
  · rw [definitions, List.forall₂_map_left_iff]
    exact found.imp fun f p same => describes same.1 same.2.1 same.2.2

end Outline

namespace DefinitionForm

def quotedList : DefinitionForm :=
  .value "x" (.list [.symbol "quote", .list [.symbol "lambda"]])

def anyArguments : DefinitionForm :=
  .function "f" (.symbol "rest") [.atom (.string "doc"), .symbol "rest"]

def oneClause : DefinitionForm :=
  .value "g" (.list [.symbol "case-lambda", .atom (.string ""), .list [.symbol "y", .symbol "y"]])

def textOnly : DefinitionForm := .expander "m" .nil [.atom (.string "text")]

end DefinitionForm

namespace PrintedDefinition

def quotedList : PrintedDefinition none where
  form := .quotedList
  value := (Value.ofDatum 0 DefinitionForm.quotedList.datum).1
  text := "(define x '(lambda))"
  denotes := by repeat' constructor
  printed := ⟨none, .empty, by with_unfolding_all rfl⟩
  readBack := by with_unfolding_all rfl
  accepted makes := absurd rfl makes
  named := by decide
  once := by decide

def anyArguments : PrintedDefinition none where
  form := .anyArguments
  value := (Value.ofDatum 0 DefinitionForm.anyArguments.datum).1
  text := "(define (f . rest) \"doc\" rest)"
  denotes := by repeat' constructor
  printed := ⟨none, .empty, by with_unfolding_all rfl⟩
  readBack := by with_unfolding_all rfl
  accepted _ := ⟨bareWorld, 1, none, 0, none, .empty, _, _, by with_unfolding_all rfl⟩
  named := by decide
  once := by decide

def oneClause : PrintedDefinition none where
  form := .oneClause
  value := (Value.ofDatum 0 DefinitionForm.oneClause.datum).1
  text := "(define g (case-lambda \"\" (y y)))"
  denotes := by repeat' constructor
  printed := ⟨none, .empty, by with_unfolding_all rfl⟩
  readBack := by with_unfolding_all rfl
  accepted _ := ⟨bareWorld, 2, none, 0, none, .empty, _, _, by with_unfolding_all rfl⟩
  named := by decide
  once := by decide

def textOnly : PrintedDefinition none where
  form := .textOnly
  value := (Value.ofDatum 0 DefinitionForm.textOnly.datum).1
  text := "(define-macro (m) \"text\")"
  denotes := by repeat' constructor
  printed := ⟨none, .empty, by with_unfolding_all rfl⟩
  readBack := by with_unfolding_all rfl
  accepted _ := ⟨bareWorld, 1, none, 0, none, .empty, _, _, by with_unfolding_all rfl⟩
  named := by decide
  once := by decide

def four : List (PrintedDefinition none) := [quotedList, anyArguments, oneClause, textOnly]

end PrintedDefinition

theorem Outline.ofText_describes_four :
    (PrintedDefinition.four.map (·.form.name)).Nodup ∧
      PrintedDefinition.four.map (fun p => (p.form.kind, p.form.doc?)) =
        [(.value, none), (.function, some "doc"), (.function, some ""), (.expander, none)] ∧
      ∃ o, ofText none (PrintedDefinition.joined PrintedDefinition.four).toList = .ok o ∧
        o.problems = [] ∧ List.Forall₂ Definition.Describes o.definitions PrintedDefinition.four :=
  ⟨by decide, rfl, ofText_describes PrintedDefinition.four (by decide)⟩

end LazyLisp
