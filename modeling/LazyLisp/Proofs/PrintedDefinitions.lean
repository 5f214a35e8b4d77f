import LazyLisp.Proofs.DefinitionPatterns
import LazyLisp.Proofs.PrintedTokens

/-!
Printed definitions as an outline sees them.

The search does not parse. It counts parentheses to get behind a form and looks at single tokens to
tell a function from a value and documentation from a body. In the row of tokens that a definition is
printed as, a parenthesis is closed by the one that belongs to it, and the tokens that are looked at
tell the form that they begin.
-/

namespace LazyLisp

namespace Outline

def behindList (depth : Nat) (rest : List Token) : List Token :=
  if depth = 0 then rest else skipList depth rest

section Skip

variable {t : Token} {rest : List Token}

theorem skipList_open (opens : t.IsOpen) (depth : Nat) :
    skipList depth (t :: rest) = skipList (depth + 1) rest := by
  rw [skipList, opens.1]

theorem skipList_close (closes : t.IsClose) (depth : Nat) :
    skipList (depth + 1) (t :: rest) = behindList depth rest := by
  rw [skipList, closes.1, behindList]
  cases depth <;> simp

theorem skipList_inside (inside : t.kind ≠ .leftParen ∧ t.kind ≠ .rightParen) (depth : Nat) :
    skipList depth (t :: rest) = skipList depth rest := by
  rw [skipList]
  split <;> simp_all

end Skip

/-- Inside a list a form is passed over; the rest of the list is passed with its parenthesis. -/
theorem skipList_row {inList : Bool} {d : Datum} {ts : List Token} (row : d.Row inList ts)
    (depth : Nat) (rest : List Token) : skipList (depth + 1) (ts ++ rest) =
      if inList then behindList depth rest else skipList (depth + 1) rest := by
  induction row generalizing depth rest with
  | nil opens closes =>
    rw [List.cons_append, skipList_open opens, List.cons_append, skipList_close closes]
    rfl
  | atom _ writes =>
    rw [List.cons_append, skipList_inside writes.inside]
    rfl
  | quotation marks _ _ ih =>
    rw [List.cons_append, skipList_inside (Token.inside_of_isQuotation marks), ih]
  | list _ opens _ _ head tail =>
    rw [List.cons_append, skipList_open opens, List.append_assoc, head]
    exact tail (depth + 1) rest
  | close closes =>
    rw [List.cons_append, skipList_close closes]
    rfl
  | dotted _ isDot writes closes =>
    rw [List.cons_append, skipList_inside (Token.inside_of_isDot isDot), List.cons_append,
      skipList_inside writes.inside, List.cons_append, skipList_close closes]
    rfl
  | item _ _ head tail =>
    rw [List.append_assoc, head]
    exact tail depth rest

theorem skipForm_mark {mark : Token} (marks : mark.kind.isQuotation = true) (rest : List Token) :
    skipForm (mark :: rest) = skipForm rest := by
  simp [skipForm, marks]

theorem skipForm_open {opening : Token} (opens : opening.IsOpen) (rest : List Token) :
    skipForm (opening :: rest) = skipList 1 rest := by
  simp [skipForm, opens.1, Token.Kind.isQuotation]

theorem skipForm_atom {t : Token} {a : Atom} (writes : t.Writes a) (rest : List Token) :
    skipForm (t :: rest) = rest := by
  have single : t.kind.isQuotation = false := by
    rw [writes.1]
    cases a <;> rfl
  simp [skipForm, single, writes.inside.1]

theorem skipForm_row {d : Datum} {ts : List Token} (row : d.Row false ts) (rest : List Token) :
    skipForm (ts ++ rest) = rest := by
  generalize alone : false = inList at row
  induction row with
  | nil opens closes =>
    rw [List.cons_append, skipForm_open opens, List.cons_append, skipList_close closes]
    rfl
  | atom _ writes => exact skipForm_atom writes rest
  | quotation marks _ _ ih => rw [List.cons_append, skipForm_mark marks, ih rfl]
  | list _ opens head tail =>
    rw [List.cons_append, skipForm_open opens, List.append_assoc, skipList_row head]
    exact skipList_row tail 0 rest
  | close | dotted | item => cases alone

def keywords : List String := ["define", "define-macro", "lambda", "case-lambda"]

/-- They are not written with the characters of numbers, and in no way that literals are. -/
theorem spelling_of_mem_keywords : ∀ word ∈ keywords,
    word.toList.all isNumeralChar = false ∧ word.toList.head? ≠ some '"' ∧
      word.toList.head? ≠ some '#' ∧ word ≠ "()" := by
  decide

theorem eq_symbol_of_write {a : Atom} {word : String} (keyword : word ∈ keywords)
    (written : a.write true = word) : a = .symbol word := by
  obtain ⟨noNumeral, noQuote, noHash, noNil⟩ := spelling_of_mem_keywords word keyword
  subst written
  cases a with
  | nil => exact absurd rfl noNil
  | int n =>
    have numeral := List.all_eq_true.mpr (Atom.isNumeralChar_of_mem_int n)
    exact absurd (numeral.symm.trans noNumeral) (by decide)
  | float x =>
    have numeral := List.all_eq_true.mpr (Decimal.isNumeralChar_of_mem_render x)
    exact absurd (numeral.symm.trans noNumeral) (by decide)
  | symbol name => rfl
  | string text => exact absurd (by simp [Atom.write, Atom.readableText]) noQuote
  | char d => exact absurd (by simp [Atom.write]) noHash

section Keywords

variable {t : Token} {d : Datum} {ts : List Token} {inList : Bool}

theorem noKeyword_open (opens : t.IsOpen) : t.text ∉ keywords := by
  rw [opens.2]
  decide

theorem noKeyword_close (closes : t.IsClose) : t.text ∉ keywords := by
  rw [closes.2]
  decide

theorem noKeyword_dot (isDot : t.isDot = true) : t.text ∉ keywords := by
  simp only [Token.isDot, Bool.and_eq_true, beq_iff_eq] at isDot
  rw [isDot.2]
  decide

theorem noKeyword_mark {name : String} (stands : OpenForm.quotationHead? t.text = some name) :
    t.text ∉ keywords := by
  unfold OpenForm.quotationHead? at stands
  split at stands <;> cases stands <;> simp [*, keywords]

theorem mem_symbols_of_writes {a : Atom} (writes : t.Writes a) (keyword : t.text ∈ keywords) :
    t.text ∈ (Datum.atom a).symbols := by
  rw [eq_symbol_of_write keyword writes.2.symm]
  exact List.mem_singleton_self _

theorem mem_symbols_of_keyword (row : d.Row inList ts) (member : t ∈ ts)
    (keyword : t.text ∈ keywords) : t.text ∈ d.symbols := by
  induction row with
  | nil opens closes =>
    rcases List.mem_cons.mp member with rfl | member
    · exact absurd keyword (noKeyword_open opens)
    · obtain rfl := List.mem_singleton.mp member
      exact absurd keyword (noKeyword_close closes)
  | atom _ writes =>
    obtain rfl := List.mem_singleton.mp member
    exact mem_symbols_of_writes writes keyword
  | quotation marks stands _ ih =>
    rcases List.mem_cons.mp member with rfl | member
    · exact absurd keyword (noKeyword_mark stands)
    · exact List.mem_append_right _ (List.mem_append_left _ (ih member))
  | list _ opens _ _ head tail =>
    rcases List.mem_cons.mp member with rfl | member
    · exact absurd keyword (noKeyword_open opens)
    · exact List.mem_append.mpr ((List.mem_append.mp member).imp head tail)
  | close closes =>
    obtain rfl := List.mem_singleton.mp member
    exact absurd keyword (noKeyword_close closes)
  | dotted _ isDot writes closes =>
    simp only [List.mem_cons, List.not_mem_nil, or_false] at member
    rcases member with rfl | rfl | rfl
    · exact absurd keyword (noKeyword_dot isDot)
    · exact mem_symbols_of_writes writes keyword
    · exact absurd keyword (noKeyword_close closes)
  | item _ _ head tail => exact List.mem_append.mpr ((List.mem_append.mp member).imp head tail)

theorem eq_symbol_of_row (row : d.Row false (t :: ts)) (keyword : t.text ∈ keywords) :
    d = .symbol t.text := by
  cases row with
  | nil opens _ => exact absurd keyword (noKeyword_open opens)
  | atom _ writes => rw [eq_symbol_of_write keyword writes.2.symm]
  | quotation _ stands _ => exact absurd keyword (noKeyword_mark stands)
  | list _ opens _ _ => exact absurd keyword (noKeyword_open opens)

end Keywords

def docOf : Datum → Option String
  | .pair (.atom (.string _)) (.atom .nil) => none
  | .pair (.atom (.string doc)) _ => some doc
  | _ => none

section Documentation

variable {t next : Token} {d : Datum} {ts rest : List Token}

theorem docAt_of_ne_string (kind : t.kind ≠ .string) (rest : List Token) :
    docAt (t :: rest) = none := by
  cases rest <;> simp [docAt, kind]

theorem docAt_of_rightParen (closes : next.kind = .rightParen) (t : Token) (rest : List Token) :
    docAt (t :: next :: rest) = none := by
  simp [docAt, closes]

theorem docAt_of_writes {doc : String} (writes : t.Writes (.string doc))
    (goesOn : next.kind ≠ .rightParen) (rest : List Token) :
    docAt (t :: next :: rest) = some doc := by
  have spelled : t.text = Atom.readableText doc := writes.2
  have kind : t.kind = .string := writes.1
  simp [docAt, kind, goesOn, spelled, Atom.unescape_readableText, Except.toOption]

theorem kind_ne_rightParen (row : d.Row false (t :: ts)) : t.kind ≠ .rightParen := by
  cases row with
  | nil opens _ => simp [opens.1]
  | atom _ writes => exact writes.inside.2
  | quotation marks _ _ => exact (Token.inside_of_isQuotation marks).2
  | list _ opens _ _ => simp [opens.1]

/-- The rest of a list begins with the closing parenthesis only if it is empty. -/
theorem exists_head_row (row : d.Row true ts) :
    ∃ next more, ts = next :: more ∧ (next.kind = .rightParen ↔ d = .nil) := by
  cases row with
  | close closes => exact ⟨_, _, rfl, by simp [closes.1]⟩
  | dotted notNil isDot _ _ =>
    exact ⟨_, _, rfl, by simp [(Token.inside_of_isDot isDot).2, notNil]⟩
  | @item car cdr us vs head tail =>
    cases us with
    | nil => exact absurd rfl head.ne_nil
    | cons next more => exact ⟨next, more ++ vs, rfl, by simp [kind_ne_rightParen head]⟩

theorem docAt_row (row : d.Row true ts) (rest : List Token) : docAt (ts ++ rest) = docOf d := by
  cases row with
  | close closes => exact docAt_of_ne_string (by simp [closes.1]) rest
  | dotted _ isDot _ _ =>
    exact docAt_of_ne_string (by simp [Token.kind_of_isDot isDot]) _
  | @item car cdr us vs head tail =>
    obtain ⟨next, more, rfl, ends⟩ := exists_head_row tail
    cases head with
    | nil opens _ => exact docAt_of_ne_string (by simp [opens.1]) _
    | @atom a t _ writes =>
      cases a with
      | string doc =>
        by_cases last : cdr = .nil
        · subst last
          exact docAt_of_rightParen (ends.mpr rfl) _ _
        · have some_doc : docOf (.pair (.atom (.string doc)) cdr) = some doc := by
            unfold docOf
            split <;> simp_all
          rw [some_doc]
          exact docAt_of_writes writes (fun closes => last (ends.mp closes)) _
      | _ => exact docAt_of_ne_string (by simp [writes.1, Token.kindOf]) _
    | quotation marks _ _ =>
      refine docAt_of_ne_string ?_ _
      intro kind
      simp [kind, Token.Kind.isQuotation] at marks
    | list _ opens _ _ => exact docAt_of_ne_string (by simp [opens.1]) _

end Documentation

end Outline

def Datum.makesProcedure : Datum → Bool
  | .pair (.symbol name) _ => name == "lambda" || name == "case-lambda"
  | _ => false

def Datum.procedureDoc : Datum → Option String
  | .pair (.symbol "lambda") (.pair _ body) => Outline.docOf body
  | .pair (.symbol "case-lambda") args => Outline.docOf args
  | _ => none

section Procedures

variable {form : Datum}

theorem Datum.makesProcedure_iff : form.makesProcedure = true ↔
    (∃ args, form = .pair (.symbol "lambda") args) ∨
      ∃ args, form = .pair (.symbol "case-lambda") args := by
  unfold makesProcedure
  split
  · simp
  · next other =>
    constructor
    · simp
    · rintro (⟨args, rfl⟩ | ⟨args, rfl⟩) <;> exact absurd rfl (other _ _)

theorem Datum.procedureDoc_of_other (other : form.makesProcedure = false) :
    form.procedureDoc = none := by
  unfold procedureDoc
  split <;> simp_all [makesProcedure]

end Procedures

/-- A definition as it is written: of a variable with a form for its value, of a function or of an
expander with parameters and a body. -/
inductive DefinitionForm where
  | value (name : String) (form : Datum)
  | function (name : String) (params : Datum) (body : List Datum)
  | expander (name : String) (params : Datum) (body : List Datum)

namespace DefinitionForm

def datum : DefinitionForm → Datum
  | value name form => .list [.symbol "define", .symbol name, form]
  | function name params body =>
    .pair (.symbol "define") (.pair (.pair (.symbol name) params) (.list body))
  | expander name params body =>
    .pair (.symbol "define-macro") (.pair (.pair (.symbol name) params) (.list body))

def name : DefinitionForm → String
  | value name _ | function name _ _ | expander name _ _ => name

def kind : DefinitionForm → DefinitionKind
  | value _ form => if form.makesProcedure then .function else .value
  | function _ _ _ => .function
  | expander _ _ _ => .expander

def doc? : DefinitionForm → Option String
  | value _ form => form.procedureDoc
  | function _ _ body | expander _ _ body => Outline.docOf (.list body)

theorem doc?_of_value {form : DefinitionForm} (value : form.kind = .value) : form.doc? = none := by
  cases form with
  | value name form =>
    refine Datum.procedureDoc_of_other ?_
    rw [← Bool.not_eq_true]
    intro makes
    rw [kind, if_pos makes] at value
    cases value
  | function | expander => cases value

end DefinitionForm

namespace Outline

section Symbols

variable {d cdr : Datum} {name : String} {ts : List Token}

theorem exists_of_row_symbol (row : (Datum.symbol name).Row false ts) :
    ∃ t, ts = [t] ∧ t.kind = .word ∧ t.text = name := by
  cases row with
  | atom _ writes => exact ⟨_, rfl, writes⟩

/-- A list whose first item is no name of a quotation begins with a parenthesis and this item. -/
theorem exists_of_row_list (row : (Datum.pair (.symbol name) cdr).Row false ts)
    (plain : Store.quotationMark? name = none) :
    ∃ opening head us, ts = opening :: head :: us ∧ opening.kind = .leftParen ∧
      head.kind = .word ∧ head.text = name ∧ cdr.Row true us := by
  cases row with
  | quotation marks stands _ =>
    unfold OpenForm.quotationHead? at stands
    split at stands <;> cases stands <;> cases plain
  | @list _ _ opening _ us _ opens first rest =>
    obtain ⟨head, rfl, word, named⟩ := exists_of_row_symbol first
    exact ⟨opening, head, us, rfl, opens.1, word, named, rest⟩

theorem exists_of_row_item {car : Datum} (row : (Datum.pair car cdr).Row true ts) :
    ∃ us vs, ts = us ++ vs ∧ car.Row false us ∧ cdr.Row true vs := by
  cases row with
  | item head tail => exact ⟨_, _, rfl, head, tail⟩

end Symbols

section Values

variable {t head : Token} {rest : List Token}

theorem valueDoc_of_ne_leftParen (kind : t.kind ≠ .leftParen) (rest : List Token) :
    valueDoc (t :: rest) = (.value, none) := by
  cases rest <;> simp [valueDoc, kind]

theorem valueDoc_of_other (lambda : head.text ≠ "lambda") (cases : head.text ≠ "case-lambda")
    (t : Token) (rest : List Token) : valueDoc (t :: head :: rest) = (.value, none) := by
  simp [valueDoc, lambda, cases]

theorem valueDoc_lambda (opens : t.kind = .leftParen) (lambda : head.text = "lambda")
    (rest : List Token) :
    valueDoc (t :: head :: rest) = (.function, docAt (skipForm rest)) := by
  simp [valueDoc, opens, lambda]

theorem valueDoc_cases (opens : t.kind = .leftParen) (cases : head.text = "case-lambda")
    (rest : List Token) : valueDoc (t :: head :: rest) = (.function, docAt rest) := by
  simp [valueDoc, opens, cases]

end Values

theorem valueDoc_row {form : Datum} {ts : List Token} (row : form.Row false ts)
    (takes : ∀ args, form = .pair (.symbol "lambda") args → ∃ params body, args = .pair params body)
    (next : Token) (rest : List Token) :
    valueDoc (ts ++ next :: rest) = (if form.makesProcedure then .function else .value,
      form.procedureDoc) := by
  by_cases makes : form.makesProcedure = true
  · rw [if_pos makes]
    rcases Datum.makesProcedure_iff.mp makes with ⟨args, rfl⟩ | ⟨args, rfl⟩
    · obtain ⟨params, body, rfl⟩ := takes args rfl
      obtain ⟨opening, head, us, rfl, opens, -, named, row⟩ := exists_of_row_list row rfl
      obtain ⟨ps, bs, rfl, params, body⟩ := exists_of_row_item row
      rw [List.cons_append, List.cons_append, valueDoc_lambda opens named, List.append_assoc,
        skipForm_row params, docAt_row body]
      rfl
    · obtain ⟨opening, head, us, rfl, opens, -, named, row⟩ := exists_of_row_list row rfl
      rw [List.cons_append, List.cons_append, valueDoc_cases opens named, docAt_row row]
      rfl
  · rw [if_neg makes, Datum.procedureDoc_of_other (Bool.eq_false_of_not_eq_true makes)]
    rw [Datum.makesProcedure_iff, not_or] at makes
    cases row with
    | nil _ closes =>
      refine valueDoc_of_other ?_ ?_ _ _ <;> rw [closes.2] <;> decide
    | atom _ writes => exact valueDoc_of_ne_leftParen writes.inside.1 _
    | quotation marks _ _ =>
      exact valueDoc_of_ne_leftParen (Token.inside_of_isQuotation marks).1 _
    | @list car cdr opening us _ _ _ first _ =>
      obtain ⟨head, more, rfl⟩ := List.exists_cons_of_ne_nil first.ne_nil
      refine valueDoc_of_other ?_ ?_ _ _ <;> intro named
      all_goals have symbol := eq_symbol_of_row first (by simp [named, keywords])
      · exact makes.1 ⟨cdr, by rw [symbol, named]⟩
      · exact makes.2 ⟨cdr, by rw [symbol, named]⟩

def isDefining (text : String) : Bool := text == "define" || text == "define-macro"

theorem findings_append {ts rest : List Token} (silent : ∀ t ∈ ts, isDefining t.text = false)
    (apart : ∀ t ∈ rest.head?, t.kind ≠ .word) : findings (ts ++ rest) = findings rest := by
  induction ts with
  | nil => rfl
  | cons t ts ih =>
    rw [List.forall_mem_cons] at silent
    rw [List.cons_append, findings_cons, ih silent.2]
    suffices nothing : finding? (t :: (ts ++ rest)) = none by
      rw [nothing]
      rfl
    cases follows : ts ++ rest with
    | nil => rfl
    | cons head more =>
      rw [finding?, if_neg]
      rw [startsDefinition_iff]
      rintro ⟨-, word, defines⟩
      cases ts with
      | nil => exact apart head (by simp_all) word
      | cons u us =>
        obtain ⟨rfl, -⟩ := List.cons.inj follows
        have quiet := silent.2 u List.mem_cons_self
        simp_all [isDefining]

theorem findings_definition {opening head : Token} {f : Finding} {ts rest : List Token}
    (opens : opening.kind = .leftParen) (word : head.kind = .word)
    (defines : isDefining head.text = true) (found : target? head.text (ts ++ rest) = some f)
    (silent : ∀ t ∈ ts, isDefining t.text = false) (apart : ∀ t ∈ rest.head?, t.kind ≠ .word) :
    findings (opening :: head :: (ts ++ rest)) = f :: findings rest := by
  have starts : startsDefinition opening head = true :=
    startsDefinition_iff.mpr ⟨opens, word, by simpa [isDefining] using defines⟩
  rw [findings, if_pos starts, found, findings_append silent apart]
  rfl

section Targets

variable {name : String} {ts : List Token}

theorem target?_value {form : Datum}
    (row : (Datum.list [.symbol name, form]).Row true ts)
    (takes : ∀ args, form = .pair (.symbol "lambda") args → ∃ params body, args = .pair params body)
    (head : String) (rest : List Token) : ∃ t, t.text = name ∧
      target? head (ts ++ rest) =
        some ⟨t, (DefinitionForm.value name form).kind, form.procedureDoc⟩ := by
  obtain ⟨ns, us, rfl, names, values⟩ := exists_of_row_item row
  obtain ⟨t, rfl, word, named⟩ := exists_of_row_symbol names
  obtain ⟨vs, ends, rfl, value, closes⟩ := exists_of_row_item values
  obtain ⟨closing, more, rfl, -⟩ := exists_head_row closes
  refine ⟨t, named, ?_⟩
  have behind := valueDoc_row value takes closing (more ++ rest)
  simp [target?, word, behind, DefinitionForm.kind]

theorem target?_signature {params body : Datum} (plain : Store.quotationMark? name = none)
    (row : (Datum.pair (.pair (.symbol name) params) body).Row true ts) (head : String)
    (rest : List Token) : ∃ t, t.text = name ∧
      target? head (ts ++ rest) =
        some ⟨t, if head == "define-macro" then .expander else .function, docOf body⟩ := by
  obtain ⟨ss, bs, rfl, signature, body⟩ := exists_of_row_item row
  have doc := skipForm_row signature (bs ++ rest)
  obtain ⟨opening, t, us, rfl, opens, word, named, -⟩ := exists_of_row_list signature plain
  refine ⟨t, named, ?_⟩
  simp only [List.cons_append] at doc
  simp [target?, opens, word, doc, docAt_row body]

end Targets

/-- In front of a parenthesis or the end, a printed definition is found once, and nothing else is. -/
theorem findings_row (form : DefinitionForm) {ts rest : List Token}
    (row : form.datum.Row false ts) (plain : Store.quotationMark? form.name = none)
    (once : ∀ name ∈ form.datum.symbols.tail, isDefining name = false)
    (takes : ∀ name args, form = .value name (.pair (.symbol "lambda") args) →
      ∃ params body, args = .pair params body)
    (apart : ∀ t ∈ rest.head?, t.kind ≠ .word) :
    ∃ t, t.text = form.name ∧ findings (ts ++ rest) = ⟨t, form.kind, form.doc?⟩ :: findings rest := by
  have silent {d : Datum} {us : List Token} (row : d.Row true us)
      (once : ∀ name ∈ d.symbols, isDefining name = false) :
      ∀ t ∈ us, isDefining t.text = false := by
    intro t member
    rw [← Bool.not_eq_true]
    intro defines
    have keyword : t.text ∈ keywords := by
      simp only [isDefining, Bool.or_eq_true, beq_iff_eq] at defines
      rcases defines with named | named <;> simp [named, keywords]
    simpa [defines] using once _ (mem_symbols_of_keyword row member keyword)
  cases form with
  | value name form =>
    obtain ⟨opening, head, us, rfl, opens, word, named, row⟩ := exists_of_row_list row rfl
    obtain ⟨t, spelled, found⟩ := target?_value row (fun args same => takes name args (by rw [same]))
      head.text rest
    refine ⟨t, spelled, ?_⟩
    exact findings_definition opens word (by rw [named]; rfl) found (silent row once) apart
  | function name params body =>
    obtain ⟨opening, head, us, rfl, opens, word, named, row⟩ := exists_of_row_list row rfl
    obtain ⟨t, spelled, found⟩ := target?_signature plain row head.text rest
    refine ⟨t, spelled, ?_⟩
    rw [named] at found
    exact findings_definition opens word (by rw [named]; rfl) (by rw [named]; exact found)
      (silent row once) apart
  | expander name params body =>
    obtain ⟨opening, head, us, rfl, opens, word, named, row⟩ := exists_of_row_list row rfl
    obtain ⟨t, spelled, found⟩ := target?_signature plain row head.text rest
    refine ⟨t, spelled, ?_⟩
    rw [named] at found
    exact findings_definition opens word (by rw [named]; rfl) (by rw [named]; exact found)
      (silent row once) apart

end Outline

end LazyLisp
