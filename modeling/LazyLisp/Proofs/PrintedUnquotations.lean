import LazyLisp.Proofs.PrintedTokens

/-!
What reads back from its printed form.

The text of an unquoted symbol that starts with an at sign is that of a splice, and what the reader
makes of it depends on what stands behind. A datum that reads back has no such text in it: up to the
first of them the tokens of the text are those that the datum was printed with, and the splice is no
token of the datum.
-/

namespace LazyLisp

/-- The tokens from which a datum is read: by itself, or as the rest of a list of which items have been
read. They need not be the ones that it is printed as. -/
inductive Datum.ReadFrom : (inList : Bool) → Datum → List Token → Prop where
  | leaf {a t} : t.Denotes a → ReadFrom false (.atom a) [t]
  | quotation {name d mark ts} : mark.kind.isQuotation = true →
      OpenForm.quotationHead? mark.text = some name → ReadFrom false d ts →
      ReadFrom false (.pair (.symbol name) (.pair d .nil)) (mark :: ts)
  | list {d opening ts} : opening.kind = .leftParen → ReadFrom true d ts →
      ReadFrom false d (opening :: ts)
  | close {closing} : closing.kind = .rightParen → ReadFrom true .nil [closing]
  | dotted {d dot ts closing} : dot.isDot = true → ReadFrom false d ts →
      closing.kind = .rightParen → ReadFrom true d (dot :: (ts ++ [closing]))
  | item {car cdr ts us} : ReadFrom false car ts → ReadFrom true cdr us →
      ReadFrom true (.pair car cdr) (ts ++ us)

namespace Datum

theorem ReadFrom.items {trees : List Tree} {d : Datum} {us : List Token}
    (each : ∀ tree ∈ trees, ReadFrom false tree.datum tree.tokens) (last : ReadFrom true d us) :
    ReadFrom true (listWith (trees.map Tree.datum) d) (Tree.tokensOf trees ++ us) := by
  induction trees with
  | nil => exact last
  | cons tree trees ih =>
    rw [List.forall_mem_cons] at each
    rw [Tree.tokensOf, List.append_assoc]
    exact .item each.1 (ih each.2)

theorem readFrom_of_valid {tree : Tree} (valid : tree.Valid) :
    ReadFrom false tree.datum tree.tokens := by
  induction valid with
  | leaf denotes => exact .leaf denotes
  | quotation marks stands _ ih => exact .quotation marks stands ih
  | @list opening items closing opens closes _ ih =>
    rw [Tree.datum, Tree.dataOf_eq_map]
    exact .list opens (.items ih (.close closes))
  | @dotted opening items dot tail closing opens closes isDot _ _ _ ih ihTail =>
    rw [Tree.datum, Tree.dataOf_eq_map]
    exact .list opens (.items ih (.dotted isDot ihTail closes))

end Datum

namespace Token

@[simp]
theorem isDot_moved (k : Nat) (t : Token) : (t.moved k).isDot = t.isDot := rfl

end Token

def AreLexed (ts : List Token) (text : List Char) : Prop :=
  ∃ k, ts = (lex text).tokens.map (Token.moved k)

namespace AreLexed

variable {ts us : List Token} {text rest : List Char}

theorem of_cut {before : List Char → Prop} (cut : Cuts before text us) (allowed : before rest)
    (lexed : AreLexed ts (text ++ rest)) :
    ∃ k more, ts = us.map (Token.moved k) ++ more ∧ AreLexed more rest := by
  obtain ⟨k, rfl⟩ := lexed
  refine ⟨k, _, ?_, text.length + k, rfl⟩
  rw [cut rest allowed]
  simp [Lexed.behind, Lexed.moved]

theorem of_cut_one {before : List Char → Prop} {t u : Token} (cut : Cuts before text [t])
    (allowed : before rest) (lexed : AreLexed (u :: us) (text ++ rest)) :
    (∃ k, u = t.moved k) ∧ AreLexed us rest := by
  obtain ⟨k, more, same, lexed⟩ := lexed.of_cut cut allowed
  obtain ⟨rfl, rfl⟩ := List.cons.inj same
  exact ⟨⟨k, rfl⟩, lexed⟩

theorem of_blank {c : Char} (blank : Text.isBlank c = true) (some_token : (lex text).tokens ≠ [])
    (lexed : AreLexed ts (c :: text)) : AreLexed ts text := by
  obtain ⟨k, rfl⟩ := lexed
  refine ⟨1 + k, ?_⟩
  rw [lex_cons_of_isBlank blank some_token]
  simp [Lexed.moved]

end AreLexed

namespace Datum

section First

variable {name mark : String} {rest : List Char}

/-- The first token in front of a quoted form is a mark. It is the one that was printed if it is not
followed by an at sign. -/
theorem exists_first_mark (named : Store.quotationMark? name = some mark) (rest : List Char) :
    ∃ t more, (lex (mark.toList ++ rest)).tokens = t :: more ∧ t.kind.isQuotation = true ∧
      (OpenForm.quotationHead? t.text = some name → name = "unquote" → rest.head? ≠ some '@') := by
  by_cases splices : name = "unquote" ∧ rest.head? = some '@'
  · obtain ⟨rfl, at_sign⟩ := splices
    obtain ⟨more, rfl⟩ := List.head?_eq_some_iff.mp at_sign
    obtain rfl : "," = mark := Option.some.inj named
    have splicing : Store.quotationMark? "unquote-splicing" = some ",@" := rfl
    obtain ⟨t, marks, stands, cut⟩ := exists_mark splicing
    have lexed := cut more (fun other => absurd other (by decide))
    refine ⟨t, _, congrArg Lexed.tokens lexed, marks, fun other => ?_⟩
    exact absurd (Option.some.inj (stands.symm.trans other)) (by decide)
  · obtain ⟨t, marks, -, cut⟩ := exists_mark named
    have allowed (unquotes : name = "unquote") : rest.head? ≠ some '@' :=
      fun at_sign => splices ⟨unquotes, at_sign⟩
    exact ⟨t, _, congrArg Lexed.tokens (cut rest allowed), marks, fun _ => allowed⟩

theorem head?_of_abbreviatesToSplice {item : Datum}
    (splices : abbreviatesToSplice (.symbol name) (.pair item .nil) = true) (rest : List Char) :
    name = "unquote" ∧ (item.chars false ++ rest).head? = some '@' := by
  unfold abbreviatesToSplice at splices
  split at splices
  · next spelled same =>
    cases spelled
    cases same
    refine ⟨rfl, ?_⟩
    rw [beq_iff_eq, List.head?_eq_some_iff] at splices
    obtain ⟨more, chars⟩ := splices
    simp [Datum.chars, Atom.write, chars]
  · cases splices

theorem not_isDot_of_writes {a : Atom} {t : Token} (writes : t.Writes a) (words : (atom a).Words) :
    t.isDot = false := by
  rw [← Bool.not_eq_true, Token.isDot, writes.1, writes.2]
  cases a with
  | nil => simp [Atom.write]
  | string _ | char _ => simp [Token.kindOf]
  | int n =>
    intro dot
    have written : toString n = "." := by simpa [Token.kindOf, Atom.write] using dot
    have point : '.' ∈ (toString n).toList := by rw [written]; decide
    simpa using Lexeme.mem_toString_int point
  | float x =>
    intro dot
    have written : Decimal.render x = "." := by simpa [Token.kindOf, Atom.write] using dot
    have long := Decimal.one_lt_length_render x
    rw [written] at long
    exact absurd long (by decide)
  | symbol name =>
    intro dot
    have written : name = "." := by simpa [Token.kindOf, Atom.write] using dot
    subst written
    simpa [isReaderSymbol] using (words "." (List.mem_singleton_self _)).1

/-- The text of a datum begins with a token that is no dot. -/
theorem exists_first {d : Datum} (words : d.Words) (boundary : Lexeme.AtBoundary rest) :
    ∃ t more, (lex (d.chars false ++ rest)).tokens = t :: more ∧ t.isDot = false := by
  cases d with
  | atom a =>
    rcases eq_or_ne a .nil with rfl | notNil
    · exact ⟨_, _, congrArg Lexed.tokens (Cuts.leftParen (')' :: rest) trivial), rfl⟩
    · obtain ⟨t, writes, cut⟩ := words.isCut notNil
      exact ⟨t, _, congrArg Lexed.tokens (cut rest boundary), not_isDot_of_writes writes words⟩
  | pair car cdr =>
    cases found : abbreviation? car cdr with
    | none =>
      have text : chars false (.pair car cdr) = '(' :: (chars false car ++ chars true cdr) :=
        chars_list found
      rw [text]
      exact ⟨_, _, congrArg Lexed.tokens (Cuts.leftParen _ trivial), rfl⟩
    | some mark =>
      obtain ⟨name, item, rfl, rfl, named⟩ := abbreviation?_eq_some found
      obtain ⟨t, more, lexed, marks, -⟩ := exists_first_mark named (item.chars false ++ rest)
      refine ⟨t, more, ?_, ?_⟩
      · rw [chars_abbreviated found, List.append_assoc, lexed]
      · rw [← Bool.not_eq_true]
        intro isDot
        simp [Token.kind_of_isDot isDot, Token.Kind.isQuotation] at marks

end First

section Readings

variable {a : Atom} {t : Token} {ts us : List Token}

theorem ReadFrom.eq_nil_of_atom (read : (atom a).ReadFrom false (t :: us))
    (kind : t.kind ≠ .leftParen) : us = [] := by
  cases read with
  | leaf _ => rfl
  | list opens _ => exact absurd opens kind

theorem ReadFrom.eq_nil_of_close (read : ReadFrom true .nil (t :: us)) (closes : t.kind = .rightParen) :
    us = [] := by
  cases read with
  | close _ => rfl
  | dotted isDot _ _ => simp [Token.kind_of_isDot isDot] at closes

theorem ReadFrom.tail_of_leftParen {d : Datum} (read : d.ReadFrom false (t :: us))
    (opens : t.kind = .leftParen) : d.ReadFrom true us := by
  cases read with
  | leaf denotes => cases denotes <;> simp_all
  | quotation marks _ _ => simp [opens, Token.Kind.isQuotation] at marks
  | list _ read => exact read

theorem ReadFrom.ne_nil {d : Datum} {inList : Bool} (read : d.ReadFrom inList ts) : ts ≠ [] := by
  induction read with
  | item _ _ head _ => exact List.append_ne_nil_of_left_ne_nil head _
  | _ => simp

end Readings

/-- However the datum is read from its text, the tokens of the text are passed, and no unquotation in
it is written like a splice. -/
def Passes (d : Datum) (inList : Bool) : Prop :=
  ∀ (rest : List Char) (ts more : List Token), Lexeme.AtBoundary rest →
    AreLexed (ts ++ more) (d.chars inList ++ rest) → d.ReadFrom inList ts →
    d.keepsUnquotes inList = true ∧ AreLexed more rest

section Passes

variable {a : Atom} {car cdr : Datum}

theorem passes_nil : Passes .nil false := by
  intro rest ts more boundary lexed read
  obtain ⟨t, us, rfl⟩ := List.exists_cons_of_ne_nil read.ne_nil
  have text : chars false .nil ++ rest = ['('] ++ ([')'] ++ rest) := rfl
  rw [text] at lexed
  obtain ⟨⟨k, opening⟩, behind⟩ := lexed.of_cut_one Cuts.leftParen trivial
  have inner := read.tail_of_leftParen (by rw [opening]; rfl)
  obtain ⟨closing, vs, rfl⟩ := List.exists_cons_of_ne_nil inner.ne_nil
  obtain ⟨⟨k, closes⟩, behind⟩ := behind.of_cut_one Cuts.rightParen trivial
  obtain rfl := inner.eq_nil_of_close (by rw [closes]; rfl)
  exact ⟨rfl, behind⟩

theorem passes_close : Passes .nil true := by
  intro rest ts more boundary lexed read
  obtain ⟨closing, us, rfl⟩ := List.exists_cons_of_ne_nil read.ne_nil
  obtain ⟨⟨k, closes⟩, behind⟩ := lexed.of_cut_one Cuts.rightParen trivial
  obtain rfl := read.eq_nil_of_close (by rw [closes]; rfl)
  exact ⟨rfl, behind⟩

theorem passes_atom (cut : a.IsCut) : (atom a).Passes false := by
  intro rest ts more boundary lexed read
  obtain ⟨t, writes, cut⟩ := cut
  obtain ⟨u, us, rfl⟩ := List.exists_cons_of_ne_nil read.ne_nil
  obtain ⟨⟨k, rfl⟩, behind⟩ := lexed.of_cut_one cut boundary
  obtain rfl := read.eq_nil_of_atom writes.inside.1
  exact ⟨rfl, behind⟩

theorem passes_dotted (notNil : a ≠ .nil) (cut : a.IsCut) : (atom a).Passes true := by
  intro rest ts more boundary lexed read
  obtain ⟨row, isRow, cut⟩ := exists_row_dotted notNil cut
  obtain ⟨k, behind, same, lexed⟩ := lexed.of_cut cut boundary
  cases isRow with
  | close _ => exact absurd rfl notNil
  | dotted _ _ writes _ =>
    cases read with
    | close _ => exact absurd rfl notNil
    | @dotted _ _ vs _ _ read _ =>
      obtain ⟨u, us, rfl⟩ := List.exists_cons_of_ne_nil read.ne_nil
      simp only [List.map_cons, List.map_nil, List.cons_append, List.nil_append,
        List.append_assoc, List.cons.injEq] at same
      obtain ⟨-, rfl, same⟩ := same
      obtain rfl := read.eq_nil_of_atom writes.inside.1
      obtain ⟨-, rfl⟩ := List.cons.inj same
      exact ⟨rfl, lexed⟩

section Items

variable (words : car.Words) (head : car.Passes false) (tail : cdr.Passes true)

include words head tail

theorem passes_items {rest : List Char} {ts more : List Token} (boundary : Lexeme.AtBoundary rest)
    (lexed : AreLexed (ts ++ more) (car.chars false ++ (cdr.chars true ++ rest)))
    (read : (pair car cdr).ReadFrom true ts) :
    car.keepsUnquotes false = true ∧ cdr.keepsUnquotes true = true ∧ AreLexed more rest := by
  have between := atBoundary_chars cdr rest
  cases read with
  | dotted isDot _ _ =>
    obtain ⟨k, same⟩ := lexed
    obtain ⟨t, us, first, noDot⟩ := exists_first words between
    rw [first] at same
    obtain ⟨rfl, -⟩ := List.cons.inj same
    simp [noDot] at isDot
  | item readCar readCdr =>
    rw [List.append_assoc] at lexed
    obtain ⟨kept, behind⟩ := head _ _ _ between lexed readCar
    exact ⟨kept, tail _ _ _ boundary behind readCdr⟩

theorem passes_item : (pair car cdr).Passes true := by
  intro rest ts more boundary lexed read
  have text : chars true (.pair car cdr) ++ rest =
      ' ' :: (car.chars false ++ (cdr.chars true ++ rest)) := by
    simp [chars]
  rw [text] at lexed
  obtain ⟨t, us, first, -⟩ := exists_first words (atBoundary_chars cdr rest)
  obtain ⟨keptCar, keptCdr, behind⟩ :=
    passes_items words head tail boundary (lexed.of_blank rfl (by simp [first])) read
  exact ⟨by simp [keepsUnquotes, keptCar, keptCdr], behind⟩

theorem passes_list (plain : abbreviation? car cdr = none) : (pair car cdr).Passes false := by
  intro rest ts more boundary lexed read
  obtain ⟨t, us, rfl⟩ := List.exists_cons_of_ne_nil read.ne_nil
  have text : chars false (.pair car cdr) ++ rest =
      ['('] ++ (car.chars false ++ (cdr.chars true ++ rest)) := by
    simp [chars_list plain]
  rw [text] at lexed
  obtain ⟨⟨k, rfl⟩, within⟩ := lexed.of_cut_one Cuts.leftParen trivial
  obtain ⟨keptCar, keptCdr, behind⟩ :=
    passes_items words head tail boundary within (read.tail_of_leftParen rfl)
  have noSplice : abbreviatesToSplice car cdr = false := by
    unfold abbreviatesToSplice
    split
    · cases plain
    · rfl
  exact ⟨by simp [keepsUnquotes, keptCar, keptCdr, noSplice], behind⟩

end Items

theorem passes_quotation {name mark : String} {item : Datum}
    (named : Store.quotationMark? name = some mark) (passes : item.Passes false) :
    (pair (.symbol name) (.pair item .nil)).Passes false := by
  intro rest ts more boundary lexed read
  have text : chars false (.pair (.symbol name) (.pair item .nil)) ++ rest =
      mark.toList ++ (item.chars false ++ rest) := by
    have abbreviated : chars false (.pair (.symbol name) (.pair item .nil)) =
        mark.toList ++ item.chars false := chars_abbreviated named
    rw [abbreviated, List.append_assoc]
  rw [text] at lexed
  obtain ⟨u, others, first, marks, noSplice⟩ := exists_first_mark named (item.chars false ++ rest)
  have first_eq {t : Token} {us : List Token} (lexed : AreLexed (t :: us)
      (mark.toList ++ (item.chars false ++ rest))) : t.kind = u.kind ∧ t.text = u.text := by
    obtain ⟨k, same⟩ := lexed
    rw [first] at same
    obtain ⟨rfl, -⟩ := List.cons.inj same
    exact ⟨rfl, rfl⟩
  cases read with
  | list opens _ =>
    rw [← (first_eq lexed).1, opens] at marks
    cases marks
  | quotation _ stands readItem =>
    rw [(first_eq lexed).2] at stands
    have allowed := noSplice stands
    obtain ⟨v, -, -, cut⟩ := exists_mark named
    obtain ⟨-, behind⟩ := lexed.of_cut_one cut allowed
    obtain ⟨kept, behind⟩ := passes _ _ _ boundary behind readItem
    refine ⟨?_, behind⟩
    have noSplice : abbreviatesToSplice (.symbol name) (.pair item .nil) = false := by
      rw [← Bool.not_eq_true]
      intro splices
      obtain ⟨unquotes, at_sign⟩ := head?_of_abbreviatesToSplice splices rest
      exact allowed unquotes at_sign
    simp [keepsUnquotes, kept, noSplice]

end Passes

/-- A datum that is read back from its text has no unquotation in it that is written like a splice. -/
theorem passes (d : Datum) (inList : Bool) (words : d.Words) : d.Passes inList := by
  induction d, inList using printed_induction with
  | nil => exact passes_nil
  | close => exact passes_close
  | atom a notNil => exact passes_atom (words.isCut notNil)
  | dotted a notNil => exact passes_dotted notNil (words.isCut notNil)
  | item car cdr head tail =>
    rw [words_pair] at words
    exact passes_item words.1 (head words.1) (tail words.2)
  | list car cdr plain head tail =>
    rw [words_pair] at words
    exact passes_list words.1 (head words.1) (tail words.2) plain
  | quotation name mark item named ih =>
    exact passes_quotation named (ih (words_pair.mp (words_pair.mp words).2).1)

variable {limit : Option Nat} {d : Datum}

theorem keepsUnquotes_of_readAll (words : d.Words)
    (read : readAll limit (d.chars false) = .ok [d]) : d.keepsUnquotes false = true := by
  obtain ⟨-, reads, -⟩ := readAll_eq_ok_iff.mp read
  obtain ⟨trees, opened, valid, -, same, none, spelled⟩ :=
    reads.exists_trees_of_nil fun t => Token.isLexical_of_mem_lex
  obtain rfl := List.map_eq_nil_iff.mp none.symm
  obtain ⟨tree, rfl, rfl⟩ : ∃ tree, trees = [tree] ∧ d = tree.datum := by
    cases trees with
    | nil => cases same
    | cons tree trees =>
      obtain ⟨rfl, noMore⟩ := List.cons.inj same
      obtain rfl := List.map_eq_nil_iff.mp noMore.symm
      exact ⟨tree, rfl, rfl⟩
  have readTree := readFrom_of_valid (valid tree List.mem_cons_self)
  have tokens : (lex (tree.datum.chars false)).tokens = tree.tokens := by
    simpa [Tree.tokensOf, OpenTree.tokensOf] using spelled
  have lexed : AreLexed (tree.tokens ++ []) (tree.datum.chars false ++ []) :=
    ⟨0, by simp [tokens, Token.moved_zero]⟩
  exact (passes tree.datum false words [] tree.tokens [] trivial lexed readTree).1

/-- A datum in parentheses that is read back from its text is printed as its row of tokens. -/
theorem exists_row_of_readAll (unmarked : ¬ d.Marked)
    (read : readAll limit (d.chars false) = .ok [d]) :
    ∃ ts, d.Row false ts ∧ lex (d.chars false) = ⟨ts, none⟩ := by
  have isRead : d.IsRead := ⟨limit, d.chars false, [d], read, List.mem_singleton_self d⟩
  obtain ⟨symbols, marked⟩ := isRead.symbols
  have words : d.Words := by
    intro name member
    refine ⟨symbols name member, ?_⟩
    rintro rfl
    exact marked.resolve_left unmarked member
  obtain ⟨ts, row, cut⟩ := exists_row d false words (keepsUnquotes_of_readAll words read)
  refine ⟨ts, row, ?_⟩
  have whole := cut [] trivial
  simpa [Lexed.behind, Lexed.moved] using whole

end Datum

end LazyLisp
