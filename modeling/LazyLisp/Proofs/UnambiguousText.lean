import LazyLisp.Proofs.JoinedText
import LazyLisp.Proofs.ReadBack
import LazyLisp.Proofs.WholeTexts

/-!
Readable texts tell data apart.

What the reader yields from some text is written so that it reads back: its symbols are words by
themselves. The mark of a character literal is such a word only where the text ends, so that a datum
with this symbol is the symbol, with quotation marks in front of it perhaps. Since a text is read in
one way, no two data have the same one. The exceptions are data with an unquoted symbol that starts
with an at sign: its abbreviation is that of a splice.
-/

namespace LazyLisp

namespace Datum

def floatFree : Datum → Bool
  | .atom (.float _) => false
  | .atom _ => true
  | .pair car cdr => car.floatFree && cdr.floatFree

/-- No symbol that starts with an at sign stands behind the mark of an unquotation in the text of
the datum. The rest of a list is never abbreviated. -/
def keepsUnquotes : (inList : Bool) → Datum → Bool
  | _, .atom _ => true
  | inList, .pair car cdr =>
    car.keepsUnquotes false && cdr.keepsUnquotes true && (inList || !abbreviatesToSplice car cdr)

def symbols : Datum → List String
  | .atom (.symbol name) => [name]
  | .atom _ => []
  | .pair car cdr => car.symbols ++ cdr.symbols

theorem symbols_listWith (items : List Datum) (tail : Datum) :
    (listWith items tail).symbols = items.flatMap symbols ++ tail.symbols := by
  induction items with
  | nil => rfl
  | cons item items ih => simp [symbols, ih]

theorem symbols_list (items : List Datum) : (list items).symbols = items.flatMap symbols := by
  simp [list, symbols_listWith, symbols]

/-- Besides numbers and unquotations only symbols can keep a datum from being read back. -/
theorem readsBack_of_symbols {d : Datum} {inList : Bool} (hasText : d.HasText)
    (floatFree : d.floatFree = true) (unquotes : d.keepsUnquotes inList = true)
    (words : ∀ name ∈ d.symbols, isReaderSymbol name = true) (noMark : "#\\" ∉ d.symbols) :
    d.readsBack inList = true := by
  induction d generalizing inList with
  | atom a =>
    cases a with
    | int n => exact hasText
    | float x => cases floatFree
    | symbol name =>
      have other : name ≠ "#\\" := fun same => noMark (by simp [symbols, same])
      simpa [readsBack, other] using words name (by simp [symbols])
    | nil | string _ | char _ => rfl
  | pair car cdr head tail =>
    simp only [Datum.floatFree, keepsUnquotes, Bool.and_eq_true] at floatFree unquotes
    simp only [symbols, List.mem_append, not_or] at words noMark
    have first := head hasText.1 floatFree.1 unquotes.1.1
      (fun name among => words name (.inl among)) noMark.1
    have rest := tail hasText.2 floatFree.2 unquotes.1.2
      (fun name among => words name (.inr among)) noMark.2
    simp [readsBack, first, rest, unquotes.2]

/-- The mark of a character literal as a symbol, with quotation marks in front of it perhaps. -/
inductive Marked : Datum → Prop where
  | symbol : Marked (.symbol "#\\")
  | quotation {name mark d} : Store.quotationMark? name = some mark → Marked d →
      Marked (list [.symbol name, d])

end Datum

section Words

variable {text : List Char} {t : Token} {name : String}

theorem Lexeme.next_of_word {text chars rest : List Char}
    (found : next text = .token .word chars rest) : next chars = .token .word chars [] := by
  obtain ⟨c, more, -, starts, rfl, -⟩ := startsWord_of_next found
  have word : ∀ d ∈ more.takeWhile isWordChar, isWordChar d = true :=
    fun d member => List.mem_takeWhile_imp member
  have alone : StartsWord c (more.takeWhile isWordChar) := by
    refine ⟨starts.plain, ?_, ?_⟩
    · intro rest hash comment
      have whole := List.takeWhile_append_dropWhile (p := isWordChar) (l := more)
      rw [comment] at whole
      exact starts.noComment _ hash whole.symm
    · intro d rest hash literal
      have whole := List.takeWhile_append_dropWhile (p := isWordChar) (l := more)
      rw [literal] at whole
      exact starts.noLiteral d _ hash whole.symm
  have boundary : AtBoundary [] := trivial
  have ends := takeWhile_isWordChar_append word boundary
  rw [List.append_nil] at ends
  rw [next_of_startsWord alone, ends.1, ends.2]

theorem Token.Denotes.symbol (denotes : t.Denotes (.symbol name)) :
    t.kind = .word ∧ t.isDot = false ∧ t.text = name ∧
      Atom.ofWord t.text.toList = .ok (.symbol name) := by
  cases denotes with
  | word kind noDot denotes =>
    refine ⟨kind, noDot, ?_, denotes⟩
    rw [Atom.name_of_ofWord denotes, String.ofList_toList]
  | char kind denotes =>
    unfold Atom.ofCharLiteral at denotes
    split at denotes
    · cases denotes
    · split at denotes <;> cases denotes

theorem isReaderSymbol_of_mem_lex (member : t ∈ (lex text).tokens)
    (denotes : t.Denotes (.symbol name)) : isReaderSymbol name = true := by
  obtain ⟨kind, noDot, rfl, word⟩ := denotes.symbol
  have found := next_of_mem_lex member
  obtain ⟨c, more, spelled, solid⟩ := exists_head_of_mem_lex member
  have start : t.text.toList.dropWhile Text.isBlank = t.text.toList := by
    simp [spelled, solid]
  rw [kind] at found
  have alone := Lexeme.next_of_word found
  have lexed := lex_of_token ((congrArg Lexeme.next start).trans alone)
  have other : t.text ≠ "." := by
    rintro dot
    simp [Token.isDot, kind, dot] at noDot
  simp [isReaderSymbol, lexed, Lexed.behind, Lexed.moved, word, other]

theorem eq_nil_of_mark {front back : List Token} (cut : (lex text).tokens = front ++ t :: back)
    (mark : t.text = "#\\") : back = [] := by
  have member : t ∈ (lex text).tokens := by simp [cut]
  have found := next_of_mem_lex member
  have whole : t.text.toList = ['#', '\\'] := by rw [mark]; rfl
  rw [whole] at found
  have resumed := congrArg Lexed.tokens (lex_drop cut)
  rw [Lexeme.rest_of_mark found, lex_nil] at resumed
  exact resumed.symm

end Words

theorem isReaderSymbol_of_quotationHead? {mark head : String}
    (stands : OpenForm.quotationHead? mark = some head) :
    (∃ sign, Store.quotationMark? head = some sign) ∧ isReaderSymbol head = true ∧
      head ≠ "#\\" := by
  unfold OpenForm.quotationHead? at stands
  split at stands <;> cases stands
  all_goals exact ⟨⟨_, rfl⟩, by decide +kernel, by decide⟩

namespace Tree

variable {tree : Tree} {name : String}

theorem mem_tokensOf {trees : List Tree} {t : Token} (among : tree ∈ trees)
    (token : t ∈ tree.tokens) : t ∈ tokensOf trees := by
  obtain ⟨before, after, rfl⟩ := List.append_of_mem among
  simp [tokensOf, token]

/-- A symbol in the datum is spelled by a token, or it stands for a quotation mark. -/
theorem Valid.exists_of_mem_symbols (valid : tree.Valid) (member : name ∈ tree.datum.symbols) :
    (∃ t ∈ tree.tokens, t.Denotes (.symbol name)) ∨
      ∃ mark, OpenForm.quotationHead? mark = some name := by
  induction valid with
  | @leaf t a denotes =>
    cases a with
    | symbol other =>
      obtain rfl : name = other := by simpa [datum, Datum.symbols] using member
      exact .inl ⟨t, by simp [tokens], denotes⟩
    | _ => simp [datum, Datum.symbols] at member
  | @quotation mark head form marks stands _ ih =>
    simp only [datum, Datum.symbols_list, List.flatMap_cons, List.flatMap_nil, List.append_nil,
      List.mem_append] at member
    rcases member with same | member
    · obtain rfl : name = head := by simpa [Datum.symbols] using same
      exact .inr ⟨mark.text, stands⟩
    · refine (ih member).imp_left ?_
      rintro ⟨t, token, denotes⟩
      exact ⟨t, List.mem_cons_of_mem mark token, denotes⟩
  | @list opening items closing opens closes valid ih =>
    simp only [datum, dataOf_eq_map, Datum.symbols_list, List.flatMap_map,
      List.mem_flatMap] at member
    obtain ⟨item, among, member⟩ := member
    refine (ih item among member).imp_left ?_
    rintro ⟨t, token, denotes⟩
    exact ⟨t, by simp [tokens, mem_tokensOf among token], denotes⟩
  | @dotted opening items dot tail closing opens closes isDot nonempty valid validTail ih ihTail =>
    simp only [datum, dataOf_eq_map, Datum.symbols_listWith, List.flatMap_map, List.mem_append,
      List.mem_flatMap] at member
    rcases member with ⟨item, among, member⟩ | member
    · refine (ih item among member).imp_left ?_
      rintro ⟨t, token, denotes⟩
      exact ⟨t, by simp [tokens, mem_tokensOf among token], denotes⟩
    · refine (ihTail member).imp_left ?_
      rintro ⟨t, token, denotes⟩
      exact ⟨t, by simp [tokens, token], denotes⟩

theorem Valid.noMark_of_closed (valid : tree.Valid) {inside : List Token} {closing : Token}
    (spelled : tree.tokens = inside ++ [closing]) (closes : closing.kind = .rightParen)
    (last : ∀ {front t back}, tree.tokens = front ++ t :: back → t.text = "#\\" → back = []) :
    "#\\" ∉ tree.datum.symbols := by
  intro member
  rcases valid.exists_of_mem_symbols member with ⟨t, among, denotes⟩ | ⟨mark, stands⟩
  · obtain ⟨kind, -, text, -⟩ := denotes.symbol
    rw [spelled, List.mem_append, List.mem_singleton] at among
    rcases among with among | rfl
    · obtain ⟨front, more, rfl⟩ := List.append_of_mem among
      rw [List.append_assoc, List.cons_append] at spelled
      simpa using last spelled text
    · simp [kind] at closes
  · exact (isReaderSymbol_of_quotationHead? stands).2.2 rfl

/-- If the mark of a character literal is the last token or none, then the datum is the mark with
quotation marks in front of it, or the mark is not in it. -/
theorem Valid.marked_or (valid : tree.Valid)
    (last : ∀ {front t back}, tree.tokens = front ++ t :: back → t.text = "#\\" → back = []) :
    tree.datum.Marked ∨ "#\\" ∉ tree.datum.symbols := by
  induction valid with
  | @leaf t a denotes =>
    cases a with
    | symbol name =>
      by_cases same : name = "#\\"
      · subst same
        exact .inl .symbol
      · exact .inr (by simpa [datum, Datum.symbols] using Ne.symm same)
    | _ => exact .inr (by simp [datum, Datum.symbols])
  | @quotation mark head form marks stands valid ih =>
    obtain ⟨⟨sign, named⟩, -, other⟩ := isReaderSymbol_of_quotationHead? stands
    have within : form.datum.Marked ∨ "#\\" ∉ form.datum.symbols := by
      refine ih fun {front t back} cut => ?_
      have behind : (Tree.quotation mark head form).tokens = (mark :: front) ++ t :: back := by
        simp [tokens, cut]
      exact last behind
    refine within.imp (.quotation named) fun noMark => ?_
    simp [datum, Datum.symbols_list, Datum.symbols, noMark, other.symm]
  | @list opening items closing opens closes valid =>
    have spelled : (Tree.list opening items closing).tokens =
        (opening :: tokensOf items) ++ [closing] := by
      simp [tokens]
    exact .inr (noMark_of_closed (.list opens closes valid) spelled closes last)
  | @dotted opening items dot tail closing opens closes isDot nonempty valid validTail =>
    have spelled : (Tree.dotted opening items dot tail closing).tokens =
        (opening :: (tokensOf items ++ dot :: tail.tokens)) ++ [closing] := by
      simp [tokens]
    exact .inr (noMark_of_closed (.dotted opens closes isDot nonempty valid validTail) spelled
      closes last)

end Tree

namespace Datum

variable {d : Datum}

def IsRead (d : Datum) : Prop := ∃ limit text ds, readAll limit text = .ok ds ∧ d ∈ ds

theorem IsRead.symbols (read : d.IsRead) :
    (∀ name ∈ d.symbols, isReaderSymbol name = true) ∧ (d.Marked ∨ "#\\" ∉ d.symbols) := by
  obtain ⟨limit, text, ds, read, member⟩ := read
  obtain ⟨-, reads, -⟩ := readAll_eq_ok_iff.mp read
  obtain ⟨trees, opened, valid, -, rfl, none, spelled⟩ :=
    reads.exists_trees_of_nil fun t => Token.isLexical_of_mem_lex
  obtain rfl := List.map_eq_nil_iff.mp none.symm
  obtain ⟨tree, among, rfl⟩ := List.mem_map.mp member
  obtain ⟨before, after, rfl⟩ := List.append_of_mem among
  have cut : (lex text).tokens =
      Tree.tokensOf before ++ (tree.tokens ++ Tree.tokensOf after) := by
    simpa [OpenTree.tokensOf, Tree.tokensOf] using spelled
  constructor
  · intro name inside
    rcases (valid tree among).exists_of_mem_symbols inside with ⟨t, token, denotes⟩ | ⟨mark, stands⟩
    · have within : t ∈ (lex text).tokens := by simp [cut, token]
      exact isReaderSymbol_of_mem_lex within denotes
    · exact (isReaderSymbol_of_quotationHead? stands).2.1
  · refine (valid tree among).marked_or ?_
    intro front t back split mark
    have whole : (lex text).tokens =
        (Tree.tokensOf before ++ front) ++ t :: (back ++ Tree.tokensOf after) := by
      simp [cut, split]
    exact (List.append_eq_nil_iff.mp (eq_nil_of_mark whole mark)).1

def ReadsAlone (d : Datum) : Prop :=
  ∃ tokens, lex (d.chars false) = ⟨tokens, none⟩ ∧
    ∀ k, d.ParsedFrom (tokens.map (Token.moved k)) false

theorem ReadsAlone.readAll_eq (alone : d.ReadsAlone) : readAll none (d.chars false) = .ok [d] := by
  obtain ⟨tokens, lexed, parsed⟩ := alone
  have leads : Move.Leads [] tokens (.complete d) := by
    simpa [Move.fill] using parsed 0 [] trivial
  have reads := Move.Reads.of_leads leads rfl .done
  rw [List.append_nil] at reads
  rw [readAll_eq_ok_iff, lexed]
  exact ⟨rfl, reads, by simp⟩

theorem readsAlone_of_readsBack (readsBack : d.readsBack false = true) : d.ReadsAlone := by
  obtain ⟨tokens, -, cut, parsed⟩ := d.spelled_of_readsBack false readsBack
  have whole := cut [] trivial
  refine ⟨tokens, ?_, parsed⟩
  simpa [Lexed.behind, Lexed.moved] using whole

theorem Marked.head_chars_ne_at (marked : d.Marked) : (d.chars false).head? ≠ some '@' := by
  cases marked with
  | symbol => simp [chars, Atom.write]
  | @quotation name mark item found _ =>
    have text : chars false (list [.symbol name, item]) = mark.toList ++ item.chars false :=
      chars_abbreviated found
    rw [text]
    unfold Store.quotationMark? at found
    split at found <;> cases found <;> simp

theorem Marked.readsAlone (marked : d.Marked) : d.ReadsAlone := by
  induction marked with
  | symbol =>
    have word : Atom.ofWord "#\\".toList = .ok (.symbol "#\\") := by rfl
    refine ⟨[⟨.word, "#\\", 0, 2⟩], by decide +kernel, fun k stack awaits => ?_⟩
    exact .last (Move.feed_of_denotes awaits (.word rfl rfl word))
  | @quotation name mark item found marked ih =>
    obtain ⟨t, quotation, stands, cut⟩ := exists_mark found
    obtain ⟨tokens, lexed, parsed⟩ := ih
    have text : chars false (list [.symbol name, item]) = mark.toList ++ item.chars false :=
      chars_abbreviated found
    have whole := cut (item.chars false) fun _ => marked.head_chars_ne_at
    refine ⟨t :: tokens.map (Token.moved mark.toList.length), ?_, fun k stack awaits => ?_⟩
    · rw [text, whole, lexed]
      rfl
    · rw [List.map_cons, List.map_map, Token.moved_comp_moved]
      refine .next (Move.feed_quotation awaits quotation stands) ?_
      exact parsed _ (.quotation name :: stack) trivial

/-- A datum of some text, without doubles and without an unquotation that is written like a
splice. -/
structure IsPlain (d : Datum) : Prop where
  read : d.IsRead
  floatFree : d.floatFree = true
  unquotes : d.keepsUnquotes false = true

theorem IsPlain.readsAlone (plain : d.IsPlain) (hasText : d.HasText) : d.ReadsAlone := by
  obtain ⟨words, marked | noMark⟩ := plain.read.symbols
  · exact marked.readsAlone
  · exact readsAlone_of_readsBack
      (readsBack_of_symbols hasText plain.floatFree plain.unquotes words noMark)

end Datum

/-- Values with the same readable text stand for the same datum. Neither the limit for nesting nor
what the store holds matters. -/
theorem eq_of_readable_eq {s s' : Store} {v w : Value} {d e : Datum} (first : v.Denotes d)
    (second : w.Denotes e) (plain : d.IsPlain) (plain' : e.IsPlain) {room room' : Option Nat}
    {text : String} (written : s.readable room v = .ok text)
    (written' : s'.readable room' w = .ok text) : d = e := by
  obtain ⟨hasText, rfl⟩ := s.readable_eq_ok_of_denotes first written
  obtain ⟨hasText', same⟩ := s'.readable_eq_ok_of_denotes second written'
  have chars : d.chars false = e.chars false := by simpa [← String.toList_inj] using same
  have read := (plain.readsAlone hasText).readAll_eq
  rw [chars, (plain'.readsAlone hasText').readAll_eq] at read
  simpa using read.symm

/-- Two pairs of different marks, one of them written within a limit. -/
theorem eq_of_readable_eq_marks :
    Datum.IsPlain (.list [.symbol "quote", .symbol "#\\"]) ∧
      Store.empty.readable none (.pair 0 (.symbol "quote") (.pair 1 (.symbol "#\\") .nil)) =
        .ok "'#\\" ∧
      Store.empty.readable (some 5) (.pair 7 (.symbol "quote") (.pair 3 (.symbol "#\\") .nil)) =
        .ok "'#\\" ∧
      Datum.list [.symbol "quote", .symbol "#\\"] = .list [.symbol "quote", .symbol "#\\"] := by
  have plain : Datum.IsPlain (.list [.symbol "quote", .symbol "#\\"]) := by
    refine ⟨⟨none, ['\'', '#', '\\'], _, by with_unfolding_all rfl, List.mem_cons_self⟩, rfl, ?_⟩
    decide +kernel
  have first : Store.empty.readable none
      (.pair 0 (.symbol "quote") (.pair 1 (.symbol "#\\") .nil)) = .ok "'#\\" := by rfl
  have second : Store.empty.readable (some 5)
      (.pair 7 (.symbol "quote") (.pair 3 (.symbol "#\\") .nil)) = .ok "'#\\" := by rfl
  exact ⟨plain, first, second, eq_of_readable_eq (by repeat' constructor) (by repeat' constructor)
    plain plain first second⟩

/-- The unquotation of a symbol that starts with an at sign is written like a splice. -/
theorem readable_unquotedAt :
    ∃ d e, readAll none "(unquote @x)".toList = .ok [d] ∧
      readAll none "(unquote-splicing x)".toList = .ok [e] ∧ d ≠ e ∧
      Store.readableDatum none d = .ok ",@x" ∧ Store.readableDatum none e = .ok ",@x" := by
  refine ⟨.list [.symbol "unquote", .symbol "@x"], .list [.symbol "unquote-splicing", .symbol "x"],
    by with_unfolding_all rfl, by with_unfolding_all rfl, ?_, by rfl, by rfl⟩
  simp [Datum.list]

end LazyLisp
