import LazyLisp.Proofs.ProperTokens
import LazyLisp.Proofs.Resuming

/-!
The parser accepts the grammar.

What the parser has read and what it holds open are the tokens of trees that are complete or begun,
so that it accepts grammatical tokens only; and along the tokens of a tree it never fails. Whatever
it holds open can be completed. So the parser fails at the first token behind which nothing can
follow any more, and where the tokens end inside a form, some others complete them.
-/

namespace LazyLisp

namespace Move

/-- From a stack, the parser takes the tokens without a failure, finishes the forms in turn and ends
with a stack. -/
inductive Reads : List OpenForm → List Token → List Datum → List OpenForm → Prop where
  | done {stack} : Reads stack [] [] stack
  | stay {stack below t ts ds last} : feed stack t = .ok (.stay below) → Reads below ts ds last →
      Reads stack (t :: ts) ds last
  | complete {stack t d ts ds last} : feed stack t = .ok (.complete d) → Reads [] ts ds last →
      Reads stack (t :: ts) (d :: ds) last

namespace Reads

variable {stack middle last : List OpenForm} {ts us : List Token} {ds es : List Datum}

theorem append (first : Reads stack ts ds middle) (second : Reads middle us es last) :
    Reads stack (ts ++ us) (ds ++ es) last := by
  induction first with
  | done => exact second
  | stay fed _ ih => exact .stay fed (ih second)
  | complete fed _ ih => exact .complete fed (ih second)

/-- A run that completes a form goes on with the next one. -/
theorem of_leads {move : Move} {d : Datum} (leads : Leads stack ts move) (ends : move = .complete d)
    (rest : Reads [] us ds last) : Reads stack (ts ++ us) (d :: ds) last := by
  induction leads with
  | last fed =>
    subst ends
    exact .complete fed rest
  | next fed _ ih => exact .stay fed (ih ends)

/-- The parser goes on behind a run with the forms of the run and where it ended. -/
theorem parseFormsFrom_append (reads : Reads stack ts ds last) (failure : Option ReadError)
    (done : Array (Datum × Nat)) (pos : Nat) :
    ∃ forms, forms.toList.map Prod.fst = done.toList.map Prod.fst ++ ds ∧
      ∀ later, parseFormsFrom failure done stack pos (ts ++ later) =
        parseFormsFrom failure forms last (lastStop pos ts) later := by
  induction reads generalizing done pos with
  | done => exact ⟨done, by simp, fun _ => rfl⟩
  | @stay stack below t ts ds last fed _ ih =>
    obtain ⟨forms, same, parsed⟩ := ih done t.stop
    refine ⟨forms, same, ?_⟩
    intro later
    simpa [parseFormsFrom, fed] using parsed later
  | @complete stack t d ts ds last fed _ ih =>
    obtain ⟨forms, same, parsed⟩ := ih (done.push (d, t.stop)) t.stop
    refine ⟨forms, by simpa using same, ?_⟩
    intro later
    simpa [parseFormsFrom, fed] using parsed later

end Reads

/-- The parser takes all tokens, or it fails at one of them. -/
theorem reads_or_fails (stack : List OpenForm) (ts : List Token) :
    (∃ ds last, Reads stack ts ds last) ∨
      ∃ front t back ds middle f, ts = front ++ t :: back ∧ Reads stack front ds middle ∧
        feed middle t = .error f := by
  induction ts generalizing stack with
  | nil => exact .inl ⟨[], stack, .done⟩
  | cons t ts ih =>
    cases fed : feed stack t with
    | error f => exact .inr ⟨[], t, ts, [], stack, f, rfl, .done, fed⟩
    | ok move =>
      cases move with
      | stay below =>
        rcases ih below with ⟨ds, last, reads⟩ | ⟨front, u, back, ds, middle, f, rfl, reads, fails⟩
        · exact .inl ⟨ds, last, .stay fed reads⟩
        · exact .inr ⟨t :: front, u, back, ds, middle, f, rfl, .stay fed reads, fails⟩
      | complete d =>
        rcases ih [] with ⟨ds, last, reads⟩ | ⟨front, u, back, ds, middle, f, rfl, reads, fails⟩
        · exact .inl ⟨d :: ds, last, .complete fed reads⟩
        · exact .inr ⟨t :: front, u, back, d :: ds, middle, f, rfl, .complete fed reads, fails⟩

/-- A run that reads all tokens does not fail at one of them. -/
theorem Reads.not_fails {stack middle last : List OpenForm} {front back : List Token} {t : Token}
    {ds es : List Datum} {f : ReadFailure} (reads : Reads stack (front ++ t :: back) ds last)
    (first : Reads stack front es middle) (fails : feed middle t = .error f) : False := by
  induction first generalizing ds with
  | done =>
    cases reads with
    | stay fed _ => simp [fails] at fed
    | complete fed _ => simp [fails] at fed
  | stay fed _ ih =>
    cases reads with
    | stay fed' rest =>
      simp only [fed, Except.ok.injEq, stay.injEq] at fed'
      exact ih (fed' ▸ rest) fails
    | complete fed' _ => simp [fed] at fed'
  | complete fed _ ih =>
    cases reads with
    | stay fed' _ => simp [fed] at fed'
    | complete _ rest => exact ih rest fails

/-- Of the tokens of a text only a word can make the parser break down. -/
theorem breakdown_of_feed {stack : List OpenForm} {t : Token} {b : Breakdown}
    (lexical : t.IsLexical) (fed : feed stack t = .error (.breakdown b)) :
    t.kind = .word ∧ Atom.ofWord t.text.toList = .error b := by
  have begins (stack : List OpenForm) (begun : begin stack t = .error (.breakdown b)) :
      t.kind = .word ∧ Atom.ofWord t.text.toList = .error b := by
    unfold begin at begun
    split at begun
    · next kind =>
      refine ⟨kind, ?_⟩
      split at begun
      · cases begun
      · split at begun
        · cases begun
        · next failed =>
          cases begun
          exact failed
    · next kind =>
      obtain ⟨head, stands⟩ := lexical.exists_head (by simp [kind, Token.Kind.isQuotation])
      simp [stands] at begun
    · next kind =>
      obtain ⟨head, stands⟩ := lexical.exists_head (by simp [kind, Token.Kind.isQuotation])
      simp [stands] at begun
    · cases begun
    · cases begun
    · next kind =>
      obtain ⟨a, denotes⟩ := lexical.exists_char kind
      simp [denotes] at begun
    · next kind =>
      obtain ⟨body, spelled, decodes⟩ := lexical.exists_body kind
      rw [Token.unescape_of_spelled spelled] at begun
      cases decoded : Atom.unescapeFrom [] t.start body with
      | ok text =>
        rw [decoded] at begun
        cases begun
      | error f =>
        rw [decoded] at begun
        cases begun
        exact absurd decoded (decodes [] t.start b)
    · next name kind => exact absurd kind (lexical.kind_ne_other name)
  unfold feed at fed
  (repeat' split at fed) <;> first | cases fed | exact begins _ fed

/-- A proper token makes the parser fail only with an error, and one that no token can mend. -/
theorem error_of_feed {stack : List OpenForm} {t : Token} {f : ReadFailure} (proper : t.IsProper)
    (fed : feed stack t = .error f) : ∃ e, f = .error e ∧ e.issue.wantsMore = false := by
  have settled := wantsMore_of_feed fed
  cases f with
  | error e => exact ⟨e, rfl, settled⟩
  | breakdown b =>
    obtain ⟨kind, failed⟩ := breakdown_of_feed proper.lexical fed
    obtain ⟨a, denotes⟩ := proper.exists_word kind
    cases denotes.symm.trans failed

end Move

theorem Move.feed_of_denotes {stack : List OpenForm} {t : Token} {a : Atom} (awaits : Awaits stack)
    (denotes : t.Denotes a) : feed stack t = .ok (fill (.atom a) stack) := by
  cases denotes with
  | word kind noDot denotes =>
    rw [feed_eq_begin awaits (by simp [kind]) noDot]
    simp [begin, kind, noDot, denotes]
  | char kind denotes =>
    rw [feed_eq_begin awaits (by simp [kind]) (by simp [Token.isDot, kind])]
    simp [begin, kind, denotes]
  | string kind spelled known =>
    rw [feed_eq_begin awaits (by simp [kind]) (by simp [Token.isDot, kind])]
    simp [begin, kind, Token.unescape_of_spelled spelled, known.unescapeFrom_eq, Functor.map,
      Except.map]

namespace Tree

/-- The parser takes the tokens of a tree wherever a form may start, and fills in its form. -/
def Leads (tree : Tree) : Prop :=
  ∀ {stack}, Move.Awaits stack → Move.Leads stack tree.tokens (Move.fill tree.datum stack)

theorem leads_items {items : List Tree} (leads : ∀ item ∈ items, item.Leads) {start : Nat}
    {done : List Datum} {stack : List OpenForm} {ts : List Token} {move : Move}
    (rest : Move.Leads (.list start ((items.map datum).reverse ++ done) :: stack) ts move) :
    Move.Leads (.list start done :: stack) (tokensOf items ++ ts) move := by
  induction items generalizing done with
  | nil => exact rest
  | cons item items ih =>
    rw [tokensOf, List.append_assoc]
    have awaits : Move.Awaits (.list start done :: stack) := trivial
    refine (leads item List.mem_cons_self awaits).append ?_
    refine ih (fun item among => leads item (List.mem_cons_of_mem _ among)) ?_
    simpa using rest

theorem Valid.leads {tree : Tree} (valid : tree.Valid) : tree.Leads := by
  intro stack awaits
  induction valid generalizing stack with
  | leaf denotes => exact .last (Move.feed_of_denotes awaits denotes)
  | quotation marks stands _ ih =>
    refine .next (Move.feed_quotation awaits marks stands) ?_
    exact ih trivial
  | list opens closes _ ih =>
    refine .next (Move.feed_leftParen awaits opens) (leads_items (fun item among => ih item among) ?_)
    refine .last ?_
    rw [Move.feed_list_rightParen closes]
    simp [datum]
  | @dotted opening items dot tail closing opens closes isDot nonempty _ _ ih ihTail =>
    refine .next (Move.feed_leftParen awaits opens) (leads_items (fun item among => ih item among) ?_)
    refine .next (Move.feed_list_dot (by simpa using nonempty) isDot) ?_
    have awaits : Move.Awaits (.dotted opening.start ((items.map datum).reverse ++ []) none :: stack) :=
      trivial
    refine (ihTail awaits).append (.last ?_)
    rw [Move.feed_dotted_rightParen closes]
    simp [datum]

end Tree

theorem Derives.reads {trees : List Tree} {ts : List Token} (derives : Derives trees ts) :
    Move.Reads [] ts (trees.map Tree.datum) [] := by
  obtain ⟨valid, rfl⟩ := derives
  induction trees with
  | nil => exact .done
  | cons tree trees ih =>
    have rest := ih fun tree among => valid tree (List.mem_cons_of_mem _ among)
    exact .of_leads ((valid tree List.mem_cons_self).leads trivial) rfl rest

inductive OpenTree where
  | quotation (mark : Token) (head : String)
  | list (opening : Token) (items : List Tree)
  | dotted (opening : Token) (items : List Tree) (dot : Token) (tail : Option Tree)

namespace OpenTree

def tokens : OpenTree → List Token
  | quotation mark _ => [mark]
  | list opening items => opening :: Tree.tokensOf items.reverse
  | dotted opening items dot tail =>
    opening :: (Tree.tokensOf items.reverse ++ dot :: Tree.tokensOf tail.toList)

def form : OpenTree → OpenForm
  | quotation _ head => .quotation head
  | list opening items => .list opening.start (items.map Tree.datum)
  | dotted opening items _ tail => .dotted opening.start (items.map Tree.datum) (tail.map Tree.datum)

inductive Valid : OpenTree → Prop where
  | quotation {mark head} : mark.kind.isQuotation = true →
      OpenForm.quotationHead? mark.text = some head → Valid (quotation mark head)
  | list {opening items} : opening.kind = .leftParen → (∀ item ∈ items, item.Valid) →
      Valid (list opening items)
  | dotted {opening items dot tail} : opening.kind = .leftParen → dot.isDot = true → items ≠ [] →
      (∀ item ∈ items, item.Valid) → (∀ tree ∈ tail, tree.Valid) →
      Valid (dotted opening items dot tail)

inductive Stack : List OpenTree → Prop where
  | nil : Stack []
  | cons {tree below} : tree.Valid → Move.Awaits (below.map form) → Stack below →
      Stack (tree :: below)

def tokensOf : List OpenTree → List Token
  | [] => []
  | tree :: below => tokensOf below ++ tree.tokens

end OpenTree

inductive Explains (ts : List Token) : Move → Prop where
  | complete {tree : Tree} : tree.Valid → tree.tokens = ts → Explains ts (.complete tree.datum)
  | stay {stack : List OpenTree} : OpenTree.Stack stack → OpenTree.tokensOf stack = ts →
      Explains ts (.stay (stack.map OpenTree.form))

theorem Explains.fill {stack : List OpenTree} {tree : Tree} (valid : OpenTree.Stack stack)
    (awaits : Move.Awaits (stack.map OpenTree.form)) (new : tree.Valid) :
    Explains (OpenTree.tokensOf stack ++ tree.tokens)
      (Move.fill tree.datum (stack.map OpenTree.form)) := by
  induction valid generalizing tree with
  | nil => exact .complete new rfl
  | @cons opened below here awaitsBelow rest ih =>
    cases here with
    | @quotation mark head marks stands =>
      have filled := ih awaitsBelow (.quotation marks stands new)
      rw [OpenTree.tokensOf, List.append_assoc]
      exact filled
    | @list opening items opens valid =>
      have more : ∀ item ∈ tree :: items, item.Valid := by
        simpa using ⟨new, valid⟩
      refine .stay (.cons (.list opens more) awaitsBelow rest) ?_
      simp [OpenTree.tokensOf, OpenTree.tokens, Tree.tokensOf]
    | @dotted opening items dot tail opens isDot nonempty valid _ =>
      cases tail with
      | some tail => exact False.elim awaits
      | none =>
        have filled : OpenTree.Stack (.dotted opening items dot (some tree) :: below) :=
          .cons (.dotted opens isDot nonempty valid (by simpa using new)) awaitsBelow rest
        refine .stay filled ?_
        simp [OpenTree.tokensOf, OpenTree.tokens, Tree.tokensOf]

theorem Explains.begin {stack : List OpenTree} {t : Token} {move : Move}
    (valid : OpenTree.Stack stack) (awaits : Move.Awaits (stack.map OpenTree.form))
    (lexical : t.IsLexical) (begun : Move.begin (stack.map OpenTree.form) t = .ok move) :
    Explains (OpenTree.tokensOf stack ++ [t]) move := by
  have literal {a : Atom} (denotes : t.Denotes a) :
      Explains (OpenTree.tokensOf stack ++ [t]) (Move.fill (.atom a) (stack.map OpenTree.form)) :=
    Explains.fill valid awaits (.leaf denotes)
  have mark (isMark : t.kind.isQuotation = true) {head : String}
      (stands : OpenForm.quotationHead? t.text = some head) :
      Explains (OpenTree.tokensOf stack ++ [t])
        (.stay (.quotation head :: stack.map OpenTree.form)) :=
    .stay (.cons (.quotation isMark stands) awaits valid) rfl
  unfold Move.begin at begun
  split at begun
  · next kind =>
    split at begun
    · cases begun
    · next noDot =>
      split at begun
      · next a denotes =>
        cases begun
        exact literal (.word kind (by simpa using noDot) denotes)
      · cases begun
  · next kind =>
    split at begun
    · next head stands =>
      cases begun
      exact mark (by simp [kind, Token.Kind.isQuotation]) stands
    · cases begun
  · next kind =>
    split at begun
    · next head stands =>
      cases begun
      exact mark (by simp [kind, Token.Kind.isQuotation]) stands
    · cases begun
  · next kind =>
    cases begun
    have opened : OpenTree.Stack (.list t [] :: stack) := .cons (.list kind (by simp)) awaits valid
    exact .stay opened rfl
  · cases begun
  · next kind =>
    split at begun
    · next a denotes =>
      cases begun
      exact literal (.char kind denotes)
    · cases begun
  · next kind =>
    obtain ⟨body, spelled, -⟩ := lexical.exists_body kind
    rw [Token.unescape_of_spelled spelled] at begun
    cases decoded : Atom.unescapeFrom [] t.start body with
    | ok text =>
      rw [decoded] at begun
      cases begun
      obtain ⟨text, rfl, known⟩ := Escaped.of_unescapeFrom decoded
      exact literal (.string kind spelled known)
    | error f =>
      rw [decoded] at begun
      cases begun
  · cases begun

theorem Explains.feed {stack : List OpenTree} {t : Token} {move : Move}
    (valid : OpenTree.Stack stack) (lexical : t.IsLexical)
    (fed : Move.feed (stack.map OpenTree.form) t = .ok move) :
    Explains (OpenTree.tokensOf stack ++ [t]) move := by
  cases valid with
  | nil => exact Explains.begin .nil trivial lexical fed
  | @cons opened below here awaits rest =>
    cases here with
    | @quotation mark head marks stands =>
      exact Explains.begin (.cons (.quotation marks stands) awaits rest) trivial lexical fed
    | @list opening items opens items_valid =>
      have whole : OpenTree.Stack (.list opening items :: below) :=
        .cons (.list opens items_valid) awaits rest
      simp only [List.map_cons, OpenTree.form, Move.feed, List.isEmpty_map] at fed
      split at fed
      · next closes =>
        cases fed
        have closed : (Tree.list opening items.reverse t).Valid :=
          .list opens (by simpa using closes) (by simpa using items_valid)
        have filled := Explains.fill rest awaits closed
        simpa [OpenTree.tokensOf, OpenTree.tokens, Tree.tokens, Tree.datum] using filled
      · split at fed
        · next isDot =>
          split at fed
          · cases fed
          · next nonempty =>
            cases fed
            have dotted : OpenTree.Stack (.dotted opening items t none :: below) := by
              refine .cons (.dotted opens isDot ?_ items_valid (by simp)) awaits rest
              simpa using nonempty
            refine .stay dotted ?_
            simp [OpenTree.tokensOf, OpenTree.tokens, Tree.tokensOf]
        · exact Explains.begin whole trivial lexical fed
    | @dotted opening items dot tail opens isDot nonempty items_valid tail_valid =>
      cases tail with
      | none =>
        exact Explains.begin (.cons (.dotted opens isDot nonempty items_valid tail_valid) awaits rest)
          trivial lexical fed
      | some tail =>
        simp only [List.map_cons, OpenTree.form, Option.map_some, Move.feed] at fed
        split at fed
        · next closes =>
          cases fed
          have closed : (Tree.dotted opening items.reverse dot tail t).Valid :=
            .dotted opens (by simpa using closes) isDot (by simpa using nonempty)
              (by simpa using items_valid) (by simpa using tail_valid)
          have filled := Explains.fill rest awaits closed
          simpa [OpenTree.tokensOf, OpenTree.tokens, Tree.tokens, Tree.datum, Tree.tokensOf]
            using filled
        · cases fed

/-- What the parser has read are trees, and what it holds open are trees that have been begun. -/
theorem Move.Reads.exists_trees {stack : List OpenTree} {ts : List Token} {ds : List Datum}
    {last : List OpenForm} (reads : Move.Reads (stack.map OpenTree.form) ts ds last)
    (valid : OpenTree.Stack stack) (lexical : ∀ t ∈ ts, t.IsLexical) :
    ∃ (trees : List Tree) (opened : List OpenTree), (∀ tree ∈ trees, tree.Valid) ∧
      OpenTree.Stack opened ∧ ds = trees.map Tree.datum ∧ last = opened.map OpenTree.form ∧
      OpenTree.tokensOf stack ++ ts = Tree.tokensOf trees ++ OpenTree.tokensOf opened := by
  generalize same : stack.map OpenTree.form = forms at reads
  induction reads generalizing stack with
  | done => exact ⟨[], stack, by simp, valid, rfl, same.symm, by simp [Tree.tokensOf]⟩
  | @stay forms below t ts ds last fed _ ih =>
    subst same
    have explained := Explains.feed valid (lexical t List.mem_cons_self) fed
    generalize move : Move.stay below = moved at explained
    cases explained with
    | complete => cases move
    | @stay next valid spelled =>
      cases move
      obtain ⟨trees, opened, validTrees, validOpened, rfl, rfl, tokens⟩ :=
        ih valid (fun t among => lexical t (List.mem_cons_of_mem _ among)) rfl
      refine ⟨trees, opened, validTrees, validOpened, rfl, rfl, ?_⟩
      rw [← tokens, spelled]
      simp
  | @complete forms t d ts ds last fed _ ih =>
    subst same
    have explained := Explains.feed valid (lexical t List.mem_cons_self) fed
    generalize move : Move.complete d = moved at explained
    cases explained with
    | stay => cases move
    | @complete tree validTree spelled =>
      cases move
      obtain ⟨trees, opened, validTrees, validOpened, rfl, rfl, tokens⟩ :=
        ih .nil (fun t among => lexical t (List.mem_cons_of_mem _ among)) rfl
      refine ⟨tree :: trees, opened, by simpa using ⟨validTree, validTrees⟩, validOpened, rfl, rfl, ?_⟩
      rw [Tree.tokensOf, List.append_assoc, ← tokens, spelled]
      simp [OpenTree.tokensOf]

/-- All the tokens of a run are the tokens of complete trees and of trees that have been begun. -/
theorem Move.Reads.exists_trees_of_nil {ts : List Token} {ds : List Datum} {last : List OpenForm}
    (reads : Move.Reads [] ts ds last) (lexical : ∀ t ∈ ts, t.IsLexical) :
    ∃ (trees : List Tree) (opened : List OpenTree), (∀ tree ∈ trees, tree.Valid) ∧
      OpenTree.Stack opened ∧ ds = trees.map Tree.datum ∧ last = opened.map OpenTree.form ∧
      ts = Tree.tokensOf trees ++ OpenTree.tokensOf opened := by
  have fromStart : Move.Reads (([] : List OpenTree).map OpenTree.form) ts ds last := reads
  simpa [OpenTree.tokensOf] using fromStart.exists_trees .nil lexical

theorem Token.exists_word : ∃ t : Token, t.IsProper ∧ t.Denotes (.symbol "a") := by
  refine ⟨⟨.word, "a", 0, 1⟩, ⟨⟨['a'], ⟨.word, "a", 0, 1⟩, ?_, rfl, rfl⟩, ?_⟩, ?_⟩
  · decide +kernel
  · intro negative digits _ integer
    cases integer
  · exact .word rfl rfl rfl

theorem Token.exists_close : ∃ t : Token, t.IsProper ∧ t.kind = .rightParen := by
  refine ⟨⟨.rightParen, ")", 0, 1⟩, ⟨⟨[')'], ⟨.rightParen, ")", 0, 1⟩, ?_, rfl, rfl⟩, ?_⟩, rfl⟩
  · decide +kernel
  · intro negative digits kind
    cases kind

namespace Move

variable {stack below : List OpenForm} {t : Token} {d : Datum}

theorem exists_leads_fill (proper : t.IsProper) (fed : feed stack t = .ok (fill d below)) :
    ∃ more e, (∀ u ∈ more, u.IsProper) ∧ Leads stack (t :: more) (.complete e) := by
  induction below generalizing d stack t with
  | nil => exact ⟨[], d, by simp, .last fed⟩
  | cons opened below ih =>
    obtain ⟨close, properClose, closes⟩ := Token.exists_close
    cases opened with
    | quotation head => exact ih proper fed
    | list start items =>
      obtain ⟨more, e, properMore, leads⟩ := ih properClose (feed_list_rightParen closes)
      exact ⟨close :: more, e, by simpa using ⟨properClose, properMore⟩, .next fed leads⟩
    | dotted start items tail =>
      obtain ⟨more, e, properMore, leads⟩ := ih properClose (feed_dotted_rightParen closes)
      exact ⟨close :: more, e, by simpa using ⟨properClose, properMore⟩, .next fed leads⟩

theorem exists_reads_of_feed (proper : t.IsProper) (fed : feed stack t = .ok (fill d below)) :
    ∃ more ds, (∀ u ∈ more, u.IsProper) ∧ Reads stack more ds [] := by
  obtain ⟨more, e, properMore, leads⟩ := exists_leads_fill proper fed
  refine ⟨t :: more, [e], by simpa using ⟨proper, properMore⟩, ?_⟩
  simpa using Reads.of_leads leads rfl .done

theorem exists_reads (stack : List OpenForm) :
    ∃ more ds, (∀ u ∈ more, u.IsProper) ∧ Reads stack more ds [] := by
  obtain ⟨word, properWord, denotes⟩ := Token.exists_word
  obtain ⟨close, properClose, closes⟩ := Token.exists_close
  match stack with
  | [] => exact ⟨[], [], by simp, .done⟩
  | .quotation head :: below =>
    have awaits : Awaits (.quotation head :: below) := trivial
    exact exists_reads_of_feed properWord (feed_of_denotes awaits denotes)
  | .list start items :: below => exact exists_reads_of_feed properClose (feed_list_rightParen closes)
  | .dotted start items none :: below =>
    have awaits : Awaits (.dotted start items none :: below) := trivial
    exact exists_reads_of_feed properWord (feed_of_denotes awaits denotes)
  | .dotted start items (some tail) :: below =>
    exact exists_reads_of_feed properClose (feed_dotted_rightParen closes)

end Move

/-- Some proper tokens complete the tokens to forms. -/
def Viable (ts : List Token) : Prop :=
  ∃ more, (∀ t ∈ more, t.IsProper) ∧ Grammatical (ts ++ more)

section Runs

variable {ts : List Token} {ds : List Datum} {last : List OpenForm}

theorem grammatical_of_reads (reads : Move.Reads [] ts ds []) (lexical : ∀ t ∈ ts, t.IsLexical) :
    Grammatical ts := by
  obtain ⟨trees, opened, valid, -, -, none, spelled⟩ := reads.exists_trees_of_nil lexical
  obtain rfl := List.map_eq_nil_iff.mp none.symm
  exact ⟨trees, valid, by simpa [OpenTree.tokensOf] using spelled.symm⟩

theorem viable_of_reads (reads : Move.Reads [] ts ds last) (proper : ∀ t ∈ ts, t.IsProper) :
    Viable ts := by
  obtain ⟨more, es, properMore, completes⟩ := Move.exists_reads last
  refine ⟨more, properMore, grammatical_of_reads (reads.append completes) ?_⟩
  intro t among
  rcases List.mem_append.mp among with among | among
  · exact (proper t among).lexical
  · exact (properMore t among).lexical

theorem not_viable_of_fails {front : List Token} {t : Token} {f : ReadFailure}
    (reads : Move.Reads [] front ds last) (fails : Move.feed last t = .error f) :
    ¬ Viable (front ++ [t]) := by
  rintro ⟨more, -, trees, derives⟩
  have all := derives.reads
  rw [List.append_assoc] at all
  exact all.not_fails reads fails

end Runs

/-- A parser tells whether tokens are grammatical and what they spell, whether others could complete
them, and otherwise which token is the first that makes this impossible. The tokens behind that one
do not matter. -/
structure Decides (parse : List Token → ParsedForms) (ts : List Token) : Prop where
  accepts : (parse ts).failure = none ↔ Grammatical ts
  derives : Grammatical ts → ∃ trees, Derives trees ts ∧
    (∀ others, Derives others ts → others = trees) ∧
    (parse ts).forms.map Prod.fst = trees.map Tree.datum
  incomplete : (∃ e, (parse ts).failure = some (.error e) ∧ e.issue.isIncomplete = true) ↔
    ¬ Grammatical ts ∧ Viable ts
  impossible : ¬ Viable ts → ∃ front t back e, ts = front ++ t :: back ∧
    Viable front ∧ ¬ Viable (front ++ [t]) ∧ e.issue.wantsMore = false ∧
    ∀ later, parse (front ++ t :: later) = ⟨(parse ts).forms, some (.error e), t.stop⟩

theorem Viable.of_append {ts more : List Token} (viable : Viable (ts ++ more))
    (proper : ∀ t ∈ more, t.IsProper) : Viable ts := by
  obtain ⟨rest, properRest, grammatical⟩ := viable
  refine ⟨more ++ rest, ?_, by simpa using grammatical⟩
  intro t among
  rcases List.mem_append.mp among with among | among
  · exact proper t among
  · exact properRest t among

section Ends

variable {ts : List Token} {ds : List Datum} {last : List OpenForm}

theorem parseForms_of_derives {trees : List Tree} (derives : Derives trees ts) :
    (parseForms ⟨ts, none⟩).failure = none ∧
      (parseForms ⟨ts, none⟩).forms.map Prod.fst = trees.map Tree.datum := by
  obtain ⟨forms, same, parsed⟩ := derives.reads.parseFormsFrom_append none #[] 0
  have ended := parsed []
  rw [List.append_nil] at ended
  rw [parseForms, ended]
  exact ⟨rfl, by simpa [parseFormsFrom] using same⟩

theorem parseForms_of_open (reads : Move.Reads [] ts ds last) (opened : last ≠ []) :
    ∃ e, (parseForms ⟨ts, none⟩).failure = some (.error e) ∧ e.issue.isIncomplete = true := by
  obtain ⟨forms, -, parsed⟩ := reads.parseFormsFrom_append none #[] 0
  have ended := parsed []
  rw [List.append_nil] at ended
  rw [parseForms, ended]
  refine ⟨Move.missing last (lastStop 0 ts), by simp [parseFormsFrom, opened], ?_⟩
  unfold Move.missing
  split
  · exact absurd rfl opened
  all_goals rfl

theorem parseForms_of_fails {front : List Token} {t : Token} {f : ReadFailure}
    (reads : Move.Reads [] front ds last) (fails : Move.feed last t = .error f) :
    ∃ forms, ∀ later, parseForms ⟨front ++ t :: later, none⟩ = ⟨forms, some f, t.stop⟩ := by
  obtain ⟨forms, -, parsed⟩ := reads.parseFormsFrom_append none #[] 0
  refine ⟨forms.toList, ?_⟩
  intro later
  rw [parseForms, parsed]
  simp [parseFormsFrom, fails]

end Ends

/-- The parser decides every row of proper tokens. -/
theorem parseForms_decides (ts : List Token) (proper : ∀ t ∈ ts, t.IsProper) :
    Decides (fun ts => parseForms ⟨ts, none⟩) ts := by
  have derives : Grammatical ts → ∃ trees, Derives trees ts ∧
      (∀ others, Derives others ts → others = trees) ∧
      (parseForms ⟨ts, none⟩).forms.map Prod.fst = trees.map Tree.datum := by
    rintro ⟨trees, derives⟩
    exact ⟨trees, derives, fun others same => same.unique derives, (parseForms_of_derives derives).2⟩
  have accepted : Grammatical ts → (parseForms ⟨ts, none⟩).failure = none := by
    rintro ⟨trees, derives⟩
    exact (parseForms_of_derives derives).1
  rcases Move.reads_or_fails [] ts with ⟨ds, last, reads⟩ |
      ⟨front, t, back, ds, middle, f, rfl, reads, fails⟩
  · have viable := viable_of_reads reads proper
    by_cases closed : last = []
    · subst closed
      have grammatical := grammatical_of_reads reads fun t among => (proper t among).lexical
      have none := accepted grammatical
      refine ⟨⟨fun _ => grammatical, accepted⟩, derives, ⟨?_, ?_⟩, fun not => absurd viable not⟩
      · rintro ⟨e, failed, -⟩
        simp [none] at failed
      · rintro ⟨not, -⟩
        exact absurd grammatical not
    · obtain ⟨e, failed, incomplete⟩ := parseForms_of_open reads closed
      have not : ¬ Grammatical ts := by
        intro grammatical
        simp [accepted grammatical] at failed
      refine ⟨⟨?_, accepted⟩, derives, ⟨fun _ => ⟨not, viable⟩, fun _ => ⟨e, failed, incomplete⟩⟩,
        fun not => absurd viable not⟩
      intro none
      simp [none] at failed
  · obtain ⟨e, rfl, settled⟩ := Move.error_of_feed (proper t (by simp)) fails
    obtain ⟨forms, parsed⟩ := parseForms_of_fails reads fails
    have notYet : ¬ Viable (front ++ [t]) := not_viable_of_fails reads fails
    have not : ¬ Viable (front ++ t :: back) := by
      intro viable
      rw [← List.singleton_append, ← List.append_assoc] at viable
      refine notYet (viable.of_append ?_)
      intro u among
      exact proper u (by simp [among])
    have failed := congrArg ParsedForms.failure (parsed back)
    refine ⟨⟨?_, accepted⟩, derives, ⟨?_, fun viable => absurd viable.2 not⟩, fun _ => ?_⟩
    · intro none
      simp [none] at failed
    · rintro ⟨e', failed', incomplete⟩
      obtain rfl : e = e' := by simpa [failed] using failed'
      simp [ReadIssue.wantsMore, incomplete] at settled
    · refine ⟨front, t, back, e, rfl, ?_, notYet, settled, ?_⟩
      · exact viable_of_reads reads fun u among => proper u (by simp [among])
      · intro later
        rw [parsed later, parsed back]

def openDotted : List Token := (lex "'(a . (b \"c\\n\"".toList).tokens

theorem parseForms_decides_openDotted :
    (∀ t ∈ openDotted, t.IsProper) ∧ Decides (fun ts => parseForms ⟨ts, none⟩) openDotted ∧
      ¬ Grammatical openDotted ∧ Viable openDotted := by
  have proper : ∀ t ∈ openDotted, t.IsProper := by
    intro t among
    refine ⟨⟨_, t, among, rfl, rfl⟩, ?_⟩
    have all : ∀ t ∈ openDotted, Atom.integer? t.text.toList = none := by decide +kernel
    intro negative digits _ integer
    simp [all t among] at integer
  have decides := parseForms_decides openDotted proper
  refine ⟨proper, decides, decides.incomplete.mp ⟨⟨.unmatchedOpen, 6⟩, ?_, rfl⟩⟩
  decide +kernel

end LazyLisp
