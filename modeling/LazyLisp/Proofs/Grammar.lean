import LazyLisp.Proofs.Lexing
import LazyLisp.Datum.Parser

/-!
The grammar of program text.

A tree derives a form from tokens: a literal, a quotation mark in front of a form, or a list between
parentheses, which may have a dot in front of its last form. A row of tokens is grammatical if it is
the tokens of some trees. The trees are then the only ones with these tokens, since the first token
of a tree tells how it goes on and no tree starts with what may follow the items of a list.
-/

namespace LazyLisp

/-- What stands between the quotes of a string literal whose escapes are all known, and the text
that it denotes. -/
inductive Escaped : List Char → List Char → Prop where
  | nil : Escaped [] []
  | plain {c body text} : c ≠ '\\' → Escaped body text → Escaped (c :: body) (c :: text)
  | escape {c d body text} : Atom.stringEscapes.lookup c = some d → Escaped body text →
      Escaped ('\\' :: c :: body) (d :: text)

namespace Escaped

variable {body text : List Char}

theorem unescapeFrom_eq (known : Escaped body text) (soFar : List Char) (pos : Nat) :
    Atom.unescapeFrom soFar pos body = .ok (soFar.reverse ++ text) := by
  induction known generalizing soFar pos with
  | nil => simp [Atom.unescapeFrom]
  | plain noBackslash _ ih => simp [Atom.unescapeFrom, noBackslash, ih]
  | escape found _ ih => simp [Atom.unescapeFrom, found, ih]

theorem of_unescapeFrom {soFar decoded : List Char} {pos : Nat}
    (decodes : Atom.unescapeFrom soFar pos body = .ok decoded) :
    ∃ text, decoded = soFar.reverse ++ text ∧ Escaped body text := by
  fun_induction Atom.unescapeFrom soFar pos body with
  | case1 soFar pos =>
    cases decodes
    exact ⟨[], by simp, .nil⟩
  | case2 => cases decodes
  | case3 soFar pos c rest d found ih =>
    obtain ⟨text, rfl, known⟩ := ih decodes
    exact ⟨d :: text, by simp, .escape found known⟩
  | case4 => cases decodes
  | case5 soFar pos c rest _ noEscape ih =>
    obtain ⟨text, rfl, known⟩ := ih decodes
    have noBackslash : c ≠ '\\' := by
      rintro rfl
      cases rest with
      | nil => simp at *
      | cons d rest => exact noEscape d rest rfl rfl
    exact ⟨c :: text, by simp, .plain noBackslash known⟩

theorem unique {other : List Char} (known : Escaped body text) (same : Escaped body other) :
    text = other := by
  have first := known.unescapeFrom_eq [] 0
  have second := same.unescapeFrom_eq [] 0
  rw [first] at second
  simpa using second

end Escaped

namespace Token

/-- A token that is a form by itself, and the atom that it denotes. -/
inductive Denotes (t : Token) : Atom → Prop where
  | word {a} : t.kind = .word → t.isDot = false → Atom.ofWord t.text.toList = .ok a → Denotes t a
  | char {a} : t.kind = .char → Atom.ofCharLiteral t.text.toList = .ok a → Denotes t a
  | string {body text} : t.kind = .string → t.text.toList = '"' :: (body ++ ['"']) →
      Escaped body text → Denotes t (.string (String.ofList text))

theorem Denotes.unique {t : Token} {a b : Atom} (first : t.Denotes a) (second : t.Denotes b) :
    a = b := by
  cases first with
  | word kind _ denotes =>
    cases second with
    | word _ _ same => simpa [denotes] using same
    | char other => simp [kind] at other
    | string other => simp [kind] at other
  | char kind denotes =>
    cases second with
    | word other => simp [kind] at other
    | char _ same => simpa [denotes] using same
    | string other => simp [kind] at other
  | string kind spelled known =>
    cases second with
    | word other => simp [kind] at other
    | char other => simp [kind] at other
    | string _ same other =>
      have bodies : _ ++ ['"'] = _ ++ ['"'] := (List.cons.inj (spelled.symm.trans same)).2
      obtain rfl := List.append_cancel_right bodies
      rw [known.unique other]

def EndsItems (t : Token) : Prop := t.kind = .rightParen ∨ t.isDot = true

end Token

/-- The derivation of a form. -/
inductive Tree where
  | leaf (token : Token) (atom : Atom)
  | quotation (mark : Token) (head : String) (form : Tree)
  | list (opening : Token) (items : List Tree) (closing : Token)
  | dotted (opening : Token) (items : List Tree) (dot : Token) (tail : Tree) (closing : Token)

namespace Tree

mutual

def tokens : Tree → List Token
  | leaf token _ => [token]
  | quotation mark _ form => mark :: form.tokens
  | list opening items closing => opening :: (tokensOf items ++ [closing])
  | dotted opening items dot tail closing =>
    opening :: (tokensOf items ++ dot :: (tail.tokens ++ [closing]))

def tokensOf : List Tree → List Token
  | [] => []
  | tree :: trees => tree.tokens ++ tokensOf trees

end

mutual

def datum : Tree → Datum
  | leaf _ atom => .atom atom
  | quotation _ head form => Datum.list [.symbol head, form.datum]
  | list _ items _ => Datum.list (dataOf items)
  | dotted _ items _ tail _ => Datum.listWith (dataOf items) tail.datum

def dataOf : List Tree → List Datum
  | [] => []
  | tree :: trees => tree.datum :: dataOf trees

end

@[simp]
theorem dataOf_eq_map (trees : List Tree) : dataOf trees = trees.map datum := by
  induction trees with
  | nil => rfl
  | cons tree trees ih => simp [dataOf, ih]

@[simp]
theorem tokensOf_append (first second : List Tree) :
    tokensOf (first ++ second) = tokensOf first ++ tokensOf second := by
  induction first with
  | nil => rfl
  | cons tree trees ih => simp [tokensOf, ih]

/-- The tree follows the grammar. -/
inductive Valid : Tree → Prop where
  | leaf {t a} : t.Denotes a → Valid (leaf t a)
  | quotation {mark head form} : mark.kind.isQuotation = true →
      OpenForm.quotationHead? mark.text = some head → Valid form → Valid (quotation mark head form)
  | list {opening items closing} : opening.kind = .leftParen → closing.kind = .rightParen →
      (∀ item ∈ items, Valid item) → Valid (list opening items closing)
  | dotted {opening items dot tail closing} : opening.kind = .leftParen →
      closing.kind = .rightParen → dot.isDot = true → items ≠ [] →
      (∀ item ∈ items, Valid item) → Valid tail → Valid (dotted opening items dot tail closing)

end Tree

def Derives (trees : List Tree) (ts : List Token) : Prop :=
  (∀ tree ∈ trees, tree.Valid) ∧ Tree.tokensOf trees = ts

/-- The tokens spell a row of forms. -/
def Grammatical (ts : List Token) : Prop := ∃ trees, Derives trees ts

theorem Token.kind_of_isDot {t : Token} (dot : t.isDot = true) : t.kind = .word := by
  simp only [isDot, Bool.and_eq_true, beq_iff_eq] at dot
  exact dot.1

namespace Tree

variable {tree other : Tree} {trees others : List Tree} {rest rest' : List Token}

/-- A form starts with a token that cannot follow the items of a list. -/
theorem Valid.exists_first (valid : tree.Valid) :
    ∃ t more, tree.tokens = t :: more ∧ ¬ t.EndsItems := by
  cases valid with
  | @leaf t a denotes =>
    refine ⟨t, [], rfl, ?_⟩
    rintro (close | dot)
    · cases denotes <;> simp_all
    · have kind := Token.kind_of_isDot dot
      cases denotes <;> simp_all
  | @quotation mark head form marks _ _ =>
    refine ⟨mark, form.tokens, rfl, ?_⟩
    rintro (close | dot)
    · simp [close, Token.Kind.isQuotation] at marks
    · simp [Token.kind_of_isDot dot, Token.Kind.isQuotation] at marks
  | list opens _ _ | dotted opens _ _ _ _ _ =>
    refine ⟨_, _, rfl, ?_⟩
    rintro (close | dot)
    · simp [opens] at close
    · simp [Token.kind_of_isDot dot] at opens

/-- How a form starts: with a literal, with a mark or with a parenthesis. -/
inductive Start where
  | literal | mark | parenthesis

def start : Tree → Start
  | leaf _ _ => .literal
  | quotation _ _ _ => .mark
  | list _ _ _ | dotted _ _ _ _ _ => .parenthesis

def Start.ofKind : Token.Kind → Start
  | .quote | .unquote => .mark
  | .leftParen => .parenthesis
  | _ => .literal

theorem Valid.ofKind_first (valid : tree.Valid) {t : Token} {more : List Token}
    (spelled : tree.tokens = t :: more) : Start.ofKind t.kind = tree.start := by
  cases valid with
  | leaf denotes =>
    obtain ⟨rfl, -⟩ := List.cons.inj spelled
    cases denotes <;> simp_all [Start.ofKind, start]
  | quotation marks _ _ =>
    obtain ⟨rfl, -⟩ := List.cons.inj spelled
    cases kind : Token.kind _ <;> simp_all [Token.Kind.isQuotation, Start.ofKind, start]
  | list opens _ _ | dotted opens _ _ _ _ _ =>
    obtain ⟨rfl, -⟩ := List.cons.inj spelled
    simp [opens, Start.ofKind, start]

theorem Valid.start_eq (valid : tree.Valid) (validOther : other.Valid)
    (same : tree.tokens ++ rest = other.tokens ++ rest') : tree.start = other.start := by
  obtain ⟨t, more, spelled, -⟩ := valid.exists_first
  obtain ⟨u, more', spelledOther, -⟩ := validOther.exists_first
  rw [← valid.ofKind_first spelled, ← validOther.ofKind_first spelledOther]
  rw [spelled, spelledOther] at same
  rw [(List.cons.inj same).1]

def Determined (tree : Tree) : Prop :=
  ∀ {other rest rest'}, other.Valid → tree.tokens ++ rest = other.tokens ++ rest' →
    tree = other ∧ rest = rest'

theorem eq_of_tokensOf_append {stop stop' : Token} (determined : ∀ tree ∈ trees, tree.Determined)
    (valid : ∀ tree ∈ trees, tree.Valid) (validOthers : ∀ tree ∈ others, tree.Valid)
    (ends : stop.EndsItems) (ends' : stop'.EndsItems)
    (same : tokensOf trees ++ stop :: rest = tokensOf others ++ stop' :: rest') :
    trees = others ∧ stop = stop' ∧ rest = rest' := by
  induction trees generalizing others with
  | nil =>
    cases others with
    | nil => simpa [tokensOf] using same
    | cons other others =>
      obtain ⟨t, more, spelled, noEnd⟩ := (validOthers other List.mem_cons_self).exists_first
      simp only [tokensOf, List.nil_append, spelled, List.cons_append, List.cons.injEq] at same
      exact absurd (same.1 ▸ ends) noEnd
  | cons tree trees ih =>
    cases others with
    | nil =>
      obtain ⟨t, more, spelled, noEnd⟩ := (valid tree List.mem_cons_self).exists_first
      simp only [tokensOf, List.nil_append, spelled, List.cons_append, List.cons.injEq] at same
      exact absurd (same.1 ▸ ends') noEnd
    | cons other others =>
      simp only [tokensOf, List.append_assoc] at same
      obtain ⟨rfl, sameRest⟩ := determined tree List.mem_cons_self
        (validOthers other List.mem_cons_self) same
      obtain ⟨rfl, ended⟩ := ih (fun tree among => determined tree (List.mem_cons_of_mem _ among))
        (fun tree among => valid tree (List.mem_cons_of_mem _ among))
        (fun tree among => validOthers tree (List.mem_cons_of_mem _ among)) sameRest
      exact ⟨rfl, ended⟩

theorem Valid.determined (valid : tree.Valid) : tree.Determined := by
  intro other rest rest' validOther same
  -- Both trees start in the same way, and the parts are determined in turn.
  have starts := valid.start_eq validOther same
  induction valid generalizing other rest rest' with
  | leaf denotes =>
    cases validOther with
    | leaf others =>
      simp only [tokens, List.singleton_append, List.cons.injEq] at same
      obtain ⟨rfl, rfl⟩ := same
      rw [denotes.unique others]
      exact ⟨rfl, rfl⟩
    | quotation | list | dotted => cases starts
  | quotation marks stands valid ih =>
    cases validOther with
    | quotation _ stands' validOther =>
      simp only [tokens, List.cons_append, List.cons.injEq] at same
      obtain ⟨rfl, sameForm⟩ := same
      obtain ⟨rfl, rfl⟩ := ih validOther sameForm (valid.start_eq validOther sameForm)
      obtain rfl := Option.some.inj (stands.symm.trans stands')
      exact ⟨rfl, rfl⟩
    | leaf | list | dotted => cases starts
  | @list opening items closing opens closes valid ih =>
    have determined : ∀ item ∈ items, item.Determined := by
      intro item among other rest rest' validOther same
      exact ih item among validOther same ((valid item among).start_eq validOther same)
    cases validOther with
    | list _ closes' valid' =>
      simp only [tokens, List.cons_append, List.cons.injEq, List.append_assoc,
        List.nil_append] at same
      obtain ⟨rfl, sameItems⟩ := same
      obtain ⟨rfl, rfl, rfl⟩ := eq_of_tokensOf_append determined valid valid' (.inl closes)
        (.inl closes') sameItems
      exact ⟨rfl, rfl⟩
    | dotted _ _ dot _ valid' _ =>
      simp only [tokens, List.cons_append, List.cons.injEq, List.append_assoc,
        List.nil_append] at same
      obtain ⟨-, rfl, -⟩ := eq_of_tokensOf_append determined valid valid' (.inl closes)
        (.inr dot) same.2
      simp [Token.kind_of_isDot dot] at closes
    | leaf | quotation => cases starts
  | @dotted opening items dot tail closing opens closes isDot _ valid validTail ih ihTail =>
    have determined : ∀ item ∈ items, item.Determined := by
      intro item among other rest rest' validOther same
      exact ih item among validOther same ((valid item among).start_eq validOther same)
    cases validOther with
    | list _ closes' valid' =>
      simp only [tokens, List.cons_append, List.cons.injEq, List.append_assoc,
        List.nil_append] at same
      obtain ⟨-, rfl, -⟩ := eq_of_tokensOf_append determined valid valid' (.inr isDot)
        (.inl closes') same.2
      simp [Token.kind_of_isDot isDot] at closes'
    | dotted _ _ isDot' _ valid' validTail' =>
      simp only [tokens, List.cons_append, List.cons.injEq, List.append_assoc,
        List.nil_append] at same
      obtain ⟨rfl, sameItems⟩ := same
      obtain ⟨rfl, rfl, sameTail⟩ := eq_of_tokensOf_append determined valid valid' (.inr isDot)
        (.inr isDot') sameItems
      obtain ⟨rfl, ended⟩ := ihTail validTail' sameTail (validTail.start_eq validTail' sameTail)
      obtain ⟨rfl, rfl⟩ := List.cons.inj ended
      exact ⟨rfl, rfl⟩
    | leaf | quotation => cases starts

end Tree

/-- A row of tokens has one derivation at most. -/
theorem Derives.unique {trees others : List Tree} {ts : List Token} (first : Derives trees ts)
    (second : Derives others ts) : trees = others := by
  obtain ⟨valid, rfl⟩ := first
  obtain ⟨validOthers, same⟩ := second
  induction trees generalizing others with
  | nil =>
    cases others with
    | nil => rfl
    | cons other others =>
      obtain ⟨t, more, spelled, -⟩ := (validOthers other List.mem_cons_self).exists_first
      simp [Tree.tokensOf, spelled] at same
  | cons tree trees ih =>
    have here := valid tree List.mem_cons_self
    cases others with
    | nil =>
      obtain ⟨t, more, spelled, -⟩ := here.exists_first
      simp [Tree.tokensOf, spelled] at same
    | cons other others =>
      obtain ⟨rfl, sameRest⟩ := here.determined (validOthers other List.mem_cons_self) same.symm
      rw [ih (fun tree among => valid tree (List.mem_cons_of_mem _ among))
        (fun tree among => validOthers tree (List.mem_cons_of_mem _ among)) sameRest.symm]

end LazyLisp
