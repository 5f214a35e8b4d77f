import LazyLisp.Proofs.ReadBack
import LazyLisp.Proofs.Spelling
import LazyLisp.Proofs.WholeTexts

/-!
Parameter lists, as values and as texts.

A parameter list is a chain of symbols that ends in the empty list or in one more symbol. Just these
chains are taken for signatures, and the text of a signature, read again, spells it: unlike other
lists, a parameter list is never abbreviated, whatever its names are.
-/

namespace LazyLisp

theorem Engine.failWith_bind {α β : Type} (m : Engine) (kind message : String) (v : Value)
    (f : α → Run β) : (m.failWith kind message v >>= f) = m.failWith kind message v := by
  rw [Engine.failWith, bind_assoc]
  rfl

section Walk

variable (m : Engine) (whole : Value)

def takeName (names : List String) (head : Run Value) : Run (Option (List String)) := do
  match ← head with
  | .symbol name => return some (name :: names)
  | _ => m.failWith Fault.Kind.malformedForm "ill-formed argument list " whole

theorem takeName_of_other (names : List String) {v : Value} (other : v.symbol? = none) :
    takeName m whole names (pure v) =
      m.failWith Fault.Kind.malformedForm "ill-formed argument list " whole := by
  rw [takeName, pure_bind]
  split
  · cases other
  · rfl

/-- A walk along a chain of pairs takes the names of all items, or stops at one that is no name. -/
theorem foldEager_takeName {v tail : Value} {items : List Value} (spine : Spine v items tail)
    (ends : tail.isPair = false) (hop : List String → Nat → Run (List String × Value)) :
    (∃ names : List String, items = names.map Value.symbol ∧ ∀ passed,
      Engine.foldEager hop (takeName m whole) passed v = pure (names.reverse ++ passed, tail)) ∨
    ((∃ item ∈ items, item.symbol? = none) ∧ ∀ passed,
      Engine.foldEager hop (takeName m whole) passed v =
        m.failWith Fault.Kind.malformedForm "ill-formed argument list " whole) := by
  induction spine with
  | @nil tail =>
    refine .inl ⟨[], rfl, fun passed => ?_⟩
    cases tail with
    | pair mark car cdr => cases ends
    | lazyPair ref => cases ends
    | _ => rfl
  | @cons mark item items rest tail _ ih =>
    cases known : item.symbol? with
    | none =>
      refine .inr ⟨⟨item, List.mem_cons_self, known⟩, fun passed => ?_⟩
      rw [Engine.foldEager, takeName_of_other m whole passed known, Engine.failWith_bind]
    | some name =>
      obtain rfl : item = .symbol name := by
        unfold Value.symbol? at known
        split at known
        · rw [Option.some.inj known]
        · cases known
      rcases ih ends with ⟨names, rfl, taken⟩ | ⟨⟨other, member, noName⟩, failed⟩
      · refine .inl ⟨name :: names, rfl, fun passed => ?_⟩
        rw [List.reverse_cons, List.append_assoc]
        exact taken (name :: passed)
      · refine .inr ⟨⟨other, List.mem_cons_of_mem _ member, noName⟩, fun passed => ?_⟩
        exact failed (name :: passed)

end Walk

/-- The chain spells a signature if its items are symbols and it ends in the empty list or in one
more symbol. -/
theorem Signature.spells_datum {v : Value} {names : List String} {a : Atom}
    (spine : Spine v (names.map Value.symbol) (.atom a)) (rest : Option String)
    (ends : a = rest.elim .nil .symbol) : (⟨names, rest⟩ : Signature).datum.Spells v := by
  have all : Datum.SpellsAll (names.map Datum.symbol) (names.map Value.symbol) := by
    clear spine
    induction names with
    | nil => rfl
    | cons name names ih => exact ⟨_, _, rfl, .atom, ih⟩
  subst ends
  exact Datum.spells_of_spine spine all .atom

/-- A value has only one chain of pairs up to where there are no more eager ones. -/
theorem Spine.unique {v tail tail' : Value} {items items' : List Value} (spine : Spine v items tail)
    (ends : tail.isPair = false) (other : Spine v items' tail') (ends' : tail'.isPair = false) :
    items = items' ∧ tail = tail' := by
  induction spine generalizing items' with
  | nil =>
    cases other with
    | nil => exact ⟨rfl, rfl⟩
    | cons _ => cases ends
  | cons _ ih =>
    cases other with
    | nil => cases ends'
    | cons other =>
      obtain ⟨rfl, rfl⟩ := ih ends other
      exact ⟨rfl, rfl⟩

theorem Datum.symbol?_of_spellsAll {names : List String} {vs : List Value}
    (all : SpellsAll (names.map symbol) vs) : ∀ v ∈ vs, v.symbol? ≠ none := by
  induction names generalizing vs with
  | nil =>
    obtain rfl := all
    simp
  | cons name names ih =>
    obtain ⟨v, rest, rfl, first, all⟩ := all
    cases spells_atom first
    simpa [Value.symbol?] using ih all

/-- What a signature spells is a chain of symbols with such an end. -/
theorem Signature.spine_of_spells {sig : Signature} {p : Value} (spelled : sig.datum.Spells p) :
    ∃ items, Spine p items (.atom (sig.rest.elim .nil .symbol)) ∧
      ∀ item ∈ items, item.symbol? ≠ none := by
  obtain ⟨items, spine, all⟩ := Datum.spells_listWith spelled
  exact ⟨items, spine, Datum.symbol?_of_spellsAll all⟩

def signatureWith (m : Engine) (whole : Value) (names : List String) (last : Value) : Run Signature :=
  match last with
  | .nil => return ⟨names.reverse, none⟩
  | .symbol rest => return ⟨names.reverse, some rest⟩
  | _ => m.failWith Fault.Kind.malformedForm "invalid argument list " whole

theorem signature_eq (m : Engine) (p : Value) :
    m.signature p = m.foldSpine (takeName m p) [] p >>= fun (names, last) =>
      signatureWith m p names last := rfl

theorem signatureWith_of_rest (m : Engine) (whole : Value) (names : List String)
    (rest : Option String) :
    signatureWith m whole names.reverse (.atom (rest.elim .nil .symbol)) = pure ⟨names, rest⟩ := by
  cases rest with
  | none => exact congrArg (fun names => pure (⟨names, none⟩ : Signature)) names.reverse_reverse
  | some rest =>
    exact congrArg (fun names => pure (⟨names, some rest⟩ : Signature)) names.reverse_reverse

theorem signatureWith_of_other (m : Engine) (whole : Value) (names : List String) {last : Value}
    (other : ¬ ∃ rest : Option String, last = .atom (rest.elim .nil .symbol)) :
    signatureWith m whole names last =
      m.failWith Fault.Kind.malformedForm "invalid argument list " whole := by
  unfold signatureWith
  split
  · exact absurd ⟨none, rfl⟩ other
  · exact absurd ⟨some _, rfl⟩ other
  · rfl

/-- A chain of pairs is taken for a signature if it spells one, and is malformed otherwise. -/
theorem signature_of_spine (m : Engine) {p tail : Value} {items : List Value}
    (spine : Spine p items tail) (ends : tail.isPair = false) :
    (∃ sig : Signature, sig.datum.Spells p ∧ m.signature p = pure sig) ∨
      (∀ sig : Signature, ¬ sig.datum.Spells p) ∧
        ∃ message, m.signature p = m.failWith Fault.Kind.malformedForm message p := by
  rw [signature_eq, Engine.foldSpine, Engine.foldSpineWithin]
  rcases foldEager_takeName m p spine ends _ with
    ⟨names, rfl, taken⟩ | ⟨⟨item, member, noName⟩, failed⟩
  · rw [taken, pure_bind, List.append_nil]
    by_cases known : ∃ rest : Option String, tail = .atom (rest.elim .nil .symbol)
    · obtain ⟨rest, rfl⟩ := known
      left
      exact ⟨⟨names, rest⟩, Signature.spells_datum spine rest rfl,
        signatureWith_of_rest m p names rest⟩
    · right
      refine ⟨?_, _, signatureWith_of_other m p _ known⟩
      intro sig spelled
      obtain ⟨others, chain, -⟩ := Signature.spine_of_spells spelled
      exact known ⟨_, (spine.unique ends chain rfl).2⟩
  · right
    refine ⟨?_, "ill-formed argument list ", ?_⟩
    · intro sig spelled
      obtain ⟨others, chain, symbols⟩ := Signature.spine_of_spells spelled
      obtain ⟨rfl, -⟩ := spine.unique ends chain rfl
      exact symbols item member noName
    · rw [failed, Engine.failWith_bind]

namespace Signature

variable {sig : Signature}

/-- The names are symbols that a text can spell, other than the mark of a character literal. -/
def IsReadable (sig : Signature) : Prop :=
  ∀ name ∈ sig.names ++ sig.rest.toList, isReaderSymbol name = true ∧ name ≠ "#\\"

end Signature

namespace Datum

theorem spelled_symbol {name : String} (symbol : isReaderSymbol name = true)
    (noMark : name ≠ "#\\") : Spelled (.symbol name) false := by
  refine spelled_atom ?_ (by simp)
  simp [readsBack, symbol, noMark]

theorem spelled_names {names : List String} {tail : Datum} (last : Spelled tail true)
    (each : ∀ name ∈ names, Spelled (.symbol name) false) :
    Spelled (listWith (names.map symbol) tail) true := by
  induction names with
  | nil => exact last
  | cons name names ih =>
    rw [List.map_cons, listWith_cons]
    refine spelled_pair_inList (each name List.mem_cons_self) (ih ?_)
    exact fun other member => each other (List.mem_cons_of_mem name member)

/-- A list that is written out is read as it is written, even if it could be abbreviated. -/
theorem exists_tokens_of_items {car cdr : Datum} (head : Spelled car false) (tail : Spelled cdr true) :
    ∃ tokens, Cuts Lexeme.AtBoundary ('(' :: (chars false car ++ chars true cdr)) tokens ∧
      ∀ k, ParsedFrom (.pair car cdr) (tokens.map (Token.moved k)) false := by
  obtain ⟨ts, -, cutHead, parsedHead⟩ := head
  obtain ⟨us, -, cutTail, parsedTail⟩ := tail
  have items := cutHead.append cutTail (fun rest _ => atBoundary_chars cdr rest)
  refine ⟨_, Cuts.leftParen.append items (fun _ _ => trivial), ?_⟩
  intro k stack awaits
  simp only [List.map_append, List.map_map, Token.moved_comp_moved, List.map_cons, List.map_nil]
  refine .next (Move.feed_leftParen awaits rfl) ?_
  refine (parsedHead _ (.list _ [] :: stack) trivial).append ?_
  simpa using parsedTail _ _ [car] stack (by simp)

/-- Tokens that lead the parser to a datum are all of a text of this datum alone. -/
theorem readAll_of_cuts {d : Datum} {chars : List Char} {tokens : List Token}
    (cut : Cuts Lexeme.AtBoundary chars tokens)
    (parsed : ∀ k, ParsedFrom d (tokens.map (Token.moved k)) false) :
    readAll none chars = .ok [d] := by
  have lexed : lex chars = ⟨tokens, none⟩ := by
    have whole := cut [] trivial
    rw [List.append_nil, lex_nil] at whole
    rw [whole]
    simp [Lexed.behind, Lexed.moved]
  have leads : Move.Leads [] tokens (.complete d) := by
    simpa [Move.fill] using parsed 0 [] trivial
  rw [readAll_eq_ok_iff, lexed]
  refine ⟨rfl, ?_, by simp⟩
  simpa using Move.Reads.of_leads leads rfl .done

def ofRest (rest : Option String) : Datum := .atom (rest.elim .nil .symbol)

theorem chars_names (names : List String) (rest : Option String) :
    chars true (listWith (names.map symbol) (ofRest rest)) =
      names.flatMap (fun name => ' ' :: name.toList) ++ (ofRest rest).chars true := by
  induction names with
  | nil => rfl
  | cons name names ih =>
    rw [List.map_cons, listWith_cons, chars, ih]
    simp [chars, Atom.write]

theorem chars_ofRest (rest : Option String) :
    (ofRest rest).chars true = match rest with
      | none => [')']
      | some name => ' ' :: '.' :: ' ' :: name.toList ++ [')'] := by
  cases rest <;> simp [ofRest, chars, Atom.write]

end Datum

namespace Signature

variable {sig : Signature}

theorem toList_intercalate_cons (name : String) (names : List String) :
    (" ".intercalate (name :: names)).toList =
      name.toList ++ names.flatMap (fun name => ' ' :: name.toList) := by
  rw [String.toList_intercalate]
  induction names generalizing name with
  | nil => simp [List.intercalate]
  | cons other names ih =>
    rw [List.map_cons, List.map_cons, List.intercalate_cons_cons, ← List.map_cons, ih]
    simp

/-- The text of a parameter list with a name in front is that of the list, written out. -/
theorem toList_text_cons {name : String} (nonempty : name ≠ "") (names : List String)
    (rest : Option String) : (⟨name :: names, rest⟩ : Signature).text.toList =
      '(' :: ((Datum.symbol name).chars false ++
        (Datum.listWith (names.map .symbol) (.ofRest rest)).chars true) := by
  have inner := toList_intercalate_cons name names
  have written : (" ".intercalate (name :: names)).isEmpty = false := by
    rw [Bool.eq_false_iff]
    intro empty
    rw [String.isEmpty_iff.mp empty] at inner
    simp_all
  rw [Datum.chars_names, Datum.chars_ofRest]
  cases rest with
  | none => simp [text, inner, Datum.chars, Atom.write]
  | some rest => simp [text, written, inner, Datum.chars, Atom.write]

/-- The text of a signature is read as the parameter list that it was made from. -/
theorem readAll_text (readable : sig.IsReadable) :
    readAll none sig.text.toList = .ok [sig.datum] := by
  obtain ⟨names, rest⟩ := sig
  have spelled (name : String) (member : name ∈ names ++ rest.toList) :
      Datum.Spelled (.symbol name) false :=
    Datum.spelled_symbol (readable name member).1 (readable name member).2
  cases names with
  | nil =>
    cases rest with
    | none =>
      obtain ⟨tokens, -, cut, parsed⟩ := Datum.spelled_nil
      exact Datum.readAll_of_cuts cut parsed
    | some rest =>
      obtain ⟨tokens, -, cut, parsed⟩ := spelled rest (by simp)
      have text : (⟨[], some rest⟩ : Signature).text.toList = (Datum.symbol rest).chars false := by
        simp [text, Datum.chars, Atom.write]
      rw [text]
      exact Datum.readAll_of_cuts cut parsed
  | cons name names =>
    have nonempty : name ≠ "" := by
      rintro rfl
      simpa [isReaderSymbol] using (readable "" (by simp)).1
    have last : Datum.Spelled (.ofRest rest) true := by
      cases rest with
      | none => exact Datum.spelled_nil_inList
      | some rest => exact Datum.spelled_atom_inList (by simp) (spelled rest (by simp))
    have items : Datum.Spelled (.listWith (names.map .symbol) (.ofRest rest)) true :=
      Datum.spelled_names last fun other member => spelled other (by simp [member])
    obtain ⟨tokens, cut, parsed⟩ := Datum.exists_tokens_of_items (spelled name (by simp)) items
    rw [toList_text_cons nonempty]
    exact Datum.readAll_of_cuts cut parsed

end Signature

end LazyLisp
