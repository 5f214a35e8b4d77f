import LazyLisp.Proofs.Running

/-!
Lists of eager pairs, and code as data spell it: the values that differ from a datum in the marks of
their pairs only. Reading such a list leaves the store alone.
-/

namespace LazyLisp

/-- A chain of eager pairs with the items, in front of a tail. -/
inductive Spine : Value → List Value → Value → Prop where
  | nil {tail} : Spine tail [] tail
  | cons {mark item items rest tail} : Spine rest items tail →
      Spine (.pair mark item rest) (item :: items) tail

theorem Spine.append {v middle tail : Value} {first second : List Value}
    (front : Spine v first middle) (back : Spine middle second tail) :
    Spine v (first ++ second) tail := by
  induction front with
  | nil => exact back
  | cons _ ih => exact .cons (ih back)

theorem foldEager_of_spine {v tail : Value} {items : List Value} (spine : Spine v items tail)
    (ends : tail.isPair = false) (hop : List Value → Nat → Run (List Value × Value))
    (passed : List Value) (s : Store) :
    Engine.foldEager hop (fun passed head => return some ((← head) :: passed)) passed v s =
      .ok (items.reverse ++ passed, tail) s := by
  induction spine generalizing passed with
  | @nil tail =>
    cases tail with
    | pair mark car cdr => cases ends
    | lazyPair ref => cases ends
    | _ => rfl
  | @cons mark item items rest tail _ ih =>
    rw [List.reverse_cons, List.append_assoc]
    exact ih ends (item :: passed)

theorem items_of_spine (m : Engine) (kind what : String) {v : Value} {items : List Value}
    (spine : Spine v items .nil) (s : Store) : m.items kind what v s = .ok items s := by
  have walked : m.foldSpine (fun passed head => return some ((← head) :: passed)) [] v s =
      .ok (items.reverse ++ [], .nil) s := foldEager_of_spine spine rfl _ [] s
  refine (Run.bind_of_ok walked).trans ?_
  rw [List.append_nil]
  exact congrArg (EStateM.Result.ok · s) items.reverse_reverse

/-- A chain that does not end in the empty list is no list. -/
theorem items_of_improper (m : Engine) (kind what : String) {v tail : Value} {items : List Value}
    (spine : Spine v items tail) (ends : tail.isPair = false) (improper : tail.isNil = false)
    (s : Store) :
    m.items kind what v s = m.failWith kind ("not a proper " ++ what ++ ": ") v s := by
  have walked : m.foldSpine (fun passed head => return some ((← head) :: passed)) [] v s =
      .ok (items.reverse ++ [], tail) s := foldEager_of_spine spine ends _ [] s
  refine (Run.bind_of_ok walked).trans ?_
  simp only [improper]
  rfl

theorem spine_consReversed (mark : Nat) (tail : Value) (items : List Value) :
    Spine (Value.consReversed mark tail items).1 items.reverse tail := by
  induction items generalizing mark tail with
  | nil => exact .nil
  | cons item items ih =>
    rw [List.reverse_cons]
    exact (ih (mark + 1) _).append (.cons .nil)

theorem consReversed_mark (mark : Nat) (tail : Value) (items : List Value) :
    (Value.consReversed mark tail items).2 = mark + items.length := by
  induction items generalizing mark tail with
  | nil => rfl
  | cons item items ih =>
    rw [Value.consReversed, ih, List.length_cons]
    omega

/-- New pairs in front of a tail take new marks and change nothing else. -/
theorem listWith_spine (items : List Value) (tail : Value) (s : Store) :
    ∃ v, Spine v items tail ∧
      Run.listWith items tail s = .ok v { s with nextMark := s.nextMark + items.length } := by
  refine ⟨(Value.consReversed s.nextMark tail items.reverse).1, ?_, ?_⟩
  · simpa using spine_consReversed s.nextMark tail items.reverse
  · have marks := consReversed_mark s.nextMark tail items.reverse
    rw [List.length_reverse] at marks
    change EStateM.Result.ok _ { s with nextMark := (Value.consReversed s.nextMark tail _).2 } = _
    rw [marks]

theorem list_spine (items : List Value) (s : Store) :
    ∃ v, Spine v items .nil ∧
      Run.list items s = .ok v { s with nextMark := s.nextMark + items.length } :=
  listWith_spine items .nil s

/-- The value is what the datum spells, whatever marks its pairs have. -/
inductive Datum.Spells : Datum → Value → Prop where
  | atom {a} : Spells (.atom a) (.atom a)
  | pair {car cdr mark head rest} : Spells car head → Spells cdr rest →
      Spells (.pair car cdr) (.pair mark head rest)

def Datum.SpellsAll : List Datum → List Value → Prop
  | [], vs => vs = []
  | d :: ds, vs => ∃ v rest, vs = v :: rest ∧ d.Spells v ∧ SpellsAll ds rest

namespace Datum

theorem spells_atom {a : Atom} {v : Value} (spelled : (atom a).Spells v) : v = .atom a := by
  cases spelled
  rfl

theorem spells_listWith {ds : List Datum} {a : Atom} {v : Value}
    (spelled : (listWith ds (.atom a)).Spells v) :
    ∃ vs, Spine v vs (.atom a) ∧ SpellsAll ds vs := by
  induction ds generalizing v with
  | nil =>
    cases spelled
    exact ⟨[], .nil, rfl⟩
  | cons d ds ih =>
    rw [listWith_cons] at spelled
    cases spelled with
    | pair first rest =>
      obtain ⟨vs, spine, all⟩ := ih rest
      exact ⟨_ :: vs, .cons spine, _, vs, rfl, first, all⟩

theorem spells_list {ds : List Datum} {v : Value} (spelled : (list ds).Spells v) :
    ∃ vs, Spine v vs .nil ∧ SpellsAll ds vs := spells_listWith spelled

theorem spells_of_spine {v tail : Value} {vs : List Value} (spine : Spine v vs tail)
    {ds : List Datum} (all : SpellsAll ds vs) {d : Datum} (spelled : d.Spells tail) :
    (listWith ds d).Spells v := by
  induction spine generalizing ds with
  | nil =>
    cases ds with
    | nil => exact spelled
    | cons first ds =>
      obtain ⟨_, _, same, -⟩ := all
      cases same
  | cons _ ih =>
    cases ds with
    | nil => cases all
    | cons first ds =>
      obtain ⟨_, _, same, head, all⟩ := all
      cases same
      exact .pair head (ih all spelled)

theorem SpellsAll.append {ds : List Datum} {vs : List Value} (all : SpellsAll ds vs) {d : Datum}
    {v : Value} (spelled : d.Spells v) : SpellsAll (ds ++ [d]) (vs ++ [v]) := by
  induction ds generalizing vs with
  | nil =>
    obtain rfl := all
    exact ⟨v, [], rfl, spelled, rfl⟩
  | cons first ds ih =>
    obtain ⟨head, rest, rfl, headed, all⟩ := all
    exact ⟨head, rest ++ [v], rfl, headed, ih all⟩

theorem spells_ofDatum (d : Datum) (mark : Nat) : d.Spells (Value.ofDatum mark d).1 := by
  suffices both : (∀ mark, d.Spells (Value.ofDatum mark d).1) ∧
      ∀ mark items ds, SpellsAll ds items.reverse →
        (listWith ds d).Spells (Value.ofSpine mark items d).1 from both.1 mark
  induction d with
  | atom a =>
    refine ⟨fun _ => .atom, fun mark items ds all => ?_⟩
    exact spells_of_spine (spine_consReversed mark (.atom a) items) all .atom
  | pair car cdr first rest =>
    have spine (mark : Nat) (items : List Value) (ds : List Datum)
        (all : SpellsAll ds items.reverse) :
        (listWith ds (.pair car cdr)).Spells (Value.ofSpine mark items (.pair car cdr)).1 := by
      have longer : SpellsAll (ds ++ [car]) ((Value.ofDatum mark car).1 :: items).reverse := by
        rw [List.reverse_cons]
        exact all.append (first.1 mark)
      have spelled := rest.2 (Value.ofDatum mark car).2 _ _ longer
      rwa [listWith_append] at spelled
    exact ⟨fun mark => spine mark [] [] rfl, spine⟩

/-- A form has a head, and arguments that can be read. -/
theorem spells_form {d : Datum} {ds : List Datum} {v : Value}
    (spelled : (list (d :: ds)).Spells v) :
    ∃ mark head rest args, v = .pair mark head rest ∧ d.Spells head ∧ Spine rest args .nil ∧
      SpellsAll ds args := by
  obtain ⟨_, spine, head, args, rfl, first, all⟩ := spells_list spelled
  cases spine with
  | cons spine => exact ⟨_, head, _, args, rfl, first, spine, all⟩

theorem foldEager_names (m : Engine) (whole : Value) {names : List String} {a : Atom} {v : Value}
    {vs : List Value} (spine : Spine v vs (.atom a)) (all : SpellsAll (names.map symbol) vs)
    (hop : List String → Nat → Run (List String × Value)) (passed : List String) (s : Store) :
    Engine.foldEager hop (fun names head => do
      match ← head with
      | .symbol name => return some (name :: names)
      | _ => m.failWith Fault.Kind.malformedForm "ill-formed argument list " whole) passed v s =
      .ok (names.reverse ++ passed, .atom a) s := by
  generalize ends : Value.atom a = tail at spine
  induction spine generalizing names passed with
  | nil =>
    subst ends
    cases names with
    | nil => rfl
    | cons name names =>
      obtain ⟨_, _, same, -⟩ := all
      cases same
  | @cons mark item items rest tail _ ih =>
    cases names with
    | nil => cases all
    | cons name names =>
      obtain ⟨_, _, same, first, all⟩ := all
      cases same
      cases spells_atom first
      rw [List.reverse_cons, List.append_assoc]
      exact ih all (name :: passed) ends

end Datum

/-- A parameter list as it stands in code. -/
def Signature.datum (sig : Signature) : Datum :=
  .listWith (sig.names.map .symbol) (.atom (sig.rest.elim .nil .symbol))

theorem signature_of_spells (m : Engine) {sig : Signature} {params : Value}
    (spelled : sig.datum.Spells params) (s : Store) : m.signature params s = .ok sig s := by
  obtain ⟨vs, spine, all⟩ := Datum.spells_listWith spelled
  have walked := Datum.foldEager_names m params spine all
  refine (Run.bind_of_ok (walked _ [] s)).trans ?_
  obtain ⟨names, rest⟩ := sig
  rw [List.append_nil]
  cases rest with
  | none =>
    exact congrArg (fun names => EStateM.Result.ok (⟨names, none⟩ : Signature) s)
      names.reverse_reverse
  | some rest =>
    exact congrArg (fun names => EStateM.Result.ok (⟨names, some rest⟩ : Signature) s)
      names.reverse_reverse

end LazyLisp
