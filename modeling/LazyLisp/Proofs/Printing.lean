import LazyLisp.Store.Printer

/-!
The readable text of a datum, said on the datum itself. A value whose pairs are all eager denotes a
datum, and its readable text is the text of that datum, whatever the store holds.
-/

namespace LazyLisp

/-- A value stands for a datum: all its pairs are eager, and all its leaves are atoms. -/
inductive Value.Denotes : Value → Datum → Prop where
  | atom (a : Atom) : Denotes (.atom a) (.atom a)
  | pair {mark : Nat} {car cdr : Value} {a d : Datum} :
      Denotes car a → Denotes cdr d → Denotes (.pair mark car cdr) (.pair a d)

namespace Datum

def abbreviation? : Datum → Datum → Option String
  | .symbol name, .pair _ .nil => Store.quotationMark? name
  | _, _ => none

/-- The readable text of a datum: by itself, or as the rest of a list of which items have been
written. -/
def chars : (inList : Bool) → Datum → List Char
  | false, .atom a => (a.write true).toList
  | true, .nil => [')']
  | true, .atom a => ' ' :: '.' :: ' ' :: (a.write true).toList ++ [')']
  | true, .pair car cdr => ' ' :: car.chars false ++ cdr.chars true
  | false, .pair car cdr =>
    match abbreviation? car cdr, cdr with
    | some mark, .pair item _ => mark.toList ++ item.chars false
    | _, cdr => '(' :: car.chars false ++ cdr.chars true

/-- Only a list of two items, the first of which names a quotation, is abbreviated. -/
theorem abbreviation?_eq_some {a d : Datum} {mark : String} (found : abbreviation? a d = some mark) :
    ∃ name item, a = .symbol name ∧ d = .pair item .nil ∧
      Store.quotationMark? name = some mark := by
  unfold abbreviation? at found
  split at found
  · exact ⟨_, _, rfl, rfl, found⟩
  · simp at found

theorem chars_abbreviated {a item last : Datum} {mark : String}
    (found : abbreviation? a (.pair item last) = some mark) :
    chars false (.pair a (.pair item last)) = mark.toList ++ item.chars false := by
  simp [chars, found]

theorem chars_list {a d : Datum} (plain : abbreviation? a d = none) :
    chars false (.pair a d) = '(' :: a.chars false ++ d.chars true := by
  simp [chars, plain]

def HasText : Datum → Prop
  | .atom a => a.hasText = true
  | .pair car cdr => car.HasText ∧ cdr.HasText

end Datum

namespace Store

theorem exists_of_bind {text : Written} {rest : String → Written} {whole : String}
    (written : text >>= rest = .ok whole) : ∃ part, text = .ok part ∧ rest part = .ok whole := by
  cases text with
  | ok part => exact ⟨part, rfl, written⟩
  | error e => cases written

theorem exists_of_map {text : Written} {f : String → String} {whole : String}
    (written : f <$> text = .ok whole) : ∃ part, text = .ok part ∧ f part = whole := by
  cases text with
  | ok part => exact ⟨part, rfl, Except.ok.inj written⟩
  | error e => cases written

theorem abbreviation?_of_denotes {car cdr : Value} {a d : Datum} (head : car.Denotes a)
    (tail : cdr.Denotes d) : abbreviation? car cdr = Datum.abbreviation? a d := by
  cases head with
  | pair _ _ => cases tail <;> rfl
  | atom x =>
    cases tail with
    | atom _ => cases x <;> rfl
    | pair _ last => cases last with
      | atom y => cases x <;> cases y <;> rfl
      | pair _ _ => cases x <;> rfl

/-- The text of a value that denotes a datum, given the text of the items in front of it. -/
theorem writeWith_of_denotes (s : Store) (hop : Writer) {v : Value} {d : Datum}
    (denotes : v.Denotes d) (hasText : d.HasText) (soFar : Option String) :
    s.writeWith hop true none soFar v =
      .ok (soFar.getD "" ++ String.ofList (d.chars soFar.isSome)) := by
  match denotes with
  | .atom a =>
    have written : writeAtom true a = .ok (a.write true) := if_pos hasText
    cases soFar with
    | none =>
      cases a <;> simp [writeWith, written, closeList, Datum.chars, Functor.map, Except.map]
    | some items =>
      cases a <;> simp [writeWith, written, closeList, Datum.chars, Functor.map, Except.map,
        ← String.toList_inj]
  | @Value.Denotes.pair mark car cdr a b head tail =>
    have item := writeWith_of_denotes s hop head hasText.1 none
    have rest := fun items => writeWith_of_denotes s hop tail hasText.2 (some items)
    cases soFar with
    | some items =>
      simp [writeWith, item, rest, addItem, Datum.chars, bind, Except.bind, ← String.toList_inj]
    | none =>
      simp only [writeWith, descend, abbreviation?_of_denotes head tail]
      split
      · next found =>
        cases tail with
        | pair second last =>
          have second := writeWith_of_denotes s hop second hasText.2.1 none
          simp [second, Datum.chars_abbreviated found, Functor.map, Except.map]
      · next unabbreviated =>
        have plain : Datum.abbreviation? a b = none := by
          rw [Option.eq_none_iff_forall_ne_some]
          intro mark found
          obtain ⟨name, item, -, rfl, -⟩ := Datum.abbreviation?_eq_some found
          cases tail
          exact unabbreviated mark _ _ _ found rfl
        simp [item, rest, addItem, Datum.chars_list plain, bind, Except.bind,
          ← String.toList_inj]
termination_by v

/-- The readable text of a value that denotes a datum does not depend on the store. -/
theorem readable_of_denotes (s : Store) {v : Value} {d : Datum} (denotes : v.Denotes d)
    (hasText : d.HasText) : s.readable none v = .ok (String.ofList (d.chars false)) := by
  rw [readable, write, enoughHops, writeWithin, writeWith_of_denotes s _ denotes hasText]
  simp

theorem unlimited_of_writeWith (s : Store) (hop : Writer) {v : Value} {d : Datum}
    (denotes : v.Denotes d) {room : Option Nat} {soFar : Option String} {text : String}
    (written : s.writeWith hop true room soFar v = .ok text) :
    d.HasText ∧ s.writeWith hop true none soFar v = .ok text := by
  match denotes with
  | .atom a =>
    by_cases hasText : a.hasText = true
    · refine ⟨hasText, ?_⟩
      cases soFar <;> cases a <;> simpa only [writeWith] using written
    · have failed : writeAtom true a = .error .tooManyDigits := if_neg hasText
      cases soFar <;> cases a <;> simp_all [writeWith, Functor.map, Except.map, Atom.hasText]
  | @Value.Denotes.pair mark car cdr a b head tail =>
    have items {room : Option Nat} {soFar : Option String}
        (written : (s.writeWith hop true room none car >>= fun item =>
          s.writeWith hop true room (some (addItem soFar item)) cdr) = .ok text) :
        (Datum.pair a b).HasText ∧ (s.writeWith hop true none none car >>= fun item =>
          s.writeWith hop true none (some (addItem soFar item)) cdr) = .ok text := by
      obtain ⟨item, first, rest⟩ := exists_of_bind written
      obtain ⟨hasText, first⟩ := unlimited_of_writeWith s hop head first
      obtain ⟨hasTextRest, rest⟩ := unlimited_of_writeWith s hop tail rest
      exact ⟨⟨hasText, hasTextRest⟩, by rw [first]; exact rest⟩
    cases soFar with
    | some passed =>
      simp only [writeWith] at written ⊢
      exact items written
    | none =>
      cases deep : descend room with
      | none => simp [writeWith, deep] at written
      | some room =>
        have unlimited : descend none = some none := rfl
        cases found : abbreviation? car cdr with
        | none =>
          simp only [writeWith, deep, unlimited, found] at written ⊢
          exact items written
        | some mark =>
          have named := found
          rw [abbreviation?_of_denotes head tail] at named
          obtain ⟨name, item, rfl, rfl, -⟩ := Datum.abbreviation?_eq_some named
          cases tail with
          | pair second last =>
            simp only [writeWith, deep, unlimited, found] at written ⊢
            obtain ⟨part, quoted, rfl⟩ := exists_of_map written
            obtain ⟨hasText, quoted⟩ := unlimited_of_writeWith s hop second quoted
            exact ⟨⟨by cases head; rfl, hasText, rfl⟩, by rw [quoted]; rfl⟩
termination_by v

theorem readable_eq_ok_of_denotes (s : Store) {v : Value} {d : Datum} (denotes : v.Denotes d)
    {room : Option Nat} {text : String} (written : s.readable room v = .ok text) :
    d.HasText ∧ text = String.ofList (d.chars false) := by
  rw [readable, write, enoughHops, writeWithin] at written
  obtain ⟨hasText, unlimited⟩ := s.unlimited_of_writeWith _ denotes written
  rw [writeWith_of_denotes s _ denotes hasText] at unlimited
  exact ⟨hasText, by simpa using (Except.ok.inj unlimited).symm⟩

end Store

end LazyLisp
