import LazyLisp.Outline
import Mathlib.Data.List.Induction
import Mathlib.Tactic.ByContra

/-!
Where definitions begin, and which of them an outline keeps.

A definition begins at a token if a parenthesis and a defining word stand there, and then the name or
a parenthesis with the name. The search finds every such place once, from left to right. What it finds
is entered by name: a name keeps the place that it got first and the definition that came last.
-/

namespace LazyLisp

namespace Outline

def entered (ds : List Definition) : List Definition :=
  ds.foldl (fun entered d => enter d entered) []

theorem entered_append (ds : List Definition) (d : Definition) :
    entered (ds ++ [d]) = enter d (entered ds) := by
  simp [entered]

section Enter

variable (d : Definition) (ds : List Definition)

theorem find?_enter (name : String) :
    (enter d ds).find? (·.name == name) =
      if d.name = name then some d else ds.find? (·.name == name) := by
  induction ds with
  | nil => by_cases same : d.name = name <;> simp [enter, same]
  | cons e ds ih =>
    by_cases known : e.name = d.name
    · by_cases same : d.name = name <;> simp [enter, known, same]
    · by_cases same : d.name = name
      · have other : e.name ≠ name := fun equal => known (equal.trans same.symm)
        simpa [enter, known, same, other] using ih
      · by_cases here : e.name = name
        · have known : name ≠ d.name := fun equal => same equal.symm
          simp [enter, known, same, here]
        · simpa [enter, known, same, here] using ih

theorem names_enter :
    (enter d ds).map (·.name) =
      if d.name ∈ ds.map (·.name) then ds.map (·.name) else ds.map (·.name) ++ [d.name] := by
  induction ds with
  | nil => rfl
  | cons e ds ih =>
    by_cases known : e.name = d.name
    · simp [enter, known]
    · have other : d.name ≠ e.name := fun equal => known equal.symm
      by_cases later : d.name ∈ ds.map (·.name)
      · rw [if_pos later] at ih
        simpa [enter, known, other, later] using ih
      · rw [if_neg later] at ih
        simp_all [enter]

theorem enter_of_new (new : d.name ∉ ds.map (·.name)) : enter d ds = ds ++ [d] := by
  induction ds with
  | nil => rfl
  | cons e ds ih =>
    rw [List.map_cons, List.mem_cons, not_or] at new
    have other : e.name ≠ d.name := fun equal => new.1 equal.symm
    simp [enter, other, ih new.2]

end Enter

section Entered

variable {ds : List Definition} {d : Definition}

theorem nodup_entered (ds : List Definition) : ((entered ds).map (·.name)).Nodup := by
  induction ds using List.reverseRecOn with
  | nil => exact List.nodup_nil
  | append_singleton ds d ih =>
    rw [entered_append, names_enter]
    split
    · exact ih
    · next new => exact List.nodup_append.mpr ⟨ih, by simp, by simpa using new⟩

theorem find?_entered (ds : List Definition) (name : String) :
    (entered ds).find? (·.name == name) = ds.reverse.find? (·.name == name) := by
  induction ds using List.reverseRecOn with
  | nil => rfl
  | append_singleton ds d ih =>
    rw [entered_append, find?_enter, ih, List.reverse_append]
    by_cases same : d.name = name <;> simp [same]

theorem find?_of_mem_nodup (distinct : (ds.map (·.name)).Nodup) (member : d ∈ ds) :
    ds.find? (·.name == d.name) = some d := by
  induction ds with
  | nil => cases member
  | cons e ds ih =>
    rw [List.map_cons, List.nodup_cons] at distinct
    rcases List.mem_cons.mp member with rfl | later
    · simp
    · have other : e.name ≠ d.name :=
        fun equal => distinct.1 (equal ▸ List.mem_map_of_mem later)
      simpa [other] using ih distinct.2 later

/-- What has been entered was not followed by a definition of the same name. -/
theorem exists_split_of_mem_entered (member : d ∈ entered ds) :
    ∃ before after, ds = before ++ d :: after ∧ ∀ e ∈ after, e.name ≠ d.name := by
  have found := find?_of_mem_nodup (nodup_entered ds) member
  rw [find?_entered, List.find?_eq_some_iff_append] at found
  obtain ⟨-, after, before, split, others⟩ := found
  refine ⟨before.reverse, after.reverse, ?_, fun e later => ?_⟩
  · rw [← ds.reverse_reverse, split]
    simp
  · simpa using others e (List.mem_reverse.mp later)

theorem exists_entered_of_mem (member : d ∈ ds) : ∃ e ∈ entered ds, e.name = d.name := by
  have some_one : ((entered ds).find? (·.name == d.name)).isSome := by
    rw [find?_entered, List.find?_isSome]
    exact ⟨d, List.mem_reverse.mpr member, by simp⟩
  obtain ⟨e, found⟩ := Option.isSome_iff_exists.mp some_one
  exact ⟨e, List.mem_of_find?_eq_some found, by simpa using List.find?_some found⟩

/-- Definitions of different names are all kept in their order. -/
theorem entered_of_nodup (distinct : (ds.map (·.name)).Nodup) : entered ds = ds := by
  induction ds using List.reverseRecOn with
  | nil => rfl
  | append_singleton ds d ih =>
    rw [List.map_append, List.nodup_append] at distinct
    obtain ⟨first, -, apart⟩ := distinct
    rw [entered_append, ih first, enter_of_new]
    intro known
    exact apart d.name known d.name (by simp) rfl

end Entered

def Opens (opening head : Token) : Prop :=
  opening.kind = .leftParen ∧ head.kind = .word ∧
    (head.text = "define" ∨ head.text = "define-macro")

/-- A definition of what the token names begins with the first of these tokens. -/
inductive Begins : List Token → Token → Prop where
  | value {opening head name rest} : Opens opening head → name.kind = .word →
      Begins (opening :: head :: name :: rest) name
  | signature {opening head inner name rest} : Opens opening head → inner.kind = .leftParen →
      name.kind = .word → Begins (opening :: head :: inner :: name :: rest) name

theorem startsDefinition_iff {opening head : Token} :
    startsDefinition opening head = true ↔ Opens opening head := by
  simp [startsDefinition, Opens, and_assoc]

def finding? : List Token → Option Finding
  | t :: head :: rest => if startsDefinition t head then target? head.text rest else none
  | _ => none

/-- The defining word is no parenthesis, so that passing it over loses nothing. -/
theorem findings_cons (t : Token) (ts : List Token) :
    findings (t :: ts) = (finding? (t :: ts)).toList ++ findings ts := by
  have single (head : Token) : findings [head] = [] := by simp [findings]
  cases ts with
  | nil => simp [findings, finding?]
  | cons head rest =>
    rw [findings, finding?]
    split
    · next starts =>
      have word : head.kind = .word := (startsDefinition_iff.mp starts).2.1
      congr 1
      cases rest with
      | nil => rw [single]; simp [findings]
      | cons next more => simp [findings, startsDefinition, word]
    · rfl

theorem token_of_finding? {ts : List Token} {f : Finding} (found : finding? ts = some f) :
    Begins ts f.token := by
  unfold finding? at found
  split at found
  · next t head rest =>
    split at found
    · next starts =>
      have opens := startsDefinition_iff.mp starts
      unfold target? at found
      split at found
      · next inner rest =>
        split at found
        · next paren =>
          split at found
          · next name rest =>
            split at found
            · next word =>
              cases found
              exact .signature opens paren (by simpa using word)
            · cases found
          · cases found
        · next word =>
          cases found
          exact .value opens word
        · cases found
      · cases found
    · cases found
  · cases found

theorem exists_finding_of_begins {ts : List Token} {name : Token} (begins : Begins ts name) :
    ∃ f, finding? ts = some f ∧ f.token = name := by
  cases begins with
  | value opens word =>
    rw [finding?, if_pos (startsDefinition_iff.mpr opens)]
    exact ⟨_, by simp only [target?, word]; rfl, rfl⟩
  | signature opens paren word =>
    rw [finding?, if_pos (startsDefinition_iff.mpr opens)]
    exact ⟨_, by simp only [target?, paren, word]; rfl, rfl⟩

/-- A finding was made at some token, and what was found later was found behind this token. -/
theorem exists_drop_of_findings {ts : List Token} {before after : List Finding} {f : Finding}
    (split : findings ts = before ++ f :: after) :
    ∃ i, finding? (ts.drop i) = some f ∧ findings (ts.drop (i + 1)) = after := by
  induction ts generalizing before with
  | nil => simp [findings] at split
  | cons t ts ih =>
    rw [findings_cons] at split
    cases here : finding? (t :: ts) with
    | none =>
      rw [here] at split
      obtain ⟨i, found, later⟩ := ih split
      exact ⟨i + 1, found, later⟩
    | some g =>
      rw [here] at split
      cases before with
      | nil =>
        obtain ⟨rfl, later⟩ := List.cons.inj split
        exact ⟨0, here, later⟩
      | cons g' before =>
        obtain ⟨i, found, later⟩ := ih (List.cons.inj split).2
        exact ⟨i + 1, found, later⟩

theorem mem_findings_of_drop {ts : List Token} {i : Nat} {f : Finding}
    (found : finding? (ts.drop i) = some f) : f ∈ findings ts := by
  induction i generalizing ts with
  | zero =>
    cases ts with
    | nil => cases found
    | cons t ts =>
      rw [List.drop_zero] at found
      simp [findings_cons, found]
  | succ i ih =>
    cases ts with
    | nil => cases found
    | cons t ts =>
      rw [findings_cons]
      exact List.mem_append_right _ (ih found)

def Finding.definition (text : List Char) (f : Finding) : Definition :=
  ⟨f.token.text, f.kind, .ofOffset text f.token.start, f.doc⟩

theorem definitionsOf_eq (text : List Char) :
    definitionsOf text = entered ((findings (lex text).tokens).map (Finding.definition text)) := by
  rw [entered, List.foldl_map]
  rfl

/-- The definition was made by the name `t` behind the token with number `i`, and no definition of
this name begins later. -/
structure MadeAt (ts : List Token) (name : String) (i : Nat) (t : Token) : Prop where
  begins : Begins (ts.drop i) t
  named : t.text = name
  last : ∀ j u, Begins (ts.drop j) u → u.text = name → j ≤ i

section Text

variable {text : List Char} {d : Definition}

/-- Every definition of an outline was made by the last pattern for its name. -/
theorem exists_madeAt (member : d ∈ definitionsOf text) :
    ∃ i t, MadeAt (lex text).tokens d.name i t ∧ d.place = .ofOffset text t.start := by
  rw [definitionsOf_eq] at member
  obtain ⟨before, after, split, later⟩ := exists_split_of_mem_entered member
  obtain ⟨front, back, parts, -, rest⟩ := List.map_eq_append_iff.mp split
  obtain ⟨f, more, rfl, rfl, rfl⟩ := List.map_eq_cons_iff.mp rest
  obtain ⟨i, found, behind⟩ := exists_drop_of_findings parts
  refine ⟨i, f.token, ⟨token_of_finding? found, rfl, ?_⟩, rfl⟩
  intro j u begins named
  by_contra beyond
  obtain ⟨g, foundLater, rfl⟩ := exists_finding_of_begins begins
  have passed : (lex text).tokens.drop j = ((lex text).tokens.drop (i + 1)).drop (j - (i + 1)) := by
    rw [List.drop_drop]
    congr 1
    omega
  rw [passed] at foundLater
  have among := mem_findings_of_drop foundLater
  rw [behind] at among
  exact later _ (List.mem_map_of_mem among) named

theorem exists_definition_of_begins {i : Nat} {t : Token} (begins : Begins ((lex text).tokens.drop i) t) :
    ∃ d ∈ definitionsOf text, d.name = t.text := by
  obtain ⟨f, found, rfl⟩ := exists_finding_of_begins begins
  rw [definitionsOf_eq]
  exact exists_entered_of_mem (d := f.definition text)
    (List.mem_map_of_mem (mem_findings_of_drop found))

theorem nodup_definitionsOf (text : List Char) : ((definitionsOf text).map (·.name)).Nodup := by
  rw [definitionsOf_eq]
  exact nodup_entered _

theorem Begins.mem {ts : List Token} {t : Token} (begins : Begins ts t) : t ∈ ts := by
  cases begins <;> simp

theorem Begins.word {ts : List Token} {t : Token} (begins : Begins ts t) : t.kind = .word := by
  cases begins <;> assumption

end Text

end Outline

end LazyLisp
