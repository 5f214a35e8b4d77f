import LazyLisp.Proofs.FormLibrary
import LazyLisp.Proofs.LazyLibrary
import LazyLisp.Proofs.ReadAccounts
import LazyLisp.Proofs.Separators
import LazyLisp.Proofs.SplitProgram
import LazyLisp.Proofs.WholeDialogue

/-!
A session that starts with the standard prelude has all of it.

Each definition of the prelude is read from its own text, and the texts are kept apart by an empty
line, so the whole prelude is read as their definitions in order. Evaluated one after the other,
these give their names to what they make and leave the primitives and the input alone.
-/

namespace LazyLisp

/-- A definition at top level, and what its name stands for after it. -/
structure PreludeDefinition where
  name : String
  /-- The part of the prelude that is the definition. -/
  text : String
  datum : Datum
  Makes : Procedure → Prop
  reads : readAll none text.toList = .ok [datum]
  evaluates {k : Nat} {w : World} {room : Option Nat} {s : Store} {expr : Value} :
    Fits (k + 2) room → datum.Spells expr → ∃ q mark, Makes q ∧ ∀ fuel caller,
      evaluate w (fuel + 2) room expr Store.globalFrame caller s =
        .ok (.symbol name) (Store.addGlobal { s with nextMark := mark } name q)

namespace PreludeDefinition

def ofProcedure (p : LibraryProcedure) (proper : p.shape.isProper = true) : PreludeDefinition where
  name := p.name
  text := p.text
  datum := p.shape.datum p.name
  Makes := p.shape.Makes
  reads := p.reads
  evaluates {k w room s expr} fits spelled := by
    obtain ⟨name, shape, text, reads⟩ := p
    cases shape with
    | closure sig doc body =>
      obtain ⟨c, isMatch, evaluated⟩ := evaluate_closureDefinition (w := w) (s := s) fits spelled
      exact ⟨.closure c, _, isMatch, fun fuel => evaluated (fuel + 1)⟩
    | cases doc clauses =>
      have nonempty : clauses ≠ [] := by simpa [Shape.isProper] using proper
      obtain ⟨closures, matched, evaluated⟩ :=
        evaluate_casesDefinition (w := w) (s := s) fits nonempty spelled
      exact ⟨.cases closures (some name) (some doc), _, matched, evaluated⟩

def ofExpander (p : LibraryExpander) : PreludeDefinition where
  name := p.name
  text := p.text
  datum := p.datum
  Makes q := ∃ x, q = .expander x ∧ x.Matches p.signature p.body Store.globalFrame
  reads := p.reads
  evaluates {k w room s expr} fits spelled := by
    obtain ⟨x, isMatch, evaluated⟩ :=
      evaluate_expanderDefinition (w := w) (s := s) fits spelled
    exact ⟨_, _, ⟨x, rfl, isMatch⟩, fun fuel => evaluated (fuel + 1)⟩

def dialogue : PreludeDefinition where
  name := "repl"
  text := Prelude.repl
  datum := Dialogue.definition
  Makes q := ∃ c, q = .closure c ∧ c.Matches ⟨[], none⟩ Dialogue.turn Store.globalFrame
  reads := Dialogue.reads_definition
  evaluates {k w room s expr} fits spelled := by
    obtain ⟨c, isMatch, evaluated⟩ := Dialogue.evaluate_replDefinition fits w s spelled
    exact ⟨_, _, ⟨c, rfl, isMatch⟩, fun fuel => evaluated (fuel + 1)⟩

end PreludeDefinition

namespace Library

open Datum

set_option maxRecDepth 10000 in
def forEach : LibraryProcedure where
  name := "for-each"
  shape := .closure ⟨["f", "xs"], none⟩ "Call f on each element of xs for its side effects."
    (list [symbol "if", list [symbol "cons?", symbol "xs"],
      list [symbol "begin", list [symbol "f", list [symbol "car", symbol "xs"]],
        list [symbol "for-each", symbol "f", list [symbol "cdr", symbol "xs"]]],
      list [symbol "quote", nil]])
  text := Prelude.forEach
  reads := (readAll_ofList _).trans (by with_unfolding_all rfl)

end Library

open PreludeDefinition in
def preludeDefinitions : List PreludeDefinition :=
  [ofProcedure Library.foldLeft rfl, ofProcedure Library.reverse rfl,
    ofProcedure Library.foldRight rfl, ofProcedure Library.length rfl,
    ofProcedure Library.append rfl, ofProcedure Library.map rfl, ofProcedure Library.filter rfl,
    ofProcedure Library.forEach rfl, ofProcedure Library.nth rfl, ofProcedure Library.last rfl,
    ofProcedure Library.range rfl, ofProcedure LazyLibrary.iterate rfl,
    ofProcedure LazyLibrary.take rfl, ofProcedure FormLibrary.bodyToExpr rfl,
    ofProcedure FormLibrary.condToIf rfl, ofExpander FormLibrary.condForm,
    ofExpander FormLibrary.assertForm, ofExpander FormLibrary.whenForm,
    ofExpander FormLibrary.unlessForm, dialogue]

theorem texts_preludeDefinitions :
    preludeDefinitions.map (·.text) = Prelude.definitions := rfl

theorem nodup_names_preludeDefinitions : (preludeDefinitions.map (·.name)).Nodup := by decide

theorem exists_mem_preludeDefinitions {p : LibraryProcedure}
    (member : p ∈ Library.procedures ++ LazyLibrary.procedures ++ FormLibrary.procedures) :
    ∃ proper, PreludeDefinition.ofProcedure p proper ∈ preludeDefinitions := by
  simp only [Library.procedures, LazyLibrary.procedures, FormLibrary.procedures, List.cons_append,
    List.nil_append, List.mem_cons, List.not_mem_nil, or_false] at member
  rcases member with rfl | rfl | rfl | rfl | rfl | rfl | rfl | rfl | rfl | rfl | rfl | rfl | rfl | rfl
  all_goals exact ⟨rfl, by simp [preludeDefinitions]⟩

theorem ofExpander_mem_preludeDefinitions {p : LibraryExpander}
    (member : p ∈ FormLibrary.expanders) : PreludeDefinition.ofExpander p ∈ preludeDefinitions := by
  simp only [FormLibrary.expanders, List.mem_cons, List.not_mem_nil, or_false] at member
  rcases member with rfl | rfl | rfl | rfl
  all_goals simp [preludeDefinitions]

structure Tidy (text : List Char) : Prop where
  whole : ¬ EndsInMark text
  shallow : nesting (lex text).tokens ≤ 9

theorem tidy_ofList (chars : List Char)
    (whole : (lex chars).tokens.getLast?.map (·.text) ≠ some "#\\")
    (shallow : nesting (lex chars).tokens ≤ 9) : Tidy (String.ofList chars).toList := by
  rw [String.toList_ofList]
  refine ⟨?_, shallow⟩
  rintro ⟨t, last, mark⟩
  exact whole (by rw [Option.mem_def.mp last, Option.map_some, mark])

-- The texts are cut into tokens by computation.
set_option maxRecDepth 20000 in
theorem tidy_of_mem_definitions : ∀ text ∈ Prelude.definitions, Tidy text.toList := by
  intro text member
  simp only [Prelude.definitions, List.mem_cons, List.not_mem_nil, or_false] at member
  rcases member with rfl | rfl | rfl | rfl | rfl | rfl | rfl | rfl | rfl | rfl | rfl | rfl | rfl |
    rfl | rfl | rfl | rfl | rfl | rfl | rfl
  all_goals exact tidy_ofList _ (by decide +kernel) (by decide +kernel)

section Reading

variable {limit : Option Nat} (fits : Fits 9 limit)

include fits

theorem PreludeDefinition.readAll_eq (p : PreludeDefinition) (tidy : Tidy p.text.toList) :
    readAll limit p.text.toList = .ok [p.datum] := by
  obtain ⟨sound, reads, -⟩ := readAll_eq_ok_iff.mp p.reads
  exact readAll_eq_ok_iff.mpr
    ⟨sound, reads, fun most held => tidy.shallow.trans (fits most (Option.mem_def.mp held))⟩

theorem readAll_intercalate (ps : List PreludeDefinition) (tidy : ∀ p ∈ ps, Tidy p.text.toList) :
    readAll limit ("\n\n".intercalate (ps.map (·.text))).toList = .ok (ps.map (·.datum)) := by
  induction ps with
  | nil =>
    have empty : lex [] = ⟨[], none⟩ := by with_unfolding_all rfl
    rw [List.map_nil, String.intercalate_nil, String.toList_empty, readAll_eq_ok_iff, empty]
    exact ⟨rfl, .done, fun most _ => Nat.zero_le most⟩
  | cons p ps ih =>
    have first := p.readAll_eq fits (tidy p List.mem_cons_self)
    cases ps with
    | nil => simpa using first
    | cons q ps =>
      have second := ih fun p member => tidy p (.tail _ member)
      have text : ("\n\n".intercalate ((p :: q :: ps).map (·.text))).toList = p.text.toList ++
          '\n' :: (['\n'] ++ ("\n\n".intercalate ((q :: ps).map (·.text))).toList) := by
        simp [String.intercalate_cons_cons]
      rw [text, List.map_cons]
      exact readAll_joined first (tidy p List.mem_cons_self).whole (.blank rfl .nil) second

theorem forms_prelude (name : String) : (Input.ofText name Prelude.source.toList).forms limit =
    (preludeDefinitions.map (·.datum), none) := by
  refine Input.forms_of_readAll ?_ name
  rw [Prelude.source, ← texts_preludeDefinitions]
  refine readAll_intercalate fits _ fun _ member => tidy_of_mem_definitions _ ?_
  rw [← texts_preludeDefinitions]
  exact List.mem_map_of_mem member

end Reading

/-- Afterwards the definitions have their global names. Other names stand for what they stood for,
and no input has been read. -/
structure Store.Defines (s : Store) (ps : List PreludeDefinition) (t : Store) : Prop where
  procedures : ∀ p ∈ ps, ∃ ref q, t.global? p.name = some (.procedure ref) ∧
    t.procedures[ref]? = some q ∧ p.Makes q
  others : ∀ name, name ∉ ps.map (·.name) → t.global? name = s.global? name
  retains : s.Retains t
  size : t.frames.size = s.frames.size
  inputs : t.inputs = s.inputs

namespace Store.Defines

variable {s t u : Store} {p : PreludeDefinition} {ps : List PreludeDefinition}

theorem nil (s : Store) : s.Defines [] s where
  procedures _ member := absurd member List.not_mem_nil
  others _ _ := rfl
  retains _ _ := id
  size := rfl
  inputs := rfl

theorem addGlobal (present : globalFrame < s.frames.size) {q : Procedure} (makes : p.Makes q)
    (mark : Nat) : s.Defines [p] (Store.addGlobal { s with nextMark := mark } p.name q) where
  procedures r member := by
    rw [List.mem_singleton.mp member]
    refine ⟨s.procedures.size, q, ?_, Array.getElem?_push_size, makes⟩
    exact (global?_addGlobal (s := { s with nextMark := mark }) present _ _ q).trans (if_pos rfl)
  others name other := by
    have other : name ≠ p.name := by simpa using other
    exact (global?_addGlobal (s := { s with nextMark := mark }) present _ _ q).trans (if_neg other)
  retains := retains_addGlobal { s with nextMark := mark } _ _
  size := Array.size_modify
  inputs := rfl

theorem cons (first : s.Defines [p] t) (rest : t.Defines ps u)
    (fresh : p.name ∉ ps.map (·.name)) : s.Defines (p :: ps) u where
  procedures r member := by
    rcases List.mem_cons.mp member with rfl | member
    · obtain ⟨ref, q, bound, held, makes⟩ := first.procedures r List.mem_cons_self
      exact ⟨ref, q, (rest.others _ fresh).trans bound, rest.retains _ _ held, makes⟩
    · exact rest.procedures r member
  others name absent := by
    rw [List.map_cons, List.mem_cons, not_or] at absent
    exact (rest.others name absent.2).trans (first.others name (by simpa using absent.1))
  retains ref q held := rest.retains _ _ (first.retains _ _ held)
  size := rest.size.trans first.size
  inputs := rest.inputs.trans first.inputs

theorem binds (defines : s.Defines preludeDefinitions t) {p : LibraryProcedure}
    (member : p ∈ Library.procedures ++ LazyLibrary.procedures ++ FormLibrary.procedures) :
    t.Binds p := by
  obtain ⟨proper, member⟩ := exists_mem_preludeDefinitions member
  obtain ⟨ref, q, bound, held, makes⟩ := defines.procedures _ member
  exact ⟨ref, bound, q, held, makes⟩

theorem names (defines : s.Defines ps t) {p : Primitive} (named : s.Names p)
    (fresh : p.name ∉ ps.map (·.name)) : t.Names p :=
  named.kept (defines.others _ fresh) defines.retains

end Store.Defines

theorem exists_evalAll {k : Nat} {w : World} (fits : Fits (k + 2) w.room) (fuel : Nat)
    {ps : List PreludeDefinition} (distinct : (ps.map (·.name)).Nodup) {s : Store}
    (present : Store.globalFrame < s.frames.size) :
    ∃ t, s.Defines ps t ∧ ∀ v, ∃ r,
      Run.evalAll (Session.evalIn w (fuel + 2) · Store.globalFrame) (ps.map (·.datum)) v s =
        .ok r t := by
  induction ps generalizing s with
  | nil => exact ⟨s, .nil s, fun v => ⟨v, rfl⟩⟩
  | cons p ps ih =>
    rw [List.map_cons, List.nodup_cons] at distinct
    have spelled := Datum.spells_ofDatum p.datum s.nextMark
    obtain ⟨q, mark, makes, evaluated⟩ := p.evaluates (w := w)
      (s := { s with nextMark := (Value.ofDatum s.nextMark p.datum).2 }) fits spelled
    have first : s.Defines [p] _ := .addGlobal present makes mark
    obtain ⟨t, rest, all⟩ := ih distinct.2 (first.size ▸ present)
    obtain ⟨r, ended⟩ := all (.symbol p.name)
    refine ⟨t, first.cons rest distinct.1, fun v => ⟨r, ?_⟩⟩
    refine (Run.bind_of_ok rfl).trans ?_
    exact (Run.bind_of_ok (evaluated fuel none)).trans ended

theorem exists_evalForms {room : Option Nat} {eval : Value → Run Value} {input : Input}
    {ds : List Datum} (forms : input.forms room = (ds, none)) {s t : Store} {r : Value}
    (all : Run.evalAll eval ds .nil s = .ok r t) :
    ∃ count, Run.evalForms room eval input s = .ok (r, count) t := by
  have mapped : (Prod.fst <$> Run.evalForms room eval input) s = .ok r t := by
    rw [Run.fst_evalForms, forms]
    exact Run.bind_of_ok all
  cases ended : Run.evalForms room eval input s with
  | ok result u =>
    rw [Run.map_of_ok ended] at mapped
    obtain ⟨rfl, rfl⟩ := EStateM.Result.ok.inj mapped
    exact ⟨_, rfl⟩
  | error e u =>
    rw [map_eq_pure_bind, Run.bind_of_error ended] at mapped
    cases mapped

theorem exists_log (l : Logging) (origin : String) (message : Unit → String) (s : Store) :
    ∃ err, Run.log l .debug origin message s = .ok () { s with err } := by
  obtain ⟨t, logged, same⟩ := exists_log_eq l origin message s
  refine ⟨t.err, logged.trans (congrArg _ ?_)⟩
  cases s
  cases t
  have same := same.rest
  simp_all

/-- The text of the prelude, loaded at top level, defines all that it should. -/
theorem exists_loadText {w : World} (fits : Fits 9 w.room) (fuel : Nat) {s : Store}
    (lawful : Hidden.nothing.Lawful s) (present : Store.globalFrame < s.frames.size) :
    ∃ t r, s.Defines preludeDefinitions t ∧
      Load.text w w.room (Session.evalIn w (fuel + 2)) Prelude.name Prelude.source.toList
        Store.globalFrame s = .ok r t := by
  obtain ⟨begun, first⟩ := exists_log w.logging Load.origin
    (fun _ => "loading " ++ Prelude.name) s
  have top : Run.topLevel Store.globalFrame { s with err := begun } =
      .ok Store.globalFrame { s with err := begun } :=
    congrArg (fun top => EStateM.Result.ok top _) (lawful.topLevel present)
  obtain ⟨t, defines, all⟩ := exists_evalAll (w := w) (k := 7) fits fuel
    nodup_names_preludeDefinitions (s := { s with err := begun }) present
  obtain ⟨r, ended⟩ := all .nil
  obtain ⟨count, evaluated⟩ := exists_evalForms (forms_prelude fits Prelude.name) ended
  obtain ⟨closing, last⟩ := exists_log w.logging Load.origin
    (fun _ => "loaded " ++ Prelude.name ++ ": " ++ toString count ++ " form(s)") t
  refine ⟨{ t with err := closing }, r,
    ⟨defines.procedures, defines.others, defines.retains, defines.size, defines.inputs⟩, ?_⟩
  rw [Load.text, Run.bind_of_ok first, Run.bind_of_ok top, Run.bind_of_ok evaluated]
  exact Run.bind_of_ok last

/-- A session that starts with the standard prelude, in room enough to read it, comes into a store
that holds the list procedures, the lazy lists, the derived forms and the dialogue. -/
theorem start_loads_prelude {w : World} (fits : Fits 9 w.room) {settings : Settings}
    (standard : settings.preludePlace w.disk = .ok .standard) (fuel : Nat) (input : String) :
    ∃ t, Session.start w (fuel + 2) settings .settled input .empty = .ok () t ∧
      t.LoadedLazy ∧ t.LoadedForms ∧ (∀ p ∈ FormLibrary.expanders, ∃ ref,
        t.global? p.name = some (.procedure ref) ∧ t.HasExpander p ref) ∧
      Dialogue.Ready t 0 ∧ t.inputs = #[.ofLines "<stdin>" (Text.splitNewlines input.toList)] := by
  have bound := standardInput_startStore input
  obtain ⟨t, r, defines, loaded⟩ := exists_loadText fits fuel (reachable_startStore input).lawful
    (Store.globalFrame_lt_of_global? bound)
  have fresh : ∀ p ∈ Primitive.all, p.name ∉ preludeDefinitions.map (·.name) := by decide
  have all (p : Primitive) : p ∈ Primitive.all := by cases p <;> decide
  have named (p : Primitive) : t.Names p :=
    defines.names (names_startStore input (all p)) (fresh p (all p))
  have place : Run.ofSystem (settings.preludePlace w.disk) (startStore input) =
      .ok .standard (startStore input) := by
    rw [standard]
    rfl
  refine ⟨t, ?started, ⟨⟨?lists, fun p _ => named p⟩, ?lazy, named .gt⟩,
    ⟨?forms, fun p _ => named p⟩, ?expanders,
    ⟨?loop, fun p _ => named p, (defines.others _ (by decide)).trans bound⟩,
    defines.inputs.trans (inputs_startStore input)⟩
  case started =>
    refine (Run.bind_of_ok (bindPrimitives_eq input)).trans ?_
    exact (Run.bind_of_ok place).trans (Run.bind_of_ok loaded)
  case lists => exact fun p member => defines.binds (by simp [member])
  case lazy => exact fun p member => defines.binds (by simp [member])
  case forms => exact fun p member => defines.binds (by simp [member])
  case expanders =>
    intro p member
    obtain ⟨ref, _, name, held, x, rfl, isMatch⟩ :=
      defines.procedures _ (ofExpander_mem_preludeDefinitions member)
    exact ⟨ref, name, x, held, isMatch⟩
  case loop =>
    obtain ⟨ref, _, name, held, c, rfl, isMatch⟩ :=
      defines.procedures .dialogue (by simp [preludeDefinitions])
    exact ⟨ref, c, name, held, isMatch⟩

end LazyLisp
