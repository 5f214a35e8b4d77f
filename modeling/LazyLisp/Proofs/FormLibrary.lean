import LazyLisp.Proofs.Catching
import LazyLisp.Proofs.ListLoading

/-!
The forms of the prelude, as data: the expanders that define them and the procedures that these use,
each with the text that defines it and the code that the text spells. A definition, evaluated at top
level, makes the expander and gives it its global name.
-/

namespace LazyLisp

def expanderDatum (name : String) (sig : Signature) (doc : String) (body : Datum) : Datum :=
  .list [.symbol "define-macro", .pair (.symbol name) sig.datum, .atom (.string doc), body]

/-- An expander of the prelude. -/
structure LibraryExpander where
  name : String
  signature : Signature
  doc : String
  body : Datum
  /-- The part of the prelude that defines it. -/
  text : String
  reads : readAll none text.toList = .ok [expanderDatum name signature doc body]

def LibraryExpander.datum (p : LibraryExpander) : Datum :=
  expanderDatum p.name p.signature p.doc p.body

namespace FormLibrary

open Datum

-- The texts are read by computation.
set_option maxRecDepth 10000

def unquoted (code : Datum) : Datum := list [symbol "unquote", code]

def sequenceTemplate : Datum :=
  list [symbol "begin", list [symbol "unquote-splicing", symbol "body"]]

def bodyToExpr : LibraryProcedure where
  name := "body->expr"
  shape := .closure ⟨["body"], none⟩
    "One expression for a clause body: the form itself, or a begin of several."
    (list [symbol "if", list [symbol "cons?", symbol "body"],
      list [symbol "if", list [symbol "cons?", list [symbol "cdr", symbol "body"]],
        list [symbol "quasiquote", sequenceTemplate], list [symbol "car", symbol "body"]],
      list [symbol "quote", nil]])
  text := Prelude.clauseBody
  reads := (readAll_ofList _).trans (by with_unfolding_all rfl)

def clauseTemplate : Datum :=
  list [symbol "if", unquoted (symbol "test"),
    unquoted (list [symbol "body->expr", symbol "body"]),
    unquoted (list [symbol "cond->if", list [symbol "cdr", symbol "clauses"]])]

def clauseCode : Datum :=
  list [symbol "if", list [symbol "eq?", symbol "test", list [symbol "quote", symbol "else"]],
    list [symbol "body->expr", symbol "body"], list [symbol "quasiquote", clauseTemplate]]

def clauseBindings : List (String × Datum) :=
  [("test", list [symbol "car", list [symbol "car", symbol "clauses"]]),
    ("body", list [symbol "cdr", list [symbol "car", symbol "clauses"]])]

def condToIf : LibraryProcedure where
  name := "cond->if"
  shape := .closure ⟨["clauses"], none⟩ "Nested ifs equivalent to the clauses of a cond form."
    (list [symbol "if", list [symbol "cons?", symbol "clauses"],
      list [symbol "let", bindingList clauseBindings, clauseCode], list [symbol "quote", nil]])
  text := Prelude.condToIf
  reads := (readAll_ofList _).trans (by with_unfolding_all rfl)

def procedures : List LibraryProcedure := [bodyToExpr, condToIf]

def primitives : List Primitive := [.isCons, .car, .cdr, .same, .gensym]

def condForm : LibraryExpander where
  name := "cond"
  signature := ⟨[], some "clauses"⟩
  doc := "(cond (test expr...)...) evaluates the body of the first clause whose test is truthy."
  body := list [symbol "cond->if", symbol "clauses"]
  text := Prelude.condForm
  reads := (readAll_ofList _).trans (by with_unfolding_all rfl)

def assertTemplate : Datum :=
  list [symbol "let", list [list [unquoted (symbol "value"), unquoted (symbol "expr")]],
    list [symbol "if", unquoted (symbol "value"), unquoted (symbol "value"),
      list [symbol "throw-error", list [symbol "quote", symbol "assertion-error"],
        list [symbol "quote", unquoted (symbol "expr")]]]]

def assertForm : LibraryExpander where
  name := "assert"
  signature := ⟨["expr"], none⟩
  doc := "The value of expr when it is truthy; otherwise raise assertion-error carrying 'expr."
  body := list [symbol "let",
    list [list [symbol "value", list [symbol "gensym", .atom (.string "value")]]],
    list [symbol "quasiquote", assertTemplate]]
  text := Prelude.assertForm
  reads := (readAll_ofList _).trans (by with_unfolding_all rfl)

def testTemplate (on : Bool) : Datum :=
  let branch (taken : Bool) := if taken then sequenceTemplate else nil
  list [symbol "if", unquoted (symbol "test"), branch on, branch (!on)]

def whenForm : LibraryExpander where
  name := "when"
  signature := ⟨["test"], some "body"⟩
  doc := "(when test body...) evaluates body if test is truthy, else ()."
  body := list [symbol "quasiquote", testTemplate true]
  text := Prelude.whenForm
  reads := (readAll_ofList _).trans (by with_unfolding_all rfl)

def unlessForm : LibraryExpander where
  name := "unless"
  signature := ⟨["test"], some "body"⟩
  doc := "(unless test body...) evaluates body if test is falsey, else ()."
  body := list [symbol "quasiquote", testTemplate false]
  text := Prelude.unlessForm
  reads := (readAll_ofList _).trans (by with_unfolding_all rfl)

def expanders : List LibraryExpander := [condForm, assertForm, whenForm, unlessForm]

end FormLibrary

namespace Store

def HasExpander (s : Store) (p : LibraryExpander) (ref : Nat) : Prop :=
  ∃ x, s.procedures[ref]? = some (.expander x) ∧ x.Matches p.signature p.body globalFrame

def SeesExpander (s : Store) (frame : FrameId) (p : LibraryExpander) : Prop :=
  ∃ owner ref, Frame.find? s.frames p.name frame = some (owner, .procedure ref) ∧
    s.HasExpander p ref

/-- What the expanders of the prelude use has its global names. -/
structure LoadedForms (s : Store) : Prop where
  procedures : ∀ p ∈ FormLibrary.procedures, s.Binds p
  primitives : ∀ p ∈ FormLibrary.primitives, s.Names p

end Store

section Loaded

variable {s t : Store} {p : LibraryExpander} {ref : Nat}

theorem Store.HasExpander.kept (has : s.HasExpander p ref) (kept : s.Retains t) :
    t.HasExpander p ref := by
  obtain ⟨x, held, isMatch⟩ := has
  exact ⟨x, kept ref _ held, isMatch⟩

theorem Store.LoadedForms.globalFrame_lt (loaded : s.LoadedForms) :
    Store.globalFrame < s.frames.size := by
  obtain ⟨_, bound, -⟩ := loaded.primitives .car (by decide)
  exact Store.globalFrame_lt_of_global? bound

theorem Store.LoadedForms.allocates (loaded : s.LoadedForms) (allocates : Allocates s t) :
    t.LoadedForms := by
  have inside := Array.getElem?_eq_getElem loaded.globalFrame_lt
  have same (name : String) : t.global? name = s.global? name := by
    rw [Store.global?, Store.global?, inside, allocates.frames _ _ inside]
  constructor
  · intro p member
    exact (loaded.procedures p member).kept (same p.name) allocates.procedures
  · intro p member
    exact (loaded.primitives p member).kept (same p.name) allocates.procedures

end Loaded

section Definitions

variable {k : Nat} {w : World} {room : Option Nat} {s : Store}

theorem evaluate_expanderDefinition (fits : Fits (k + 1) room) {p : LibraryExpander} {expr : Value}
    (spelled : p.datum.Spells expr) :
    ∃ x : Closure, x.Matches p.signature p.body Store.globalFrame ∧ ∀ fuel caller,
      evaluate w (fuel + 1) room expr Store.globalFrame caller s =
        .ok (.symbol p.name) (s.addGlobal p.name (.expander x)) := by
  obtain ⟨_, ⟨target, _, rfl, header, text, _, rfl, documented, form, _, rfl, coded, rfl⟩,
    stepped⟩ := step_special (x := "define-macro") rfl spelled
  obtain rfl := Datum.spells_atom documented
  cases header with
  | @pair _ _ mark head params named parameters =>
    obtain rfl := Datum.spells_atom named
    have split : splitDoc [.string p.doc, form] = (some p.doc, [form]) := rfl
    obtain ⟨x, isMatch, made⟩ :=
      makeClosure_matches Store.globalFrame (some p.name) parameters split coded
    refine ⟨x, isMatch, fun fuel caller => evaluate_of_value fits.descend ?_⟩
    refine (stepped _ Store.globalFrame true s).trans (Run.map_of_ok ?_)
    exact Run.bind_of_ok (made _ s)

end Definitions

def defineExpander (s : Store) (p : LibraryExpander) : Store :=
  after (evaluate bareWorld 1 none (Value.ofDatum s.nextMark p.datum).1 Store.globalFrame none s)

theorem defineExpander_eq (s : Store) (p : LibraryExpander) :
    ∃ x : Closure, x.Matches p.signature p.body Store.globalFrame ∧
      defineExpander s p = s.addGlobal p.name (.expander x) := by
  have spelled := Datum.spells_ofDatum p.datum s.nextMark
  obtain ⟨x, isMatch, evaluated⟩ :=
    evaluate_expanderDefinition (w := bareWorld) (s := s) (fits_none 1) spelled
  exact ⟨x, isMatch, congrArg after (evaluated 0 none)⟩

/-- Once their definitions have been evaluated, the expanders have their global names. -/
theorem foldl_defineExpander (ps : List LibraryExpander) (distinct : (ps.map (·.name)).Nodup)
    {s : Store} (present : Store.globalFrame < s.frames.size) :
    let t := ps.foldl defineExpander s
    (∀ p ∈ ps, ∃ ref, t.global? p.name = some (.procedure ref) ∧ t.HasExpander p ref) ∧
    (∀ name, name ∉ ps.map (·.name) → t.global? name = s.global? name) ∧ s.Retains t := by
  induction ps generalizing s with
  | nil => exact ⟨fun _ member => absurd member List.not_mem_nil, fun _ _ => rfl, fun _ _ => id⟩
  | cons p ps ih =>
    rw [List.map_cons, List.nodup_cons] at distinct
    obtain ⟨x, isMatch, defined⟩ := defineExpander_eq s p
    have present' : Store.globalFrame < (s.addGlobal p.name (.expander x)).frames.size := by
      rw [Store.addGlobal, Array.size_modify]
      exact present
    obtain ⟨bound, others, retains⟩ := ih distinct.2 present'
    rw [List.foldl_cons, defined]
    refine ⟨?_, ?_, ?_⟩
    · intro q member
      rcases List.mem_cons.mp member with rfl | member
      · refine ⟨s.procedures.size, ?_, x, retains _ _ Array.getElem?_push_size, isMatch⟩
        rw [others q.name distinct.1, Store.global?_addGlobal present, if_pos rfl]
      · exact bound q member
    · intro name absent
      rw [List.map_cons, List.mem_cons, not_or] at absent
      rw [others name absent.2, Store.global?_addGlobal present, if_neg absent.1]
    · intro ref q found
      exact retains ref q (s.retains_addGlobal p.name _ ref q found)

end LazyLisp
