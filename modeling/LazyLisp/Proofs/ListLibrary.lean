import LazyLisp.Proofs.Yielding

/-!
The list procedures of the prelude, as data: each with the text that defines it and the code that
the text spells. A store has them loaded if the global frame binds their names, and those of the
primitives that they use, to such procedures.
-/

namespace LazyLisp

/-- What a definition makes: a closure, or one with several parameter lists. -/
inductive Shape where
  | closure (signature : Signature) (doc : String) (body : Datum)
  | cases (doc : String) (clauses : List (Signature × Datum))

namespace Shape

def datum (name : String) : Shape → Datum
  | closure sig doc body =>
    .list [.symbol "define", .pair (.symbol name) sig.datum, .atom (.string doc), body]
  | cases doc clauses =>
    .list [.symbol "define", .symbol name, .list (.symbol "case-lambda" :: .atom (.string doc) ::
      clauses.map fun (sig, body) => .list [sig.datum, body])]

def ClausesMatch : List (Signature × Datum) → List Closure → Prop
  | [], closures => closures = []
  | (sig, body) :: clauses, closures => ∃ c rest, closures = c :: rest ∧
      c.Matches sig body Store.globalFrame ∧ ClausesMatch clauses rest

def Makes : Shape → Procedure → Prop
  | closure sig _ body, .closure c => c.Matches sig body Store.globalFrame
  | cases _ clauses, .cases closures _ _ => ClausesMatch clauses closures
  | _, _ => False

theorem ClausesMatch.find? {clauses : List (Signature × Datum)} {closures : List Closure}
    (matched : ClausesMatch clauses closures) {count : Nat} {sig : Signature} {body : Datum}
    (selected : clauses.find? (·.1.accepts count) = some (sig, body)) :
    ∃ c, closures.find? (·.signature.accepts count) = some c ∧
      c.Matches sig body Store.globalFrame := by
  induction clauses generalizing closures with
  | nil => cases selected
  | cons clause clauses ih =>
    obtain ⟨first, code⟩ := clause
    obtain ⟨c, rest, rfl, isMatch, others⟩ := matched
    rw [List.find?_cons] at selected
    rw [List.find?_cons, isMatch.signature]
    cases accepts : first.accepts count with
    | true =>
      simp only [accepts] at selected
      cases selected
      exact ⟨c, rfl, isMatch⟩
    | false =>
      simp only [accepts] at selected
      exact ih others selected

end Shape

/-- A procedure of the prelude. -/
structure LibraryProcedure where
  name : String
  shape : Shape
  /-- The part of the prelude that defines it. -/
  text : String
  reads : readAll none text.toList = .ok [shape.datum name]

theorem readAll_ofList (chars : List Char) :
    readAll none (String.ofList chars).toList = readAll none chars := by
  rw [String.toList_ofList]

namespace Library

open Datum

-- The texts are read by computation.
set_option maxRecDepth 10000

def foldLeft : LibraryProcedure where
  name := "fold-left"
  shape := .closure ⟨["f", "init", "xs"], none⟩
    "Combine xs from the left: (f (f (f init x1) x2) x3)."
    (list [symbol "if", list [symbol "cons?", symbol "xs"],
      list [symbol "fold-left", symbol "f",
        list [symbol "f", symbol "init", list [symbol "car", symbol "xs"]],
        list [symbol "cdr", symbol "xs"]],
      symbol "init"])
  text := Prelude.foldLeft
  reads := (readAll_ofList _).trans (by with_unfolding_all rfl)

def reverse : LibraryProcedure where
  name := "reverse"
  shape := .closure ⟨["xs"], none⟩ "The elements of xs in the opposite order."
    (list [symbol "fold-left",
      list [symbol "lambda", Signature.datum ⟨["acc", "x"], none⟩,
        list [symbol "cons", symbol "x", symbol "acc"]],
      list [symbol "quote", nil], symbol "xs"])
  text := Prelude.reverse
  reads := (readAll_ofList _).trans (by with_unfolding_all rfl)

def foldRight : LibraryProcedure where
  name := "fold-right"
  shape := .closure ⟨["f", "init", "xs"], none⟩
    "Combine xs from the right: (f x1 (f x2 (f x3 init)))."
    (list [symbol "fold-left",
      list [symbol "lambda", Signature.datum ⟨["acc", "x"], none⟩,
        list [symbol "f", symbol "x", symbol "acc"]],
      symbol "init", list [symbol "reverse", symbol "xs"]])
  text := Prelude.foldRight
  reads := (readAll_ofList _).trans (by with_unfolding_all rfl)

def length : LibraryProcedure where
  name := "length"
  shape := .cases "Number of elements in the list xs."
    [(⟨["xs"], none⟩, list [symbol "length", symbol "xs", .atom (.int 0)]),
      (⟨["xs", "n"], none⟩, list [symbol "if", list [symbol "cons?", symbol "xs"],
        list [symbol "length", list [symbol "cdr", symbol "xs"],
          list [symbol "+", symbol "n", .atom (.int 1)]],
        symbol "n"])]
  text := Prelude.length
  reads := (readAll_ofList _).trans (by with_unfolding_all rfl)

def append : LibraryProcedure where
  name := "append"
  shape := .closure ⟨[], some "lists"⟩ "Concatenate lists. Every list but the last is copied."
    (list [symbol "if", list [symbol "cons?", symbol "lists"],
      list [symbol "let", list [list [symbol "backwards", list [symbol "reverse", symbol "lists"]]],
        list [symbol "fold-left",
          list [symbol "lambda", Signature.datum ⟨["acc", "xs"], none⟩,
            list [symbol "fold-right", symbol "cons", symbol "acc", symbol "xs"]],
          list [symbol "car", symbol "backwards"], list [symbol "cdr", symbol "backwards"]]],
      list [symbol "quote", nil]])
  text := Prelude.append
  reads := (readAll_ofList _).trans (by with_unfolding_all rfl)

def collecting (body : Datum) : Datum :=
  list [symbol "reverse",
    list [symbol "fold-left", list [symbol "lambda", Signature.datum ⟨["acc", "x"], none⟩, body],
      list [symbol "quote", nil], symbol "xs"]]

def map : LibraryProcedure where
  name := "map"
  shape := .closure ⟨["f", "xs"], none⟩
    "Apply f to each element of xs, left to right, collecting the results."
    (collecting (list [symbol "cons", list [symbol "f", symbol "x"], symbol "acc"]))
  text := Prelude.map
  reads := (readAll_ofList _).trans (by with_unfolding_all rfl)

def filter : LibraryProcedure where
  name := "filter"
  shape := .closure ⟨["keep?", "xs"], none⟩
    "The elements of xs for which keep? is truthy, in order."
    (collecting (list [symbol "if", list [symbol "keep?", symbol "x"],
      list [symbol "cons", symbol "x", symbol "acc"], symbol "acc"]))
  text := Prelude.filter
  reads := (readAll_ofList _).trans (by with_unfolding_all rfl)

def nth : LibraryProcedure where
  name := "nth"
  shape := .closure ⟨["xs", "n"], none⟩ "The element of xs at index n, counting from 0."
    (list [symbol "if", list [symbol "=", symbol "n", .atom (.int 0)],
      list [symbol "car", symbol "xs"],
      list [symbol "nth", list [symbol "cdr", symbol "xs"],
        list [symbol "-", symbol "n", .atom (.int 1)]]])
  text := Prelude.nth
  reads := (readAll_ofList _).trans (by with_unfolding_all rfl)

def last : LibraryProcedure where
  name := "last"
  shape := .closure ⟨["xs"], none⟩ "The final element of a non-empty list."
    (list [symbol "if", list [symbol "cons?", list [symbol "cdr", symbol "xs"]],
      list [symbol "last", list [symbol "cdr", symbol "xs"]],
      list [symbol "car", symbol "xs"]])
  text := Prelude.last
  reads := (readAll_ofList _).trans (by with_unfolding_all rfl)

def range : LibraryProcedure where
  name := "range"
  shape := .cases "The integers from `from` up to, but not including, `to`."
    [(⟨["from", "to"], none⟩,
        list [symbol "range", symbol "from", symbol "to", list [symbol "quote", nil]]),
      (⟨["from", "to", "acc"], none⟩, list [symbol "if", list [symbol "<", symbol "from", symbol "to"],
        list [symbol "range", symbol "from", list [symbol "-", symbol "to", .atom (.int 1)],
          list [symbol "cons", list [symbol "-", symbol "to", .atom (.int 1)], symbol "acc"]],
        symbol "acc"])]
  text := Prelude.range
  reads := (readAll_ofList _).trans (by with_unfolding_all rfl)

def procedures : List LibraryProcedure :=
  [foldLeft, reverse, foldRight, length, append, map, filter, nth, last, range]

def primitives : List Primitive := [.isCons, .car, .cdr, .cons, .add, .sub, .numEq, .lt]

def names : List String := procedures.map (·.name) ++ primitives.map (·.name)

theorem mem_names_of_procedure {p : LibraryProcedure} (member : p ∈ procedures) :
    p.name ∈ names := List.mem_append_left _ (List.mem_map_of_mem member)

theorem mem_names_of_primitive {p : Primitive} (member : p ∈ primitives) : p.name ∈ names :=
  List.mem_append_right _ (List.mem_map_of_mem member)

theorem ofName?_eq_none : ∀ name ∈ names, SpecialForm.ofName? name = none := by
  decide

end Library

namespace Store

def Has (s : Store) (p : LibraryProcedure) (ref : Nat) : Prop :=
  ∃ q, s.procedures[ref]? = some q ∧ p.shape.Makes q

def Binds (s : Store) (p : LibraryProcedure) : Prop :=
  ∃ ref, s.global? p.name = some (.procedure ref) ∧ s.Has p ref

/-- The list procedures of the prelude and the primitives that they use have their global names. -/
structure Loaded (s : Store) : Prop where
  procedures : ∀ p ∈ Library.procedures, ∃ ref,
    s.global? p.name = some (.procedure ref) ∧ s.Has p ref
  primitives : ∀ p ∈ Library.primitives, ∃ ref, s.global? p.name = some (.procedure ref) ∧
    s.procedures[ref]? = some (.primitive p)

def SameLibrary (s t : Store) : Prop := ∀ name ∈ Library.names, t.global? name = s.global? name

end Store

section Loaded

variable {s t : Store} {p : LibraryProcedure} {ref : Nat}

theorem Store.Has.kept (has : s.Has p ref) (kept : s.Retains t) : t.Has p ref := by
  obtain ⟨q, held, makes⟩ := has
  exact ⟨q, kept ref q held, makes⟩

theorem Store.Has.canCall (has : s.Has p ref) : s.CanCall (.procedure ref) := by
  obtain ⟨q, held, makes⟩ := has
  refine ⟨ref, q, rfl, held, ?_⟩
  cases q with
  | expander x => cases shape : p.shape <;> simp [shape, Shape.Makes] at makes
  | _ => rfl

theorem Store.Binds.kept (binds : s.Binds p) (same : t.global? p.name = s.global? p.name)
    (kept : s.Retains t) : t.Binds p := by
  obtain ⟨ref, bound, has⟩ := binds
  exact ⟨ref, same.trans bound, has.kept kept⟩

theorem Store.Loaded.kept (loaded : s.Loaded) (same : s.SameLibrary t) (kept : s.Retains t) :
    t.Loaded where
  procedures p member := by
    have binds : s.Binds p := loaded.procedures p member
    exact binds.kept (same _ (Library.mem_names_of_procedure member)) kept
  primitives p member := by
    obtain ⟨ref, bound, held⟩ := loaded.primitives p member
    exact ⟨ref, (same _ (Library.mem_names_of_primitive member)).trans bound, kept ref _ held⟩

theorem Allocates.sameLibrary (allocates : Allocates s t) (loaded : s.Loaded) :
    s.SameLibrary t := by
  intro name _
  obtain ⟨_, bound, -⟩ := loaded.primitives .car (by decide)
  obtain ⟨f, found, -⟩ := Option.bind_eq_some_iff.mp bound
  rw [Store.global?, Store.global?, found, allocates.frames _ f found]

theorem Store.Loaded.allocates (loaded : s.Loaded) (allocates : Allocates s t) : t.Loaded :=
  loaded.kept (allocates.sameLibrary loaded) allocates.procedures

theorem Store.Loaded.globalFrame_lt (loaded : s.Loaded) : Store.globalFrame < s.frames.size := by
  obtain ⟨_, bound, -⟩ := loaded.primitives .car (by decide)
  obtain ⟨f, found, -⟩ := Option.bind_eq_some_iff.mp bound
  exact Hidden.old_of_getElem? found

end Loaded

end LazyLisp
