import LazyLisp.Proofs.Catching
import LazyLisp.Proofs.ListComputation

/-!
The procedures of the prelude for lazy lists, and access to the halves of lazy pairs.

A pending half is evaluated where it is accessed, with less room than the form that accesses it,
and then holds its value.
-/

namespace LazyLisp

namespace LazyLibrary

open Datum

-- The texts are read by computation.
set_option maxRecDepth 10000

def restCode : Datum := list [symbol "iterate", symbol "f", list [symbol "f", symbol "x"]]

def iterate : LibraryProcedure where
  name := "iterate"
  shape := .closure ⟨["f", "x"], none⟩ "The infinite lazy list x, (f x), (f (f x)), ..."
    (list [symbol "lazy-cons", symbol "x", restCode])
  text := Prelude.iterate
  reads := (readAll_ofList _).trans (by with_unfolding_all rfl)

def takeCode : Datum :=
  list [symbol "let",
    list [list [symbol "acc", list [symbol "cons", list [symbol "car", symbol "xs"], symbol "acc"]]],
    list [symbol "if", list [symbol "=", symbol "n", .atom (.int 1)],
      list [symbol "reverse", symbol "acc"],
      list [symbol "take", list [symbol "-", symbol "n", .atom (.int 1)],
        list [symbol "cdr", symbol "xs"], symbol "acc"]]]

def take : LibraryProcedure where
  name := "take"
  shape := .cases "The first n elements of xs. Forces no more of a lazy list than it returns."
    [(⟨["n", "xs"], none⟩, list [symbol "take", symbol "n", symbol "xs", list [symbol "quote", nil]]),
      (⟨["n", "xs", "acc"], none⟩,
        list [symbol "if", list [symbol "and", list [symbol ">", symbol "n", .atom (.int 0)],
            list [symbol "cons?", symbol "xs"]],
          takeCode, list [symbol "reverse", symbol "acc"]])]
  text := Prelude.take
  reads := (readAll_ofList _).trans (by with_unfolding_all rfl)

def procedures : List LibraryProcedure := [iterate, take]

def names : List String := procedures.map (·.name) ++ Primitive.gt.name :: Library.names

theorem mem_names_of_procedure {p : LibraryProcedure} (member : p ∈ procedures) :
    p.name ∈ names := List.mem_append_left _ (List.mem_map_of_mem member)

theorem mem_names_of_library {name : String} (member : name ∈ Library.names) : name ∈ names :=
  List.mem_append_right _ (.tail _ member)

theorem ofName?_eq_none : ∀ p ∈ procedures, SpecialForm.ofName? p.name = none := by
  decide

end LazyLibrary

namespace Store

/-- The procedures for lazy lists and all that they use have their global names. -/
structure LoadedLazy (s : Store) : Prop extends s.Loaded where
  lazyProcedures : ∀ p ∈ LazyLibrary.procedures, s.Binds p
  greater : s.Names .gt

def SameLazy (s t : Store) : Prop := ∀ name ∈ LazyLibrary.names, t.global? name = s.global? name

/-- What the names of the procedures for lazy lists stand for in the frame is what they stand for
globally. -/
def SeesLazy (s : Store) (frame : FrameId) : Prop := ∀ p ∈ LazyLibrary.procedures,
  (Frame.find? s.frames p.name frame).map (·.2) = s.global? p.name

end Store

section Loaded

variable {s t : Store}

theorem Store.LoadedLazy.kept (loaded : s.LoadedLazy) (same : s.SameLazy t) (kept : s.Retains t) :
    t.LoadedLazy where
  toLoaded := loaded.toLoaded.kept
    (fun name member => same name (LazyLibrary.mem_names_of_library member)) kept
  lazyProcedures p member := (loaded.lazyProcedures p member).kept
    (same p.name (LazyLibrary.mem_names_of_procedure member)) kept
  greater := loaded.greater.kept (same _ (by decide)) kept

theorem Store.global?_of_frame (same : t.frames[globalFrame]? = s.frames[globalFrame]?)
    (name : String) : t.global? name = s.global? name := by
  rw [Store.global?, Store.global?, same]

theorem Store.LoadedLazy.sameLazy (loaded : s.LoadedLazy) (kept : ∀ (i : Nat) f,
    s.frames[i]? = some f → t.frames[i]? = some f) : s.SameLazy t := by
  intro name _
  apply Store.global?_of_frame
  have inside := Array.getElem?_eq_getElem loaded.globalFrame_lt
  rw [inside, kept _ _ inside]

theorem Store.LoadedLazy.allocates (loaded : s.LoadedLazy) (allocates : Allocates s t) :
    t.LoadedLazy := loaded.kept (loaded.sameLazy allocates.frames) allocates.procedures

end Loaded

theorem Primitive.run_gt (m : Engine) (call : Caller) (frame : FrameId) (s : Store) (a b : Int) :
    gt.run m call frame [.atom (.int a), .atom (.int b)] s =
      .ok (.value (.ofBool (decide (a > b)))) s := by
  have holds : (Ord.compare a b == .gt && true) = decide (a > b) := by
    rw [Bool.eq_iff_iff]
    simp [Int.compare_eq_gt]
  rw [← holds]
  rfl

def Store.pushLazyPair (s : Store) (p : LazyPair) : Store :=
  { s with lazyPairs := s.lazyPairs.push p }

def Side.primitive : Side → Primitive
  | .car => .car
  | .cdr => .cdr

section Halves

variable {k : Nat} {w : World} {room : Option Nat} {frame : FrameId} {s t : Store}
  {Q : Value → Store → Prop}

theorem Yields.lazyCons (fits : Fits (k + 1) room) {car cdr : Datum}
    (holds : ∀ a d, car.Spells a → cdr.Spells d → Q (.lazyPair s.lazyPairs.size)
      (s.pushLazyPair ⟨.pending a frame, .pending d frame⟩)) :
    Yields w room (.list [.symbol "lazy-cons", car, cdr]) frame s Q := by
  intro expr spelled
  obtain ⟨_, ⟨a, _, rfl, first, d, _, rfl, second, rfl⟩, stepped⟩ := step_special rfl spelled
  exact ⟨_, _, evaluates_of_value fits (.always fun fuel => stepped _ frame true s),
    holds a d first second⟩

section Access

variable (fits : Fits (k + 2) room) {ref : Nat} {h : Half}
  (held : s.procedures[ref]? = some (.primitive h.side.primitive))

include fits held

theorem calls_half {v : Value} (forced : Eventually fun fuel =>
      Engine.forceWith (evaluate w fuel (lower 1 room)) h.side h.ref s = .ok v t) :
    Calls w room (.procedure ref) [.lazyPair h.ref] frame s v t := by
  refine calls_of_run fits held (forced.mono fun fuel forced again => ?_)
  have accessed : h.side.primitive.run (.evaluating w fuel (lower 1 room)) again frame
      [.lazyPair h.ref] s = .ok (.value v) t := by
    obtain ⟨side, r⟩ := h
    cases side <;> exact Run.map_of_ok forced
  have caught : Call.catchArithmetic h.side.primitive.name (h.side.primitive.run
      (.evaluating w fuel (lower 1 room)) again frame [.lazyPair h.ref]) s = .ok (.value v) t := by
    rw [Call.catchArithmetic, accessed]
  simp only [Call.runWith, bind_assoc]
  exact Run.bind_of_ok caught

theorem calls_half_of_ready {v : Value} (ready : h.slot? s.lazyPairs = some (.ready v)) :
    Calls w room (.procedure ref) [.lazyPair h.ref] frame s v s :=
  calls_half fits held (.always fun _ => forceWith_of_ready _ ready)

/-- Access to a half that is pending: its expression is evaluated, and the half keeps the value. -/
theorem calls_half_of_pending {expr v : Value} {inner : FrameId}
    (pending : h.slot? s.lazyPairs = some (.pending expr inner))
    (evaluated : Evaluates w (lower 1 room) expr inner s v t) :
    Calls w room (.procedure ref) [.lazyPair h.ref] frame s v (t.settle h v) := by
  refine calls_half fits held (evaluated.mono fun fuel evaluated => ?_)
  rw [forceWith_of_pending _ pending]
  exact Run.bind_of_ok (evaluated none)

end Access

/-- A call of `iterate` makes a frame and a lazy pair, and calls nothing. -/
theorem yields_iterate (fits : Fits (k + 2) room) {ref : Nat} (has : s.Has LazyLibrary.iterate ref)
    (f x : Value) (frame : FrameId)
    (holds : ∀ rest, LazyLibrary.restCode.Spells rest → Q (.lazyPair s.lazyPairs.size)
      ((s.pushFrame ⟨some Store.globalFrame, [("f", f), ("x", x)]⟩).pushLazyPair
        ⟨.pending (.symbol "x") s.frames.size, .pending rest s.frames.size⟩)) :
    YieldsCall w room (.procedure ref) [f, x] frame s Q := by
  obtain ⟨q, held, makes⟩ := has
  cases q with
  | closure c =>
    refine .closureTo fits held makes (by decide) rfl (.lazyCons fits ?_)
    intro head rest named spelled
    obtain rfl := Datum.spells_atom named
    exact holds rest spelled
  | _ => exact makes.elim

end Halves

end LazyLisp
