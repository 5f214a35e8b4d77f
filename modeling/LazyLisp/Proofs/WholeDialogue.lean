import LazyLisp.Proofs.Dialogue
import LazyLisp.Proofs.ListLoading
import LazyLisp.Proofs.Printing
import Mathlib.Algebra.BigOperators.Group.List.Basic

/-!
The whole dialogue, from the start of a session to the farewell.

A session starts with the primitives and its input under their global names. The definition of
`repl`, the last one of the prelude, completes what the dialogue needs. From there `(repl)` goes
through the whole input.
-/

namespace LazyLisp

namespace Store

def setGlobal (s : Store) (name : String) (v : Value) : Store :=
  { s with frames := s.frames.modify globalFrame (·.define name v) }

def addPrimitive (s : Store) (p : Primitive) : Store := s.addGlobal p.name (.primitive p)

@[simp]
theorem size_setGlobal (s : Store) (name : String) (v : Value) :
    (s.setGlobal name v).frames.size = s.frames.size := Array.size_modify

@[simp]
theorem size_addPrimitive (s : Store) (p : Primitive) :
    (s.addPrimitive p).frames.size = s.frames.size := Array.size_modify

@[simp]
theorem size_addPrimitives (ps : List Primitive) (s : Store) :
    (ps.foldl addPrimitive s).frames.size = s.frames.size := by
  induction ps generalizing s with
  | nil => rfl
  | cons p ps ih => simp [ih]

section Globals

variable {s : Store} (present : globalFrame < s.frames.size)

include present

theorem global?_setGlobal (name other : String) (v : Value) :
    (s.setGlobal name v).global? other = if other = name then some v else s.global? other := by
  have found := Array.getElem?_eq_getElem present
  rw [Store.global?, Store.global?, setGlobal, Array.getElem?_modify, if_pos rfl, found]
  exact Frame.get?_define _ name other _

theorem global?_addPrimitives {ps : List Primitive} {name : String}
    (absent : name ∉ ps.map (·.name)) : (ps.foldl addPrimitive s).global? name = s.global? name := by
  induction ps generalizing s with
  | nil => rfl
  | cons p ps ih =>
    rw [List.map_cons, List.mem_cons, not_or] at absent
    rw [List.foldl_cons, ih (by simpa using present) absent.2, addPrimitive,
      global?_addGlobal present, if_neg absent.1]

end Globals

theorem retains_addPrimitives (ps : List Primitive) (s : Store) :
    s.Retains (ps.foldl addPrimitive s) := by
  induction ps generalizing s with
  | nil => exact fun _ _ => id
  | cons p ps ih => exact fun ref q found => ih _ ref q (retains_addGlobal s p.name _ ref q found)

theorem inputs_addPrimitives (ps : List Primitive) (s : Store) :
    (ps.foldl addPrimitive s).inputs = s.inputs := by
  induction ps generalizing s with
  | nil => rfl
  | cons p ps ih => exact ih _

theorem names_addPrimitives {s : Store} (present : globalFrame < s.frames.size)
    {ps : List Primitive} (distinct : (ps.map (·.name)).Nodup) :
    ∀ p ∈ ps, (ps.foldl addPrimitive s).Names p := by
  induction ps generalizing s with
  | nil => exact fun _ member => absurd member List.not_mem_nil
  | cons q ps ih =>
    rw [List.map_cons, List.nodup_cons] at distinct
    have present' : globalFrame < (s.addPrimitive q).frames.size := by simpa using present
    intro p member
    rcases List.mem_cons.mp member with rfl | member
    · refine ⟨s.procedures.size, ?_, retains_addPrimitives ps _ _ _ Array.getElem?_push_size⟩
      rw [List.foldl_cons, global?_addPrimitives present' distinct.1, addPrimitive,
        global?_addGlobal present, if_pos rfl]
    · exact ih present' distinct.2 p member

theorem Names.setGlobal {s : Store} {p : Primitive} (named : s.Names p)
    (present : globalFrame < s.frames.size) {name : String} (other : p.name ≠ name) (v : Value) :
    (s.setGlobal name v).Names p :=
  named.kept (by rw [global?_setGlobal present, if_neg other]) fun _ _ => id

def addConstants (s : Store) (input : String) : Store :=
  let t : Store :=
    { s with inputs := s.inputs.push (.ofLines "<stdin>" (Text.splitNewlines input.toList)) }
  (((t.setGlobal "true" (.ofBool true)).setGlobal "false" (.ofBool false)).setGlobal "nil"
    .nil).setGlobal standardInput (.input s.inputs.size)

theorem inputs_addConstants (s : Store) (input : String) : (s.addConstants input).inputs =
    s.inputs.push (.ofLines "<stdin>" (Text.splitNewlines input.toList)) := rfl

section Constants

variable {s : Store} (present : globalFrame < s.frames.size) (input : String)

include present

theorem standardInput_addConstants :
    (s.addConstants input).global? standardInput = some (.input s.inputs.size) := by
  refine (global?_setGlobal ?_ _ _ _).trans (if_pos rfl)
  simpa using present

theorem names_addConstants {p : Primitive} (named : s.Names p)
    (fresh : p.name ∉ ["true", "false", "nil", standardInput]) : (s.addConstants input).Names p := by
  simp only [List.mem_cons, List.not_mem_nil, not_or, or_false] at fresh
  obtain ⟨notTrue, notFalse, notNil, notInput⟩ := fresh
  obtain ⟨ref, bound, held⟩ := named
  have named : Names { s with
      inputs := s.inputs.push (.ofLines "<stdin>" (Text.splitNewlines input.toList)) } p :=
    ⟨ref, bound, held⟩
  have named := named.setGlobal present notTrue (.ofBool true)
  have named := named.setGlobal (by simpa using present) notFalse (.ofBool false)
  have named := named.setGlobal (by simpa using present) notNil .nil
  exact named.setGlobal (by simpa using present) notInput (.input s.inputs.size)

end Constants

end Store

def startStore (input : String) : Store :=
  (Primitive.all.foldl Store.addPrimitive .empty).addConstants input

theorem bindPrimitives_eq (input : String) :
    Session.bindPrimitives input .empty = .ok () (startStore input) := by
  have primitives (ps : List Primitive) (s : Store) :
      forIn (m := Run) ps PUnit.unit (fun p _ => do
        Run.define Store.globalFrame p.name (← Run.newProcedure (.primitive p))
        pure (.yield PUnit.unit)) s = .ok PUnit.unit (ps.foldl Store.addPrimitive s) := by
    induction ps generalizing s with
    | nil => rfl
    | cons p ps ih =>
      rw [List.forIn_cons]
      exact Eq.trans rfl (ih (s.addPrimitive p))
  refine (Run.bind_of_ok (primitives Primitive.all .empty)).trans ?_
  unfold startStore
  generalize Primitive.all.foldl Store.addPrimitive .empty = s
  rfl

theorem start_eq (w : World) (fuel : Nat) (settings : Settings) (input : String) :
    Session.start w fuel settings .none input .empty = .ok () (startStore input) :=
  Run.bind_of_ok (bindPrimitives_eq input)

section Start

variable (input : String)

theorem reachable_startStore : Reachable (startStore input) := by
  have reachable := Reachable.start bareWorld 0 .unset .none input
  rwa [start_eq] at reachable

theorem inputs_startStore : (startStore input).inputs =
    #[.ofLines "<stdin>" (Text.splitNewlines input.toList)] := by
  rw [startStore, Store.inputs_addConstants, Store.inputs_addPrimitives]
  rfl

theorem standardInput_startStore :
    (startStore input).global? standardInput = some (.input 0) := by
  rw [startStore, Store.standardInput_addConstants (by simp [Store.empty, Store.globalFrame]),
    Store.inputs_addPrimitives]
  rfl

theorem names_startStore {p : Primitive} (member : p ∈ Primitive.all) :
    (startStore input).Names p := by
  have distinct : (Primitive.all.map (·.name)).Nodup := by decide
  have fresh : ∀ p ∈ Primitive.all, p.name ∉ ["true", "false", "nil", standardInput] := by decide
  have named := Store.names_addPrimitives (s := .empty) (by decide) distinct p member
  exact Store.names_addConstants (by simp [Store.empty, Store.globalFrame]) input named
    (fresh p member)

end Start

namespace Dialogue

open Datum

def doc : String := "Read, evaluate and print forms from standard input until end of input."

def definition : Datum :=
  list [symbol "define", list [symbol "repl"], .atom (.string doc), ask, exchange]

set_option maxRecDepth 10000 in
theorem reads_definition : readAll none Prelude.repl.toList = .ok [definition] :=
  (readAll_ofList _).trans (by with_unfolding_all rfl)

/-- The definition evaluated at top level: the body of the closure is one form made of two. -/
theorem evaluate_replDefinition {k : Nat} {room : Option Nat} (fits : Fits (k + 1) room) (w : World)
    (s : Store) {expr : Value} (spelled : definition.Spells expr) :
    ∃ c : Closure, c.Matches ⟨[], none⟩ turn Store.globalFrame ∧ ∀ fuel caller,
      evaluate w (fuel + 1) room expr Store.globalFrame caller s = .ok (.symbol "repl")
        (Store.addGlobal { s with nextMark := s.nextMark + 3 } "repl" (.closure c)) := by
  obtain ⟨_, ⟨target, _, rfl, header, text, _, rfl, documented, first, _, rfl, prompted,
    second, _, rfl, answered, rfl⟩, stepped⟩ := step_special (x := "define") rfl spelled
  obtain rfl := Datum.spells_atom documented
  cases header with
  | @pair _ _ mark head params named parameters =>
    obtain rfl := Datum.spells_atom named
    obtain ⟨body, spine, made⟩ := list_spine [.symbol "begin", first, second] s
    have parts : Datum.SpellsAll [symbol "begin", ask, exchange] [.symbol "begin", first, second] :=
      ⟨_, _, rfl, .atom, _, _, rfl, prompted, _, _, rfl, answered, rfl⟩
    refine ⟨⟨⟨[], none⟩, body, Store.globalFrame, some "repl", some doc⟩,
      ⟨rfl, Datum.spells_of_spine spine parts .atom, rfl⟩, fun fuel caller => ?_⟩
    refine evaluate_of_value fits.descend ?_
    refine (stepped _ Store.globalFrame true s).trans (Run.map_of_ok ?_)
    have closed (m : Engine) : SpecialForm.makeClosure m Store.globalFrame (some "repl") params
        [.atom (.string doc), first, second] s =
          .ok ⟨⟨[], none⟩, body, Store.globalFrame, some "repl", some doc⟩
            { s with nextMark := s.nextMark + 3 } := by
      have bare := @signature_of_spells m ⟨[], none⟩ params parameters s
      exact (Run.bind_of_ok bare).trans (Run.bind_of_ok made)
    exact Run.bind_of_ok (closed _)

/-- Where the primitives and the input have their names, the definition completes the dialogue. -/
theorem ready_of_definition {k : Nat} {room : Option Nat} (fits : Fits (k + 1) room) (w : World)
    {s : Store} {input : Nat} (named : ∀ p ∈ primitives, s.Names p)
    (bound : s.global? standardInput = some (.input input)) {expr : Value}
    (spelled : definition.Spells expr) :
    ∃ t, Ready t input ∧ t.inputs = s.inputs ∧ (∀ p, s.Names p → t.Names p) ∧ ∀ fuel caller,
      evaluate w (fuel + 1) room expr Store.globalFrame caller s = .ok (.symbol "repl") t := by
  obtain ⟨c, isMatch, evaluated⟩ := evaluate_replDefinition fits w s spelled
  have present := Store.globalFrame_lt_of_global? bound
  let marked : Store := { s with nextMark := s.nextMark + 3 }
  have global (other : String) : (marked.addGlobal "repl" (.closure c)).global? other =
      if other = "repl" then some (.procedure s.procedures.size) else s.global? other :=
    Store.global?_addGlobal (s := marked) present _ _ _
  have kept (p : Primitive) (named : s.Names p) :
      (marked.addGlobal "repl" (.closure c)).Names p := by
    have other : p.name ≠ "repl" := by cases p <;> decide
    exact named.kept (by rw [global, if_neg other]) (marked.retains_addGlobal _ _)
  refine ⟨_, ⟨?_, fun p member => kept p (named p member), ?_⟩, rfl, kept, evaluated⟩
  · exact ⟨s.procedures.size, c, by rw [global, if_pos rfl], Array.getElem?_push_size, isMatch⟩
  · rwa [global, if_neg (by decide)]

/-- The dialogue goes through the whole input, whatever fails: `(repl)` comes to an end with
`goodbye` where a read finds the end of the input, after one turn for every read before it. -/
theorem repl_returns {k : Nat} {w : World} (plain : w.WritesPlain) {room : Option Nat}
    (fits : Fits (k + 8) room) {s : Store} (reachable : Reachable s) {input : Nat} (ready : Ready s input)
    (evaluable : ∀ t, Turns w room input s t → Evaluable w room input t)
    (legible : ∀ t, Turns w room input s t → Legible w room input t)
    (mark : Nat) :
    ∃ t z, Turns w room input s t ∧ Farewell w room input t z ∧
      Evaluates w room (.pair mark (.symbol "repl") .nil) Store.globalFrame s (.symbol "goodbye")
        z := by
  have spelled : again.Spells (.pair mark (.symbol "repl") .nil) := .pair .atom .atom
  have yields := yields_dialogue plain fits (.global reachable.lawful ready) rfl evaluable legible
  obtain ⟨_, z, evaluated, rfl, t, turns, ended⟩ := yields _ spelled
  exact ⟨t, z, turns, ended, evaluated⟩

def replStore (input : String) : Store :=
  after (evaluate bareWorld 1 none (Value.ofDatum 0 definition).1 Store.globalFrame none
    (startStore input))

section Sessions

variable (input : String)

theorem reachable_replStore : Reachable (replStore input) :=
  .evaluate bareWorld 1 none none (reachable_startStore input) (Hidden.admits_ofDatum _ _)
    (reachable_startStore input).lawful.admitsGlobal.1

theorem ready_replStore : Ready (replStore input) 0 ∧
    (replStore input).inputs = #[.ofLines "<stdin>" (Text.splitNewlines input.toList)] ∧
    ∀ p ∈ Primitive.all, (replStore input).Names p := by
  have all : ∀ p ∈ primitives, p ∈ Primitive.all := by decide
  obtain ⟨t, ready, inputs, kept, evaluated⟩ := ready_of_definition (fits_none 1) bareWorld
    (fun p member => names_startStore input (all p member)) (standardInput_startStore input)
    (Datum.spells_ofDatum definition 0)
  have same : replStore input = t := congrArg after (evaluated 0 none)
  rw [same, inputs, inputs_startStore]
  exact ⟨ready, rfl, fun p member => kept p (names_startStore input member)⟩

end Sessions

theorem readable_int (s : Store) (room : Option Nat) (n : Int) :
    s.readable room (.atom (.int n)) =
      if hasText n then .ok ((Atom.int n).write true) else .error .tooManyDigits := by
  change Store.closeList none <$> Store.writeAtom true (.int n) = _
  rw [Store.writeAtom, Atom.hasText]
  split <;> rfl

/-- A turn begins with a form that comes to a result and leaves the global names alone; what is left
of the input is the other one. -/
structure Reads (w : World) (room : Option Nat) (input : Nat) (s : Store) (left : Input)
    (form r : Value) (t u : Store) : Prop where
  read : Run.readInput (lower 3 room) input (asking s) = .ok form t
  caught : Caught w (lower 2 room) form Store.globalFrame (holding t s.frames.size form) r u
  global : ∀ name, u.global? name = t.global? name
  inputs : u.inputs = t.inputs
  left : t.inputs[input]? = some left

section Reads

variable {w : World} {room : Option Nat} {input : Nat} {h : Hidden} {s : Store} {frame : FrameId}
  {bindings : List (String × Value)} {p left : Input}

variable (w room) in
theorem exists_reads (stands : Stands h s frame bindings input) (held : s.inputs[input]? = some p)
    {d : Datum} (reads : p.read (lower 3 room) = (.ok d, left)) {Q : Value → Value → Store → Prop}
    (caught : ∀ t form, (∀ name, t.global? name = s.global? name) → s.Retains t → d.Spells form →
      ∃ r u, Caught w (lower 2 room) form Store.globalFrame t r u ∧
        (∀ name, u.global? name = t.global? name) ∧ u.inputs = t.inputs ∧ Q form r u) :
    ∃ form r t u, Reads w room input s left form r t u ∧ Q form r u := by
  have read := @readInput_eq (lower 3 room) input (asking s) p held
  rw [reads] at read
  have after := stands.called.read read
  have data := Datum.spells_ofDatum d s.nextMark
  have called := Allocates.pushFrame s stands.ready.globalFrame_lt []
  have bound := Allocates.pushFrame _ after.inside [("form", (Value.ofDatum s.nextMark d).1)]
  have same := global?_of_allocates after.ready.globalFrame_lt bound
  obtain ⟨r, u, caught, global, inputs, holds⟩ := caught _ _
    (fun name => (same name).trans (global?_of_allocates stands.ready.globalFrame_lt called name))
    (fun _ _ => id) data
  exact ⟨_, r, _, u, ⟨read, caught, fun name => (global name).trans (same name), inputs,
    inputs_set held⟩, holds⟩

variable {form r : Value} {t u z : Store} (reads : Reads w room input s left form r t u)

include reads

theorem Reads.evaluable : Evaluable w room input s := by
  intro form' t' read
  cases reads.read.symm.trans read
  exact ⟨r, u, reads.caught, fun name _ => reads.global name, by rw [reads.inputs]⟩

theorem Reads.legible (shown : Reply w room form (showing u t.frames.size r) r z) :
    Legible w room input s where
  reads i t' failed := by cases reads.read.symm.trans failed
  shows form' t' r' u' read caught := by
    cases reads.read.symm.trans read
    obtain ⟨rfl, rfl⟩ := reads.caught.unique caught
    exact ⟨z, shown⟩

theorem Reads.of_turn (turn : Turn w room input s z) :
    Reply w room form (showing u t.frames.size r) r z ∧ z.inputs[input]? = some left := by
  cases turn with
  | unread failed => cases reads.read.symm.trans failed
  | evaluated read caught shown =>
    cases reads.read.symm.trans read
    obtain ⟨rfl, rfl⟩ := reads.caught.unique caught
    have inputs := congrArg (·[input]?) shown.inputs
    exact ⟨shown, inputs.trans ((congrArg (·[input]?) reads.inputs).trans reads.left)⟩

end Reads

theorem exists_readsInt (w : World) (room : Option Nat) {input : Nat} {h : Hidden} {s : Store}
    {frame : FrameId} {bindings : List (String × Value)} (stands : Stands h s frame bindings input)
    {p left : Input} (held : s.inputs[input]? = some p) {d : Datum}
    (reads : p.read (lower 3 room) = (.ok d, left)) {n : Int}
    (yields : ∀ t, (∀ name, t.global? name = s.global? name) → s.Retains t →
      Yields w (lower 2 room) d Store.globalFrame t fun v u =>
        v = .atom (.int n) ∧ Allocates t u) :
    ∃ form t u, Reads w room input s left form (.atom (.int n)) t u := by
  obtain ⟨form, r, t, u, reads, rfl⟩ := exists_reads w room stands held reads
    (Q := fun _ r _ => r = .atom (.int n)) fun t form same retains spelled => by
      obtain ⟨_, u, evaluated, rfl, allocates⟩ := yields t same retains form spelled
      have present := Store.globalFrame_lt_of_global? ((same _).trans stands.ready.input)
      exact ⟨_, u, .value (evaluated.mono fun fuel ended => ended none),
        global?_of_allocates present allocates, allocates.inputs, rfl⟩
  exact ⟨form, t, u, reads⟩

/-- An integer is shown if it has a text, and if the standard output takes that. -/
theorem exists_reply_int {w : World} (form : Value) {n : Int} (written : hasText n = true)
    (taken : ∀ text, w.takes text = true) (room : Option Nat) (s : Store) :
    ∃ z, Reply w room form s (.atom (.int n)) z :=
  ⟨_, .result (fun ref f isError => nomatch isError) (by rw [readable_int, if_pos written])
    (taken _)⟩

theorem hasText_of_reply {w : World} {room : Option Nat} {form : Value} {n : Int} {s z : Store}
    (shown : Reply w room form s (.atom (.int n)) z) : hasText n = true := by
  cases shown with
  | result plain written taken =>
    by_contra tooLong
    rw [readable_int, if_neg tooLong] at written
    cases written

/-- Where a read fails, there is nothing to be evaluated, and the turn leaves what the read has left
of the input. -/
theorem unread_of_read {w : World} {room : Option Nat} {input : Nat} {s : Store} {p left : Input}
    (held : s.inputs[input]? = some p) {e : ReadError}
    (reads : p.read (lower 3 room) = (.error (.error e), left))
    (taken : w.takes e.issue.message = true) :
    Evaluable w room input s ∧ Legible w room input s ∧ ∀ z, Turn w room input s z →
      e.issue ≠ .endOfInput ∧ z.inputs[input]? = some left := by
  have read := @readInput_eq (lower 3 room) input (asking s) p held
  rw [reads] at read
  refine ⟨fun form t found => ?_, ⟨fun i t failed => ?_, fun form t r u found => ?_⟩, ?_⟩
  · cases read.symm.trans found
  · cases read.symm.trans failed
    exact ⟨e, rfl, taken⟩
  · cases read.symm.trans found
  · intro z turn
    cases turn with
    | evaluated found => cases read.symm.trans found
    | @unread t found expr f failed goesOn =>
      obtain ⟨same, rfl⟩ := EStateM.Result.error.inj (read.symm.trans failed)
      have kind := congrArg Fault.kind (Interrupt.fault.inj same)
      refine ⟨fun isEnd => goesOn ?_, inputs_set held⟩
      exact (kind_ofReadError found).mp (kind.symm.trans ((kind_ofReadError e).mpr isEnd))

/-- A turn leaves a store in which the dialogue can go on. -/
theorem Turn.stands {w : World} {room : Option Nat} {input : Nat} {h : Hidden} {s z : Store}
    {frame : FrameId} {bindings : List (String × Value)} (turn : Turn w room input s z)
    (stands : Stands h s frame bindings input) (evaluable : Evaluable w room input s) :
    ∃ h', Stands h' z Store.globalFrame [] input := by
  cases turn with
  | unread failed goesOn spelled same =>
    obtain ⟨after, known⟩ := stands.called.unread failed
    have known := known.leave (Hidden.admits_of_spells spelled) none w.traceLimit
    rw [← same] at known
    have held := (after.keep known).held
    exact ⟨_, .global ((held _).emit _).lawful ((held _).emit _).ready⟩
  | @evaluated t u _ form r read caught shown =>
    obtain ⟨r', u', other, same, -⟩ := evaluable form t read
    obtain ⟨rfl, rfl⟩ := other.unique caught
    have after := stands.called.read read
    have kept (name : String) (member : name ∈ names) := (same name member).trans
      (global?_of_allocates after.ready.globalFrame_lt
        (.pushFrame t after.inside [("form", form)]) name).symm
    obtain ⟨-, d, mark, rfl⟩ := shrinks_of_ok read
    have replied := ((after.held _).caught
      (Hidden.admits_of_spells (Datum.spells_ofDatum d mark)) caught kept).reply shown
    exact ⟨_, .global replied.lawful replied.ready⟩

/-- What is left of the input where a turn of the dialogue begins. -/
structure Waits (input : Nat) (p : Input) (s : Store) : Prop where
  stands : ∃ h, Stands h s Store.globalFrame [] input
  held : s.inputs[input]? = some p

section Waits

variable {w : World} {room : Option Nat} {input : Nat} {p left : Input} {s : Store}
  (waits : Waits input p s)

include waits

variable (w room) in
theorem Waits.unread {e : ReadError} (reads : p.read (lower 3 room) = (.error (.error e), left))
    (taken : w.takes e.issue.message = true) :
    Evaluable w room input s ∧ Legible w room input s ∧ ∀ z, Turn w room input s z →
      e.issue ≠ .endOfInput ∧ Waits input left z := by
  obtain ⟨evaluable, legible, next⟩ := unread_of_read waits.held reads taken
  obtain ⟨h, stands⟩ := waits.stands
  refine ⟨evaluable, legible, fun z turn => ?_⟩
  obtain ⟨goesOn, held⟩ := next z turn
  exact ⟨goesOn, turn.stands stands evaluable, held⟩

theorem Waits.reads {form r : Value} {t u z : Store} (reads : Reads w room input s left form r t u)
    (shown : Reply w room form (showing u t.frames.size r) r z) :
    Evaluable w room input s ∧ Legible w room input s ∧ ∀ z, Turn w room input s z →
      Waits input left z := by
  obtain ⟨h, stands⟩ := waits.stands
  refine ⟨reads.evaluable, reads.legible shown, fun z turn => ?_⟩
  exact ⟨turn.stands stands reads.evaluable, (reads.of_turn turn).2⟩

end Waits

/-- What holds of every turn that begins where `P` holds, holds of every turn of the dialogue. -/
theorem conditions_of_turns {w : World} {room : Option Nat} {input : Nat} {P : Store → Prop}
    (each : ∀ s, P s → Evaluable w room input s ∧ Legible w room input s ∧
      ∀ z, Turn w room input s z → P z) {s : Store} (start : P s) :
    (∀ t, Turns w room input s t → Evaluable w room input t) ∧
      ∀ t, Turns w room input s t → Legible w room input t := by
  have reached (t : Store) (turns : Turns w room input s t) : P t := by
    induction turns with
    | refl => exact start
    | tail _ turn ih => exact (each _ ih).2.2 _ turn
  exact ⟨fun t turns => (each t (reached t turns)).1, fun t turns => (each t (reached t turns)).2.1⟩

theorem exists_report {s : Store} {form : Value} {text : String}
    (written : s.readable none form = .ok text) (kind message : String) (limit : Int) :
    ∃ report, s.report none ((Fault.ofMessage kind message).leave form none limit) = .ok report := by
  have plain : s.plain none (.string message) = .ok message := rfl
  unfold Fault.leave
  dsimp only
  split <;>
    simp [Store.report, Store.chain, Store.reportLines, Store.faultText, Store.traceLine,
      Fault.ofMessage, plain, written, pure, Except.pure, bind, Except.bind]

/-- What is wrong with the form `(if)`. -/
def malformed : Fault := Fault.ofMessage Fault.Kind.malformedForm
  "if requires a condition, a then-expression and an optional else"

theorem exists_ends_malformed {w : World} {form : Value} {s : Store}
    (spelled : (list [symbol "if"]).Spells form) :
    ∃ mark, form = .pair mark (.symbol "if") .nil ∧ EndsIn w none form Store.globalFrame s
      (.error (.fault (malformed.leave form none w.traceLimit)) s) := by
  obtain ⟨_, rfl, stepped⟩ := step_special (x := "if") rfl spelled
  obtain ⟨mark, _, _, _, same, named, spine, rfl⟩ := Datum.spells_form spelled
  cases spine
  cases Datum.spells_atom named
  refine ⟨mark, same, .succ (.always fun fuel => ?_)⟩
  have failed := stepped (.evaluating w fuel none) Store.globalFrame true s
  exact evaluate_of_error (fits_none 1).descend failed

theorem exists_reads_malformed {w : World} (taken : ∀ text, w.takes text = true) {input : Nat}
    {h : Hidden} {s : Store} {frame : FrameId} {bindings : List (String × Value)}
    (stands : Stands h s frame bindings input) {p left : Input} (held : s.inputs[input]? = some p)
    (reads : p.read none = (.ok (list [symbol "if"]), left)) :
    ∃ form r t u z, Reads w none input s left form r t u ∧
      Reply w none form (showing u t.frames.size r) r z := by
  obtain ⟨form, r, t, u, reads, mark, rfl, ref, rfl, kept⟩ := exists_reads w none stands held reads
    (Q := fun form r u => ∃ mark, form = .pair mark (.symbol "if") .nil ∧
      ∃ ref, r = .error ref ∧ u.errors[ref]? = some (malformed.leave form none w.traceLimit))
    fun t form _ _ spelled => by
      obtain ⟨mark, same, ended⟩ := exists_ends_malformed (w := w) spelled
      exact ⟨_, _, .fault ended, fun _ => rfl, rfl, mark, same, _, rfl, Array.getElem?_push_size⟩
  have written (s : Store) := s.readable_of_denotes (v := .pair mark (.symbol "if") .nil)
    (.pair (.atom _) (.atom _)) ⟨rfl, rfl⟩
  obtain ⟨report, reported⟩ := exists_report
    (s := (showing u t.frames.size (.error ref)).emit _) (written _) malformed.kind _ w.traceLimit
  have isForm : ((malformed.leave (.pair mark (.symbol "if") .nil) none w.traceLimit).source.getD
      .nil).isNil = false := by
    rw [Fault.source_leave]
    rfl
  exact ⟨_, _, t, u, _, reads,
    .diagnostic kept isForm (written _) (taken _) rfl reported (taken _)⟩

/-- A read that fails, a form that fails, a form with a value, and the end of the input. -/
def failingInput : String := ")\n(if)\n7\n"

set_option maxRecDepth 10000 in
theorem reads_failingInput : ∃ forms number ending left : Input,
    (Input.ofLines "<stdin>" (Text.splitNewlines failingInput.toList)).read none =
      (.error (.error ⟨.unexpectedClose, 0⟩), forms) ∧
    forms.read none = (.ok (list [symbol "if"]), number) ∧
    number.read none = (.ok (.atom (.int 7)), ending) ∧
    ending.read none = (.error (.error ⟨.endOfInput, 1⟩), left) := by
  have lines : Text.splitNewlines failingInput.toList =
      [[')', '\n'], ['(', 'i', 'f', ')', '\n'], ['7', '\n']] := by decide +kernel
  rw [lines]
  exact ⟨⟨"<stdin>", [], [['(', 'i', 'f', ')', '\n'], ['7', '\n']], false⟩,
    ⟨"<stdin>", ['\n'], [['7', '\n']], false⟩, ⟨"<stdin>", ['\n'], [], false⟩, _,
    by with_unfolding_all rfl, by with_unfolding_all rfl,
    by with_unfolding_all rfl, by with_unfolding_all rfl⟩

theorem repl_returns_failingInput :
    bareWorld.WritesPlain ∧ Fits 8 none ∧ Reachable (replStore failingInput) ∧
    Ready (replStore failingInput) 0 ∧
    (∀ t, Turns bareWorld none 0 (replStore failingInput) t → Evaluable bareWorld none 0 t) ∧
    (∀ t, Turns bareWorld none 0 (replStore failingInput) t → Legible bareWorld none 0 t) ∧
    ∃ t z, Turns bareWorld none 0 (replStore failingInput) t ∧
      Farewell bareWorld none 0 t z ∧
      Evaluates bareWorld none (.pair 0 (.symbol "repl") .nil) Store.globalFrame
        (replStore failingInput) (.symbol "goodbye") z := by
  have plain : bareWorld.WritesPlain := fun _ _ => rfl
  have taken (text : String) : bareWorld.takes text = true := List.all_eq_true.mpr fun _ _ => rfl
  have written : hasText 7 = true := by decide +kernel
  have reachable := reachable_replStore failingInput
  obtain ⟨ready, inputs, -⟩ := ready_replStore failingInput
  obtain ⟨forms, number, ending, left, first, second, third, last⟩ := reads_failingInput
  let whole := Input.ofLines "<stdin>" (Text.splitNewlines failingInput.toList)
  let begins (s : Store) := ∃ p, (p = whole ∨ p = forms ∨ p = number ∨ p = ending) ∧ Waits 0 p s
  have each (s : Store) (waiting : begins s) : Evaluable bareWorld none 0 s ∧
      Legible bareWorld none 0 s ∧ ∀ z, Turn bareWorld none 0 s z → begins z := by
    obtain ⟨p, rfl | rfl | rfl | rfl, waits⟩ := waiting
    · obtain ⟨evaluable, legible, next⟩ := waits.unread bareWorld none first (taken _)
      exact ⟨evaluable, legible, fun z turn => ⟨forms, by simp, (next z turn).2⟩⟩
    · obtain ⟨h, stands⟩ := waits.stands
      obtain ⟨_, _, _, _, _, reads, shown⟩ :=
        exists_reads_malformed taken stands waits.held second
      obtain ⟨evaluable, legible, next⟩ := waits.reads reads shown
      exact ⟨evaluable, legible, fun z turn => ⟨number, by simp, next z turn⟩⟩
    · obtain ⟨h, stands⟩ := waits.stands
      obtain ⟨form, t, u, reads⟩ := exists_readsInt bareWorld none stands waits.held third
        fun t _ _ => .int (fits_none 1) ⟨rfl, .refl t⟩
      obtain ⟨_, shown⟩ := exists_reply_int form written taken none
        (showing u t.frames.size (.atom (.int 7)))
      obtain ⟨evaluable, legible, next⟩ := waits.reads reads shown
      exact ⟨evaluable, legible, fun z turn => ⟨ending, by simp, next z turn⟩⟩
    · obtain ⟨evaluable, legible, next⟩ := waits.unread bareWorld none last (taken _)
      exact ⟨evaluable, legible, fun z turn => absurd rfl (next z turn).1⟩
  obtain ⟨evaluable, legible⟩ := conditions_of_turns each
    ⟨whole, .inl rfl, ⟨_, .global reachable.lawful ready⟩, by rw [inputs]; rfl⟩
  exact ⟨plain, fits_none 8, reachable, ready, evaluable, legible,
    repl_returns plain (fits_none 8) reachable ready evaluable legible 0⟩

theorem YieldsAll.replicate {k : Nat} {w : World} {room : Option Nat} {s : Store} {frame : FrameId}
    {bindings : List (String × Value)} (scope : Scope s frame bindings) (fits : Fits (k + 1) room)
    {name : String} {v : Value} (bound : bindings.lookup name = some v) (count : Nat) :
    YieldsAll w room (List.replicate count (symbol name)) frame s fun vs t =>
      vs = List.replicate count v ∧ t = s := by
  induction count with
  | zero => exact ⟨rfl, rfl⟩
  | succ count ih =>
    refine .variable scope fits bound (ih.mono ?_)
    rintro _ _ ⟨rfl, rfl⟩
    exact ⟨rfl, rfl⟩

theorem run_mul (m : Engine) (call : Primitive.Caller) (frame : FrameId) (s : Store)
    (ns : List Int) : Primitive.mul.run m call frame (ns.map fun n => .atom (.int n)) s =
      .ok (.value (.atom (.int ns.prod))) s := by
  have numbers : Primitive.numbers m "*" (ns.map fun n => .atom (.int n)) s =
      .ok (ns.map .int) s := by
    induction ns with
    | nil => rfl
    | cons n ns ih =>
      have first : Primitive.number m "*" (.atom (.int n)) s = .ok (.int n) s := rfl
      rw [Primitive.numbers, List.map_cons, List.mapM_cons]
      exact (Run.bind_of_ok first).trans (Run.bind_of_ok ih)
  have multiplied (a : Int) : (ns.map Number.int).foldlM
      (fun a b => Primitive.result (a.mul b)) (.int a) s = .ok (.int (a * ns.prod)) s := by
    clear numbers
    induction ns generalizing a with
    | nil =>
      rw [List.prod_nil, mul_one]
      rfl
    | cons n ns ih =>
      rw [List.map_cons, List.foldlM_cons, List.prod_cons, ← mul_assoc]
      exact Eq.trans rfl (ih (a * n))
  have product := (Run.bind_of_ok numbers).trans (multiplied 1)
  rw [one_mul] at product
  exact Run.map_of_ok (Run.bind_of_ok product)

def power : Datum := list (symbol "*" :: List.replicate 15 (symbol "x"))

def tooLong : Datum :=
  list [symbol "let", list [list [symbol "x", .atom (.int 99999999999999999999)]],
    list [symbol "let", list [list [symbol "x", power]], power]]

theorem yields_power {k : Nat} {w : World} {room : Option Nat} {s : Store} {frame : FrameId}
    {bindings : List (String × Value)} (scope : Scope s frame bindings) (fits : Fits (k + 2) room)
    (named : s.Names .mul) (free : bindings.lookup "*" = none) {n : Int}
    (bound : bindings.lookup "x" = some (.atom (.int n))) :
    Yields w room power frame s fun v t => v = .atom (.int (n ^ 15)) ∧ t = s := by
  refine .named scope named fits free ((YieldsAll.replicate scope fits.lower bound 15).mono ?_)
  rintro _ t ⟨rfl, rfl⟩
  refine ⟨rfl, .atom (.int (n ^ 15)), t, fun m again _ _ => ?_, rfl, rfl⟩
  have product := run_mul m again frame t (List.replicate 15 n)
  rwa [List.map_replicate, List.prod_replicate] at product

theorem yields_tooLong {k : Nat} {w : World} {room : Option Nat} {s : Store}
    (present : Store.globalFrame < s.frames.size) (fits : Fits (k + 3) room)
    (named : s.Names .mul) : Yields w room tooLong Store.globalFrame s fun v t =>
      v = .atom (.int ((99999999999999999999 ^ 15) ^ 15)) ∧ Allocates s t := by
  have still {t : Store} (allocates : Allocates s t) : t.Names .mul :=
    named.kept (global?_of_allocates present allocates _) allocates.procedures
  refine .binding fits (.int fits.lower ⟨present, fun i t outer => ?_⟩)
  have first := still outer.allocates
  refine .binding fits ((yields_power outer.scopeGlobal fits.lower first rfl rfl).mono ?_)
  rintro _ _ ⟨rfl, rfl⟩
  refine ⟨outer.inside, fun j u inner => ?_⟩
  have allocates := outer.allocates.trans inner.allocates
  have scope := inner.scope (.inside (inner.allocates.frames _ _ outer.found) outer.outside .global)
  refine (yields_power scope fits (still allocates) rfl rfl).mono ?_
  rintro _ _ ⟨rfl, rfl⟩
  exact ⟨rfl, allocates⟩

def tooLongText : String :=
  "(let ((x 99999999999999999999)) (let ((x (* x x x x x x x x x x x x x x x))) " ++
    "(* x x x x x x x x x x x x x x x)))\n"

set_option maxRecDepth 10000 in
theorem read_tooLongText : ((Input.ofLines "<stdin>" (Text.splitNewlines
    tooLongText.toList)).read (lower 3 none)).1 = .ok tooLong := by
  unfold tooLongText
  rw [String.toList_append, String.toList_ofList, String.toList_ofList]
  with_unfolding_all rfl

def breaksOff : EStateM.Result Interrupt Store Value → Bool
  | .error (.breakdown .tooManyDigits) _ => true
  | _ => false

theorem not_evaluates_of_breaksOff {w : World} {fuel : Nat} {room : Option Nat} {expr : Value}
    {frame : FrameId} {s : Store} (off : breaksOff (evaluate w fuel room expr frame none s) = true)
    (v : Value) (z : Store) : ¬ Evaluates w room expr frame s v z := by
  rintro ⟨least, evaluated⟩
  have finished : Finished (evaluate w fuel room expr frame none s) := by
    intro t outOfFuel
    rw [outOfFuel] at off
    cases off
  have more := (moreFuel_engines w (Nat.le_add_left fuel least) room).eval expr frame none
  have same : evaluate w (least + fuel) room expr frame none s =
    evaluate w fuel room expr frame none s := eq_of_moreFuel more finished
  rw [← same, evaluated _ (Nat.le_add_right least fuel) none] at off
  cases off

/-- The forms may all have values, and yet the dialogue breaks off where one cannot be shown. -/
theorem repl_tooLong :
    ¬ ∀ (w : World) (room : Option Nat) (s : Store) (input : Nat),
      Fits 8 room → Reachable s → Ready s input →
      (∀ t, Turns w room input s t → Evaluable w room input t) →
      ∃ z, Evaluates w room (.pair 0 (.symbol "repl") .nil) Store.globalFrame s
        (.symbol "goodbye") z := by
  intro returns
  obtain ⟨ready, inputs, named⟩ := ready_replStore tooLongText
  have reachable := reachable_replStore tooLongText
  have stands := Stands.global reachable.lawful ready
  have held : (replStore tooLongText).inputs[0]? = some (.ofLines "<stdin>"
      (Text.splitNewlines tooLongText.toList)) := by
    rw [inputs]
    rfl
  have noText : ¬ hasText ((99999999999999999999 ^ 15) ^ 15) = true := by decide +kernel
  obtain ⟨form, t, u, readsInt⟩ := exists_readsInt bareWorld none stands held
    (Prod.ext read_tooLongText rfl) fun t same retains =>
      yields_tooLong (Store.globalFrame_lt_of_global? ((same _).trans ready.input)) (fits_none 3)
        ((named .mul (by decide)).kept (same _) retains)
  have evaluable (t) (turns : Turns bareWorld none 0 (replStore tooLongText) t) :
      Evaluable bareWorld none 0 t := by
    rcases turns.cases_head with rfl | ⟨z, turn, -⟩
    · exact readsInt.evaluable
    · exact absurd (hasText_of_reply (readsInt.of_turn turn).1) noText
  have off : breaksOff (evaluate bareWorld 20 none (.pair 0 (.symbol "repl") .nil)
    Store.globalFrame none (replStore tooLongText)) = true := by decide +kernel
  obtain ⟨z, evaluated⟩ := returns bareWorld none (replStore tooLongText) 0 (fits_none 8) reachable
    ready evaluable
  exact not_evaluates_of_breaksOff off _ z evaluated

end Dialogue

end LazyLisp
