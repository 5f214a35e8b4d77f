import LazyLisp.Proofs.ListLibrary

/-!
Loading the list library. A definition of the prelude, evaluated at top level, makes the procedure
and gives it its global name; after all of them, and with the primitives in place, the library is
loaded.
-/

namespace LazyLisp

def Store.addGlobal (s : Store) (name : String) (p : Procedure) : Store where
  frames := s.frames.modify globalFrame (·.define name (.procedure s.procedures.size))
  procedures := s.procedures.push p
  lazyPairs := s.lazyPairs
  errors := s.errors
  inputs := s.inputs
  nextMark := s.nextMark
  nextSymbol := s.nextSymbol
  out := s.out
  err := s.err

section Definitions

variable {k : Nat} {w : World} {room : Option Nat} {s : Store} {name doc : String} {expr : Value}

theorem evaluate_closureDefinition (fits : Fits (k + 1) room) {sig : Signature} {body : Datum}
    (spelled : ((Shape.closure sig doc body).datum name).Spells expr) :
    ∃ c : Closure, c.Matches sig body Store.globalFrame ∧ ∀ fuel caller,
      evaluate w (fuel + 1) room expr Store.globalFrame caller s =
        .ok (.symbol name) (s.addGlobal name (.closure c)) := by
  obtain ⟨_, ⟨target, _, rfl, header, text, _, rfl, documented, form, _, rfl, coded, rfl⟩,
    stepped⟩ := step_special (x := "define") rfl spelled
  obtain rfl := Datum.spells_atom documented
  cases header with
  | @pair _ _ mark head params named parameters =>
    obtain rfl := Datum.spells_atom named
    have split : splitDoc [.string doc, form] = (some doc, [form]) := rfl
    obtain ⟨c, isMatch, made⟩ :=
      makeClosure_matches Store.globalFrame (some name) parameters split coded
    refine ⟨c, isMatch, fun fuel caller => evaluate_of_value fits.descend ?_⟩
    refine (stepped _ Store.globalFrame true s).trans (Run.map_of_ok ?_)
    exact Run.bind_of_ok (made _ s)

theorem makeClause_matches {sig : Signature} {body : Datum} {clause : Value}
    (spelled : (Datum.list [sig.datum, body]).Spells clause) :
    ∃ c : Closure, c.Matches sig body Store.globalFrame ∧
      ∀ m s, SpecialForm.makeClause m Store.globalFrame clause s = .ok c s := by
  obtain ⟨_, spine, params, _, rfl, parameters, form, _, rfl, coded, rfl⟩ :=
    Datum.spells_list spelled
  obtain ⟨c, isMatch, made⟩ := makeClosure_matches Store.globalFrame none parameters
    (splitDoc_singleton form) coded
  refine ⟨c, isMatch, fun m s => ?_⟩
  have isPair : clause.isPair = true := by
    cases spine
    rfl
  unfold SpecialForm.makeClause
  simp only [isPair, Bool.not_true, Bool.false_eq_true, if_false]
  exact (Run.bind_of_ok (items_of_spine _ _ _ spine s)).trans (made m s)

theorem makeClauses_match {clauses : List (Signature × Datum)} {forms : List Value}
    (spelled : Datum.SpellsAll (clauses.map fun (sig, body) => .list [sig.datum, body]) forms) :
    ∃ closures, Shape.ClausesMatch clauses closures ∧
      ∀ m s, forms.mapM (SpecialForm.makeClause m Store.globalFrame) s = .ok closures s := by
  induction clauses generalizing forms with
  | nil =>
    obtain rfl := spelled
    exact ⟨[], rfl, fun _ _ => rfl⟩
  | cons clause clauses ih =>
    obtain ⟨form, forms, rfl, first, others⟩ := spelled
    obtain ⟨c, isMatch, made⟩ := makeClause_matches first
    obtain ⟨closures, matched, madeAll⟩ := ih others
    refine ⟨c :: closures, ⟨c, closures, rfl, isMatch, matched⟩, fun m s => ?_⟩
    rw [List.mapM_cons]
    exact (Run.bind_of_ok (made m s)).trans (Run.bind_of_ok (madeAll m s))

theorem Shape.ClausesMatch.named {clauses : List (Signature × Datum)} {closures : List Closure}
    (matched : ClausesMatch clauses closures) (name : Option String) :
    ClausesMatch clauses (closures.map fun c => { c with name }) := by
  induction clauses generalizing closures with
  | nil =>
    obtain rfl := matched
    rfl
  | cons clause clauses ih =>
    obtain ⟨c, rest, rfl, isMatch, others⟩ := matched
    exact ⟨_, _, rfl, ⟨isMatch.signature, isMatch.body, isMatch.frame⟩, ih others⟩

theorem evaluate_caseLambda (fits : Fits (k + 1) room) {clauses : List (Signature × Datum)}
    (nonempty : clauses ≠ []) (spelled : (Datum.list (.symbol "case-lambda" :: .atom (.string doc) ::
      clauses.map fun (sig, body) => .list [sig.datum, body])).Spells expr) :
    ∃ closures, Shape.ClausesMatch clauses closures ∧ ∀ fuel caller,
      evaluate w (fuel + 1) room expr Store.globalFrame caller s =
        .ok (.procedure s.procedures.size)
          (s.pushProcedure (.cases closures none (some doc))) := by
  obtain ⟨_, ⟨text, forms, rfl, documented, all⟩, stepped⟩ := step_special rfl spelled
  obtain rfl := Datum.spells_atom documented
  obtain ⟨closures, matched, made⟩ := makeClauses_match all
  refine ⟨closures, matched, fun fuel caller => evaluate_of_value fits.descend ?_⟩
  refine (stepped _ Store.globalFrame true s).trans (Run.map_of_ok ?_)
  refine (Run.bind_of_ok (made _ s)).trans ?_
  cases clauses with
  | nil => exact absurd rfl nonempty
  | cons clause clauses =>
    obtain ⟨c, rest, rfl, -⟩ := matched
    rfl

theorem evaluate_casesDefinition (fits : Fits (k + 2) room) {clauses : List (Signature × Datum)}
    (nonempty : clauses ≠ []) (spelled : ((Shape.cases doc clauses).datum name).Spells expr) :
    ∃ closures, Shape.ClausesMatch clauses closures ∧ ∀ fuel caller,
      evaluate w (fuel + 2) room expr Store.globalFrame caller s =
        .ok (.symbol name) (s.addGlobal name (.cases closures (some name) (some doc))) := by
  obtain ⟨_, ⟨target, _, rfl, named, form, _, rfl, coded, rfl⟩, stepped⟩ :=
    step_special (x := "define") rfl spelled
  obtain rfl := Datum.spells_atom named
  obtain ⟨closures, matched, evaluated⟩ := evaluate_caseLambda (w := w) (s := s) fits.lower nonempty
    coded
  refine ⟨_, matched.named (some name), fun fuel caller => evaluate_of_value fits.descend ?_⟩
  refine (stepped _ Store.globalFrame true s).trans (Run.map_of_ok ?_)
  refine (Run.bind_of_ok (evaluated fuel none)).trans ?_
  have makes (m : Engine) (t : Store) : SpecialForm.makesProcedure m form t = .ok true t := by
    obtain ⟨mark, head, rest, args, rfl, headed, -⟩ := Datum.spells_form coded
    obtain rfl := Datum.spells_atom headed
    rfl
  refine (Run.bind_of_ok (makes _ _)).trans ?_
  have renamed : (s.procedures.push (.cases closures none (some doc))).modify s.procedures.size
      (·.named name) = s.procedures.push (.cases (closures.map fun c => { c with name := some name })
        (some name) (some doc)) := modify_push _ _ _
  exact congrArg (fun procedures => EStateM.Result.ok (Value.symbol name)
    { s.addGlobal name (.cases closures none none) with procedures }) renamed

end Definitions

structure Store.Gains (s : Store) (p : LibraryProcedure) (t : Store) : Prop where
  procedure : ∃ ref, t.global? p.name = some (.procedure ref) ∧ t.Has p ref
  others : ∀ name, name ≠ p.name → t.global? name = s.global? name
  retains : s.Retains t
  size : t.frames.size = s.frames.size

theorem Store.global?_addGlobal {s : Store} (present : globalFrame < s.frames.size)
    (name other : String) (p : Procedure) :
    (s.addGlobal name p).global? other =
      if other = name then some (.procedure s.procedures.size) else s.global? other := by
  have found := Array.getElem?_eq_getElem present
  rw [Store.global?, Store.global?, Store.addGlobal, Array.getElem?_modify, if_pos rfl, found]
  exact Frame.get?_define _ name other _

theorem Store.retains_addGlobal (s : Store) (name : String) (p : Procedure) :
    s.Retains (s.addGlobal name p) := by
  intro ref q found
  have old := Hidden.old_of_getElem? found
  rwa [Store.addGlobal, Array.getElem?_push_lt old, ← Array.getElem?_eq_getElem old]

theorem gains_addGlobal {s : Store} (present : Store.globalFrame < s.frames.size)
    {p : LibraryProcedure} {q : Procedure} (makes : p.shape.Makes q) :
    s.Gains p (s.addGlobal p.name q) where
  procedure := by
    refine ⟨s.procedures.size, ?_, q, ?_, makes⟩
    · rw [Store.global?_addGlobal present, if_pos rfl]
    · exact Array.getElem?_push_size
  others name other := by rw [Store.global?_addGlobal present, if_neg other]
  retains := s.retains_addGlobal p.name q
  size := Array.size_modify

def Shape.isProper : Shape → Bool
  | closure _ _ _ => true
  | cases _ clauses => !clauses.isEmpty

theorem Library.isProper : ∀ p ∈ Library.procedures, p.shape.isProper = true := by
  decide

theorem Library.nodup_names : Library.names.Nodup := by
  decide

theorem evaluate_definition {k : Nat} {w : World} {room : Option Nat} (fits : Fits (k + 2) room)
    {s : Store} (present : Store.globalFrame < s.frames.size) {p : LibraryProcedure}
    (proper : p.shape.isProper = true) {expr : Value}
    (spelled : (p.shape.datum p.name).Spells expr) :
    ∃ t, s.Gains p t ∧ ∀ fuel caller,
      evaluate w (fuel + 2) room expr Store.globalFrame caller s = .ok (.symbol p.name) t := by
  cases shape : p.shape with
  | closure sig doc body =>
    rw [shape] at spelled
    obtain ⟨c, isMatch, evaluated⟩ := evaluate_closureDefinition (w := w) (s := s) fits spelled
    have makes : p.shape.Makes (.closure c) := by
      rw [shape]
      exact isMatch
    exact ⟨_, gains_addGlobal present makes, fun fuel => evaluated (fuel + 1)⟩
  | cases doc clauses =>
    rw [shape] at spelled proper
    have nonempty : clauses ≠ [] := by simpa [Shape.isProper] using proper
    obtain ⟨closures, matched, evaluated⟩ :=
      evaluate_casesDefinition (w := w) (s := s) fits nonempty spelled
    have makes : p.shape.Makes (.cases closures (some p.name) (some doc)) := by
      rw [shape]
      exact matched
    exact ⟨_, gains_addGlobal present makes, evaluated⟩

/-- The definitions are evaluated at top level, one after the other. -/
inductive Loads (w : World) (room : Option Nat) : List LibraryProcedure → Store → Store → Prop where
  | nil {s} : Loads w room [] s s
  | cons {p ps expr fuel v s t u} : (p.shape.datum p.name).Spells expr →
      evaluate w fuel room expr Store.globalFrame none s = .ok v t → Loads w room ps t u →
      Loads w room (p :: ps) s u

section Loads

variable {k : Nat} {w : World} {room : Option Nat} (fits : Fits (k + 2) room)

include fits

theorem gains_of_evaluate {s t : Store} (present : Store.globalFrame < s.frames.size)
    {p : LibraryProcedure} (proper : p.shape.isProper = true) {expr v : Value}
    (spelled : (p.shape.datum p.name).Spells expr) {fuel : Nat}
    (evaluated : evaluate w fuel room expr Store.globalFrame none s = .ok v t) : s.Gains p t := by
  obtain ⟨u, gains, defined⟩ := evaluate_definition (w := w) fits present proper spelled
  have more := (moreFuel_engines w (Nat.le_add_right fuel 2) room).eval expr Store.globalFrame none
  have finished : Finished (evaluate w fuel room expr Store.globalFrame none s) := by
    rw [evaluated]
    exact finished_ok v t
  cases evaluated.symm.trans ((eq_of_moreFuel more finished).symm.trans (defined fuel none))
  exact gains

theorem Loads.gains {ps : List LibraryProcedure} {s t : Store} (loads : Loads w room ps s t)
    (present : Store.globalFrame < s.frames.size) (proper : ∀ p ∈ ps, p.shape.isProper = true)
    (distinct : (ps.map (·.name)).Nodup) :
    (∀ p ∈ ps, ∃ ref, t.global? p.name = some (.procedure ref) ∧ t.Has p ref) ∧
    (∀ name, name ∉ ps.map (·.name) → t.global? name = s.global? name) ∧ s.Retains t := by
  induction loads with
  | nil => exact ⟨fun _ member => absurd member List.not_mem_nil, fun _ _ => rfl, fun _ _ => id⟩
  | @cons p ps expr fuel v s t u spelled evaluated _ ih =>
    have gains := gains_of_evaluate fits present (proper p List.mem_cons_self) spelled evaluated
    rw [List.map_cons, List.nodup_cons] at distinct
    obtain ⟨defined, others, retains⟩ := ih (gains.size ▸ present)
      (fun q member => proper q (.tail p member)) distinct.2
    refine ⟨?_, ?_, fun ref q found => retains ref q (gains.retains ref q found)⟩
    · intro q member
      rcases List.mem_cons.mp member with rfl | member
      · obtain ⟨ref, bound, has⟩ := gains.procedure
        exact ⟨ref, (others q.name distinct.1).trans bound, has.kept retains⟩
      · exact defined q member
    · intro name absent
      rw [List.map_cons, List.mem_cons, not_or] at absent
      rw [others name absent.2, gains.others name absent.1]

/-- Once its definitions have been evaluated, the library is loaded. -/
theorem Loads.loaded {s t : Store} (loads : Loads w room Library.procedures s t)
    (primitives : ∀ p ∈ Library.primitives, ∃ ref, s.global? p.name = some (.procedure ref) ∧
      s.procedures[ref]? = some (.primitive p)) : t.Loaded := by
  obtain ⟨_, bound, -⟩ := primitives .car (by decide)
  obtain ⟨f, found, -⟩ := Option.bind_eq_some_iff.mp bound
  obtain ⟨distinct, -, disjoint⟩ := List.nodup_append.mp Library.nodup_names
  obtain ⟨defined, others, retains⟩ := loads.gains fits (Hidden.old_of_getElem? found)
    Library.isProper distinct
  refine ⟨defined, fun p member => ?_⟩
  obtain ⟨ref, bound, held⟩ := primitives p member
  have absent : p.name ∉ Library.procedures.map (·.name) := fun taken =>
    disjoint p.name taken p.name (List.mem_map_of_mem member) rfl
  exact ⟨ref, (others p.name absent).trans bound, retains ref _ held⟩

end Loads

def defineGlobally (s : Store) (p : LibraryProcedure) : Store :=
  after (evaluate bareWorld 2 none (Value.ofDatum s.nextMark (p.shape.datum p.name)).1
    Store.globalFrame none s)

theorem loads_foldl {ps : List LibraryProcedure} (proper : ∀ p ∈ ps, p.shape.isProper = true)
    {s : Store} (present : Store.globalFrame < s.frames.size) :
    Loads bareWorld none ps s (ps.foldl defineGlobally s) := by
  induction ps generalizing s with
  | nil => exact .nil
  | cons p ps ih =>
    have spelled := Datum.spells_ofDatum (p.shape.datum p.name) s.nextMark
    obtain ⟨t, gains, evaluated⟩ := evaluate_definition (w := bareWorld) (fits_none 2) present
      (proper p List.mem_cons_self) spelled
    have same : defineGlobally s p = t := congrArg after (evaluated 0 none)
    rw [List.foldl_cons, same]
    exact .cons spelled (evaluated 0 none)
      (ih (fun q member => proper q (.tail p member)) (gains.size ▸ present))

theorem reachable_foldl {ps : List LibraryProcedure} {s : Store} (reachable : Reachable s) :
    Reachable (ps.foldl defineGlobally s) := by
  induction ps generalizing s with
  | nil => exact reachable
  | cons p ps ih =>
    exact ih (.evaluate bareWorld 2 none none reachable (Hidden.admits_ofDatum _ _)
      reachable.lawful.admitsGlobal.1)

/-- The store of a session that has evaluated the definitions of the library. -/
def libraryStore : Store := Library.procedures.foldl defineGlobally bareStore

theorem reachable_libraryStore : Reachable libraryStore :=
  reachable_foldl (.start bareWorld 0 .unset .none "")

def Store.bindsPrimitive (s : Store) (p : Primitive) : Bool :=
  match s.global? p.name with
  | some (.procedure ref) => match s.procedures[ref]? with
    | some (.primitive q) => q == p
    | _ => false
  | _ => false

theorem Store.of_bindsPrimitive {s : Store} {p : Primitive} (binds : s.bindsPrimitive p = true) :
    ∃ ref, s.global? p.name = some (.procedure ref) ∧ s.procedures[ref]? = some (.primitive p) := by
  unfold bindsPrimitive at binds
  split at binds
  · next ref bound =>
    split at binds
    · next q held =>
      obtain rfl := eq_of_beq binds
      exact ⟨ref, bound, held⟩
    · cases binds
  · cases binds

theorem loaded_libraryStore : libraryStore.Loaded := by
  have bound : ∀ p ∈ Library.primitives, bareStore.bindsPrimitive p = true := by decide +kernel
  have present : Store.globalFrame < bareStore.frames.size := by decide +kernel
  have loads := loads_foldl Library.isProper present
  exact loads.loaded (fits_none 2) fun p member => Store.of_bindsPrimitive (bound p member)

end LazyLisp
