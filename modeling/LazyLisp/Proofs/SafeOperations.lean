import LazyLisp.Proofs.Evolution

/-!
The operations on the store are safe.
-/

namespace LazyLisp

namespace Hidden

variable {h : Hidden} {c s t : Store} {α β : Type}

theorem admits_atom (a : Atom) : h.Admits (.atom a) s := trivial

theorem AdmitsAll.cons {v : Value} {vs : List Value} (known : h.Admits v s)
    (rest : h.AdmitsAll vs s) : h.AdmitsAll (v :: vs) s := by
  intro w member
  rcases List.mem_cons.mp member with rfl | member
  · exact known
  · exact rest w member

theorem AdmitsAll.nil : h.AdmitsAll [] s := fun _ member => absurd member List.not_mem_nil

theorem admits_consReversed {tail : Value} {items : List Value} (tailKnown : h.Admits tail s)
    (known : h.AdmitsAll items s) (mark : Nat) :
    h.Admits (Value.consReversed mark tail items).1 s := by
  induction items generalizing mark tail with
  | nil => exact tailKnown
  | cons item items ih =>
    apply ih
    · exact ⟨known item List.mem_cons_self, tailKnown⟩
    · intro v member
      exact known v (List.mem_cons_of_mem item member)

theorem admits_ofDatum (d : Datum) (mark : Nat) : h.Admits (Value.ofDatum mark d).1 s := by
  suffices both : (∀ mark, h.Admits (Value.ofDatum mark d).1 s) ∧
      ∀ mark items, h.AdmitsAll items s → h.Admits (Value.ofSpine mark items d).1 s from both.1 mark
  induction d with
  | atom a =>
    constructor
    · intro mark
      trivial
    · intro mark items known
      exact admits_consReversed (admits_atom a) known mark
  | pair car cdr carKnown cdrKnown =>
    constructor
    · intro mark
      apply cdrKnown.2
      intro v member
      obtain rfl := List.mem_singleton.mp member
      exact carKnown.1 mark
    · intro mark items known
      apply cdrKnown.2
      intro v member
      rcases List.mem_cons.mp member with rfl | member
      · exact carKnown.1 mark
      · exact known v member

namespace Safe

variable {Q : α → Store → Prop} {S : β → Store → Prop}

/-- A change of the store that leaves frames, procedures, lazy pairs and errors alone. -/
theorem quiet {k : Store → α × Store} (frames : ∀ s, (k s).2.frames = s.frames)
    (procedures : ∀ s, (k s).2.procedures = s.procedures)
    (pairs : ∀ s, (k s).2.lazyPairs = s.lazyPairs) (errors : ∀ s, (k s).2.errors = s.errors) :
    h.Safe c Any (modifyGet k) (modifyGet k) := by
  refine .change fun s later => ⟨?_, trivial⟩
  exact later.lawful.quiet (frames s) (procedures s) (pairs s) (errors s)

theorem quietValue {k : Store → Value × Store} (frames : ∀ s, (k s).2.frames = s.frames)
    (procedures : ∀ s, (k s).2.procedures = s.procedures)
    (pairs : ∀ s, (k s).2.lazyPairs = s.lazyPairs) (errors : ∀ s, (k s).2.errors = s.errors)
    (known : ∀ s, h.Later c s → h.Admits (k s).1 s) :
    h.Safe c h.Admits (modifyGet k) (modifyGet k) := by
  refine .change fun s later => ?_
  have further : h.Later s (k s).2 :=
    later.lawful.quiet (frames s) (procedures s) (pairs s) (errors s)
  exact ⟨further, further.wider.admits (known s later)⟩

theorem freshMark : h.Safe c Any Run.freshMark Run.freshMark :=
  .quiet (fun _ => rfl) (fun _ => rfl) (fun _ => rfl) fun _ => rfl

theorem cons {car cdr : Value} (carKnown : h.Admits car c) (cdrKnown : h.Admits cdr c) :
    h.Safe c h.Admits (Run.cons car cdr) (Run.cons car cdr) := by
  refine freshMark.bind fun mark s later _ => .value ?_
  exact ⟨later.wider.admits carKnown, later.wider.admits cdrKnown⟩

theorem listReversed {items : List Value} {tail : Value} (known : h.AdmitsAll items c)
    (tailKnown : h.Admits tail c) :
    h.Safe c h.Admits (Run.listReversed items tail) (Run.listReversed items tail) := by
  refine .quietValue (fun _ => rfl) (fun _ => rfl) (fun _ => rfl) (fun _ => rfl) ?_
  intro s later
  exact admits_consReversed (later.wider.admits tailKnown) (later.wider.all known) s.nextMark

theorem list {items : List Value} (known : h.AdmitsAll items c) :
    h.Safe c h.Admits (Run.list items) (Run.list items) := by
  refine .listReversed ?_ (admits_atom .nil)
  intro v member
  exact known v (List.mem_reverse.mp member)

theorem ofDatum (d : Datum) : h.Safe c h.Admits (Run.ofDatum d) (Run.ofDatum d) := by
  refine .quietValue (fun _ => rfl) (fun _ => rfl) (fun _ => rfl) (fun _ => rfl) ?_
  intro s later
  exact admits_ofDatum d s.nextMark

theorem ofNumber (n : Number) : h.Safe c h.Admits (Run.ofNumber n) (Run.ofNumber n) := by
  unfold Run.ofNumber
  split
  · exact .value (admits_atom _)
  · split
    · exact freshMark.bind fun mark s later _ => .value (v := .nan mark) trivial
    · exact .value (admits_atom _)

theorem newFrame {outer : FrameId} (shown : h.AdmitsFrame outer c) :
    h.Safe c h.AdmitsFrame (Run.newFrame outer) (Run.newFrame outer) := by
  refine .change fun s later => ⟨later.lawful.pushFrame (later.wider.frame shown), ?_⟩
  constructor
  · simp
  · intro hidden
    exact Nat.lt_irrefl _ (later.lawful.hiddenFrames _ hidden)

theorem define {frame : FrameId} {v : Value} (shown : h.AdmitsFrame frame c) (name : String)
    (known : h.Admits v c) : h.Safe c Any (Run.define frame name v) (Run.define frame name v) := by
  refine .change fun s later => ⟨?_, trivial⟩
  exact later.lawful.define (later.wider.frame shown) name (later.wider.admits known)

/-- What is found is known if the search starts at a frame that is not hidden. -/
theorem find? (frame : FrameId) (name : String) : h.Safe c
    (fun found t => h.AdmitsFrame frame t → ∀ owner v, found = some (owner, v) →
      h.AdmitsFrame owner t ∧ h.Admits v t)
    (Run.find? frame name) (Run.find? frame name) := by
  intro s later
  refine ⟨rfl, later.lawful.refl, ?_⟩
  intro shown owner v found
  exact later.lawful.find? shown found

theorem lookup {frame : FrameId} (shown : h.AdmitsFrame frame c) (name : String) :
    h.Safe c h.Admits (Run.lookup frame name) (Run.lookup frame name) := by
  refine (find? frame name).bind fun found s later known => ?_
  split
  · next owner v => exact .value (known (later.wider.frame shown) owner v rfl).2
  · exact .fail

theorem topLevel {frame : FrameId} (inside : frame < c.frames.size) :
    h.Safe c (fun top _ => top = 0) (Run.topLevel frame) (Run.topLevel frame) := by
  intro s later
  refine ⟨rfl, later.lawful.refl, ?_⟩
  exact later.lawful.topLevel (Nat.lt_of_lt_of_le inside later.wider.frames)

theorem newProcedure {p : Procedure} (known : h.AdmitsProcedure p c) :
    h.Safe c (fun v t => h.Admits v t ∧ ∃ ref, v = .procedure ref ∧ c.procedures.size ≤ ref)
      (Run.newProcedure p) (Run.newProcedure p) := by
  refine .change fun s later => ⟨later.lawful.pushProcedure (later.wider.procedure known), ?_, ?_⟩
  · constructor
    · simp
    · intro hidden
      obtain ⟨_, held⟩ := later.lawful.hiddenProcedures _ hidden
      exact Nat.lt_irrefl _ (old_of_getElem? held)
  · exact ⟨s.procedures.size, rfl, later.wider.procedures⟩

theorem held {found : Option α} (known : ∀ a, found = some a → ∀ t, h.Later c t → Q a t) :
    h.Safe c Q (Run.held found) (Run.held found) := by
  cases found with
  | some a => exact .pure (known a rfl)
  | none => exact .throw trivial

theorem procedure (ref : Nat) :
    h.Safe c (fun p t => h.AdmitsProcedure p t ∨ h.procedures ref ∧ ∃ c, p = .closure c)
      (Run.procedure ref) (Run.procedure ref) := by
  refine .look fun s later => .held ?_
  intro p found t further
  by_cases isHidden : h.procedures ref
  · obtain ⟨c, held⟩ := later.lawful.hiddenProcedures ref isHidden
    cases held.symm.trans found
    exact .inr ⟨isHidden, c, rfl⟩
  · exact .inl (further.wider.procedure (later.lawful.procedures ref p found isHidden))

theorem knownProcedure {ref : Nat} (known : h.Admits (.procedure ref) c) :
    h.Safe c h.AdmitsProcedure (Run.procedure ref) (Run.procedure ref) := by
  refine (procedure ref).mono ?_
  rintro p t later (admitted | ⟨hidden, -⟩)
  · exact admitted
  · exact absurd hidden known.2

theorem newLazyPair {p : LazyPair} (known : ∀ side, h.AdmitsSlot (p.slot side) c) :
    h.Safe c h.Admits (Run.newLazyPair p) (Run.newLazyPair p) := by
  refine .change fun s later => ⟨later.lawful.pushLazyPair fun side => ?_, trivial⟩
  exact later.wider.slot (known side)

theorem newError {f : Fault} (known : h.AdmitsFault f c) :
    h.Safe c Any (Run.newError f) (Run.newError f) :=
  .change fun _ later => ⟨later.lawful.pushError (later.wider.fault known), trivial⟩

theorem errorFault (ref : Nat) :
    h.Safe c h.AdmitsFault (Run.errorFault ref) (Run.errorFault ref) := by
  refine .look fun s later => .held ?_
  intro f found t further
  exact further.wider.fault (later.lawful.errors ref f found)

theorem newInput (p : Input) : h.Safe c h.Admits (Run.newInput p) (Run.newInput p) :=
  .quietValue (fun _ => rfl) (fun _ => rfl) (fun _ => rfl) (fun _ => rfl) fun _ _ => trivial

theorem emit (text : String) : h.Safe c Any (Run.emit text) (Run.emit text) :=
  .quiet (fun _ => rfl) (fun _ => rfl) (fun _ => rfl) fun _ => rfl

theorem emitError (text : String) : h.Safe c Any (Run.emitError text) (Run.emitError text) :=
  .quiet (fun _ => rfl) (fun _ => rfl) (fun _ => rfl) fun _ => rfl

theorem gensym (start : String) : h.Safe c h.Admits (Run.gensym start) (Run.gensym start) :=
  .quietValue (fun _ => rfl) (fun _ => rfl) (fun _ => rfl) (fun _ => rfl) fun _ _ => trivial

end Safe

end Hidden

end LazyLisp
