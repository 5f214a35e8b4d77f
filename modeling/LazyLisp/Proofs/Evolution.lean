import LazyLisp.Proofs.LazyHalves

/-!
How the store evolves, and what of it is out of reach.

Whatever a program does, a frame keeps the frame around it and the names that it binds, a procedure
stays as it is, and a half that has a value keeps it. Frames and procedures may be hidden: as long
as nothing that a program gets at leads to them, it leaves the hidden frames as they are.

A computation is compared with a second one, which may do more, and does the same wherever the store
is lawful.
-/

namespace LazyLisp

/-- A frame keeps the frame around it and the names that it binds. -/
structure Frame.Evolves (f g : Frame) : Prop where
  outer : g.outer = f.outer
  binds : ∀ name, f.binds name = true → g.binds name = true

theorem Frame.Evolves.refl (f : Frame) : f.Evolves f := ⟨rfl, fun _ => id⟩

theorem Frame.Evolves.trans {f g k : Frame} (first : f.Evolves g) (second : g.Evolves k) :
    f.Evolves k := by
  constructor
  · rw [second.outer, first.outer]
  · intro name bound
    exact second.binds name (first.binds name bound)

theorem Frame.evolves_define (f : Frame) (name : String) (v : Value) :
    f.Evolves (f.define name v) := by
  constructor
  · rfl
  · intro other bound
    unfold Frame.binds at bound ⊢
    rw [Frame.get?_define]
    split
    · rfl
    · exact bound

/-- Frames and procedures that a program cannot get at. -/
structure Hidden where
  frames : FrameId → Prop
  procedures : Nat → Prop

namespace Hidden

section Admission

variable (h : Hidden)

/-- The procedures that a value refers to are in the store, and none is hidden. -/
def Admits : Value → Store → Prop
  | .pair _ car cdr, s => Admits car s ∧ Admits cdr s
  | .procedure ref, s => ref < s.procedures.size ∧ ¬ h.procedures ref
  | _, _ => True

def AdmitsAll (vs : List Value) (s : Store) : Prop := ∀ v ∈ vs, h.Admits v s

def AdmitsFrame (i : FrameId) (s : Store) : Prop := i < s.frames.size ∧ ¬ h.frames i

structure AdmitsClosure (c : Closure) (s : Store) : Prop where
  body : h.Admits c.body s
  frame : h.AdmitsFrame c.frame s

def AdmitsProcedure : Procedure → Store → Prop
  | .closure c, s | .expander c, s => h.AdmitsClosure c s
  | .cases clauses _ _, s => ∀ c ∈ clauses, h.AdmitsClosure c s
  | .primitive _, _ => True

def AdmitsSlot : Slot → Store → Prop
  | .pending expr frame, s => h.Admits expr s ∧ h.AdmitsFrame frame s
  | .ready v, s => h.Admits v s

structure AdmitsFault (f : Fault) (s : Store) : Prop where
  value : ∀ v, f.value = some v → h.Admits v s
  source : ∀ v, f.source = some v → h.Admits v s
  trace : ∀ entry ∈ f.trace, h.Admits entry.form s

def AdmitsInterrupt : Interrupt → Store → Prop
  | .fault f, s => h.AdmitsFault f s
  | _, _ => True

def AdmitsStep : Step → Store → Prop
  | .value v, s => h.Admits v s
  | .tail expr frame _, s => h.Admits expr s ∧ h.AdmitsFrame frame s

end Admission

/-- Every frame but the global one stands in an older frame, and nothing but what is hidden leads to
what is hidden. -/
structure Lawful (h : Hidden) (s : Store) : Prop where
  global : ∃ f, s.frames[0]? = some f ∧ f.outer = none
  globalShown : ¬ h.frames 0
  outer : ∀ (i : Nat) f, s.frames[i]? = some f → i ≠ 0 →
    ∃ o < i, f.outer = some o ∧ (h.frames o → h.frames i)
  bindings : ∀ (i : Nat) f name v, s.frames[i]? = some f → ¬ h.frames i → f.get? name = some v →
    h.Admits v s
  procedures : ∀ (ref : Nat) p, s.procedures[ref]? = some p → ¬ h.procedures ref →
    h.AdmitsProcedure p s
  hiddenFrames : ∀ i, h.frames i → i < s.frames.size
  hiddenProcedures : ∀ ref, h.procedures ref → ∃ c, s.procedures[ref]? = some (.closure c)
  slots : ∀ (k : Half) slot, k.slot? s.lazyPairs = some slot → h.AdmitsSlot slot s
  errors : ∀ (ref : Nat) f, s.errors[ref]? = some f → h.AdmitsFault f s

/-- How one store grows out of another. -/
structure Grows (h : Hidden) (s t : Store) : Prop where
  frames : ∀ (i : Nat) f, s.frames[i]? = some f →
    ∃ g, t.frames[i]? = some g ∧ f.Evolves g ∧ (h.frames i → g = f)
  procedures : ∀ (ref : Nat) p, s.procedures[ref]? = some p → t.procedures[ref]? = some p
  slots : LazyLisp.Evolves s.lazyPairs t.lazyPairs

/-- A lawful store that has grown out of another. -/
structure Later (h : Hidden) (c s : Store) : Prop where
  lawful : h.Lawful s
  grows : h.Grows c s

variable {h : Hidden} {c s t u : Store}

theorem Grows.refl (h : Hidden) (s : Store) : h.Grows s s where
  frames _ f found := ⟨f, found, .refl f, fun _ => rfl⟩
  procedures _ _ := id
  slots := .refl _

theorem Grows.trans (first : h.Grows s t) (second : h.Grows t u) : h.Grows s u where
  frames i f found := by
    obtain ⟨g, found, evolves, same⟩ := first.frames i f found
    obtain ⟨k, found, evolvesOn, sameOn⟩ := second.frames i g found
    refine ⟨k, found, evolves.trans evolvesOn, ?_⟩
    intro hidden
    rw [sameOn hidden, same hidden]
  procedures ref p found := second.procedures ref p (first.procedures ref p found)
  slots := first.slots.trans second.slots

theorem size_le_of_getElem? {α : Type} {xs ys : Array α}
    (kept : ∀ (i : Nat) a, xs[i]? = some a → ∃ b, ys[i]? = some b) : xs.size ≤ ys.size := by
  rcases Nat.lt_or_ge ys.size xs.size with inside | enough
  rotate_left
  · exact enough
  obtain ⟨b, found⟩ := kept ys.size xs[ys.size] (Array.getElem?_eq_getElem inside)
  obtain ⟨bound, -⟩ := Array.getElem?_eq_some_iff.mp found
  omega

theorem Grows.frames_size (grows : h.Grows s t) : s.frames.size ≤ t.frames.size := by
  apply size_le_of_getElem?
  intro i f found
  obtain ⟨g, found, -⟩ := grows.frames i f found
  exact ⟨g, found⟩

theorem Grows.procedures_size (grows : h.Grows s t) : s.procedures.size ≤ t.procedures.size := by
  apply size_le_of_getElem?
  intro ref p found
  exact ⟨p, grows.procedures ref p found⟩

theorem Lawful.refl (lawful : h.Lawful s) : h.Later s s := ⟨lawful, .refl h s⟩

theorem Later.trans (first : h.Later s t) (second : h.Later t u) : h.Later s u :=
  ⟨second.lawful, first.grows.trans second.grows⟩

structure Wider (s t : Store) : Prop where
  frames : s.frames.size ≤ t.frames.size
  procedures : s.procedures.size ≤ t.procedures.size

namespace Wider

theorem refl (s : Store) : Wider s s := ⟨Nat.le_refl _, Nat.le_refl _⟩

theorem trans (first : Wider s t) (second : Wider t u) : Wider s u :=
  ⟨Nat.le_trans first.frames second.frames, Nat.le_trans first.procedures second.procedures⟩

variable (wider : Wider s t)

include wider

theorem admits {v : Value} (known : h.Admits v s) : h.Admits v t := by
  induction v with
  | pair mark car cdr carKnown cdrKnown => exact ⟨carKnown known.1, cdrKnown known.2⟩
  | procedure ref => exact ⟨Nat.lt_of_lt_of_le known.1 wider.procedures, known.2⟩
  | _ => trivial

theorem all {vs : List Value} (known : h.AdmitsAll vs s) : h.AdmitsAll vs t :=
  fun v member => wider.admits (known v member)

theorem frame {i : FrameId} (known : h.AdmitsFrame i s) : h.AdmitsFrame i t :=
  ⟨Nat.lt_of_lt_of_le known.1 wider.frames, known.2⟩

theorem closure {c : Closure} (known : h.AdmitsClosure c s) : h.AdmitsClosure c t :=
  ⟨wider.admits known.body, wider.frame known.frame⟩

theorem procedure {p : Procedure} (known : h.AdmitsProcedure p s) : h.AdmitsProcedure p t := by
  cases p with
  | closure c => exact wider.closure known
  | expander c => exact wider.closure known
  | cases clauses name doc => exact fun c member => wider.closure (known c member)
  | primitive p => trivial

theorem slot {slot : Slot} (known : h.AdmitsSlot slot s) : h.AdmitsSlot slot t := by
  cases slot with
  | pending expr frame => exact ⟨wider.admits known.1, wider.frame known.2⟩
  | ready v => exact wider.admits known

theorem fault {f : Fault} (known : h.AdmitsFault f s) : h.AdmitsFault f t where
  value v held := wider.admits (known.value v held)
  source v held := wider.admits (known.source v held)
  trace entry member := wider.admits (known.trace entry member)

theorem interrupt {e : Interrupt} (known : h.AdmitsInterrupt e s) : h.AdmitsInterrupt e t := by
  cases e with
  | fault f => exact wider.fault known
  | _ => trivial

end Wider

theorem Later.wider (later : h.Later s t) : Wider s t :=
  ⟨later.grows.frames_size, later.grows.procedures_size⟩

variable {α β : Type} {Q : α → Store → Prop} {S : β → Store → Prop} {x y : Run α}
  {f g : α → Run β}

/-- A computation has ended in a lawful store, with a result of which `Q` holds or with an interrupt
that leads to nothing hidden. -/
def Fine (h : Hidden) (s : Store) (Q : α → Store → Prop) :
    EStateM.Result Interrupt Store α → Prop
  | .ok a t => h.Later s t ∧ Q a t
  | .error e t => h.Later s t ∧ h.AdmitsInterrupt e t

/-- From whatever has become of `c`, the first computation ends well and the second one does the
same. -/
def Safe (h : Hidden) (c : Store) (Q : α → Store → Prop) (x y : Run α) : Prop :=
  ∀ s, h.Later c s → y s = x s ∧ h.Fine s Q (x s)

abbrev Any : α → Store → Prop := fun _ _ => True

namespace Safe

theorem mono {P : α → Store → Prop} (safe : h.Safe c Q x y)
    (implies : ∀ a t, h.Later c t → Q a t → P a t) : h.Safe c P x y := by
  intro s later
  obtain ⟨same, fine⟩ := safe s later
  refine ⟨same, ?_⟩
  cases ended : x s with
  | ok a t =>
    rw [ended] at fine
    exact ⟨fine.1, implies a t (later.trans fine.1) fine.2⟩
  | error e t =>
    rw [ended] at fine
    exact fine

/-- What has ended well from a store that has grown has ended well from the first one. -/
theorem since (safe : h.Safe t Q x y) (later : h.Later s t) : y t = x t ∧ h.Fine s Q (x t) := by
  obtain ⟨same, fine⟩ := safe t later.lawful.refl
  refine ⟨same, ?_⟩
  cases ended : x t with
  | ok a u =>
    rw [ended] at fine
    exact ⟨later.trans fine.1, fine.2⟩
  | error e u =>
    rw [ended] at fine
    exact ⟨later.trans fine.1, fine.2⟩

theorem pure {a : α} (holds : ∀ t, h.Later c t → Q a t) : h.Safe c Q (pure a) (pure a) := by
  intro s later
  exact ⟨rfl, later.lawful.refl, holds s later⟩

theorem throw {e : Interrupt} (known : h.AdmitsInterrupt e c) :
    h.Safe c Q (MonadExcept.throw e) (MonadExcept.throw e) := by
  intro s later
  exact ⟨rfl, later.lawful.refl, later.wider.interrupt known⟩

/-- Both computations go on, from a result or from an interrupt. -/
theorem either {handle handle' : Interrupt → Run β} (first : h.Safe c Q x y)
    (rest : ∀ a s, h.Later c s → Q a s → h.Safe s S (f a) (g a))
    (handled : ∀ e s, h.Later c s → h.AdmitsInterrupt e s → h.Safe s S (handle e) (handle' e)) :
    h.Safe c S (x.either f handle) (y.either g handle') := by
  intro s later
  obtain ⟨same, fine⟩ := first s later
  simp only [Run.either, same]
  cases ended : x s with
  | ok a t =>
    rw [ended] at fine
    exact (rest a t (later.trans fine.1) fine.2).since fine.1
  | error e t =>
    rw [ended] at fine
    exact (handled e t (later.trans fine.1) fine.2).since fine.1

theorem bind (first : h.Safe c Q x y)
    (rest : ∀ a s, h.Later c s → Q a s → h.Safe s S (f a) (g a)) :
    h.Safe c S (x >>= f) (y >>= g) := by
  rw [Run.bind_eq_either, Run.bind_eq_either]
  refine first.either rest ?_
  intro e s later known
  exact .throw known

theorem map {f : α → β} (first : h.Safe c Q x y)
    (holds : ∀ a s, h.Later c s → Q a s → S (f a) s) : h.Safe c S (f <$> x) (f <$> y) := by
  intro s later
  obtain ⟨same, fine⟩ := first s later
  change EStateM.map f y s = EStateM.map f x s ∧ h.Fine s S (EStateM.map f x s)
  simp only [EStateM.map, same]
  cases ended : x s with
  | ok a t =>
    rw [ended] at fine
    exact ⟨trivial, fine.1, holds a t (later.trans fine.1) fine.2⟩
  | error e t =>
    rw [ended] at fine
    exact ⟨trivial, fine⟩

theorem ite {p : Prop} [Decidable p] {x' y' : Run α} (holds : p → h.Safe c Q x y)
    (fails : ¬ p → h.Safe c Q x' y') :
    h.Safe c Q (if p then x else x') (if p then y else y') := by
  by_cases yes : p
  · simpa [yes] using holds yes
  · simpa [yes] using fails yes

theorem value {v : Value} (known : h.Admits v c) : h.Safe c h.Admits (Pure.pure v) (Pure.pure v) :=
  .pure fun _ later => later.wider.admits known

theorem any {a : α} : h.Safe c Any (Pure.pure a) (Pure.pure a) := .pure fun _ _ => trivial

theorem fail {kind message : String} :
    h.Safe c Q (Run.fail kind message) (Run.fail kind message) := by
  refine .throw ⟨?_, ?_, ?_⟩
  · rintro _ ⟨⟩
    trivial
  · rintro _ ⟨⟩
  · intro entry member
    simp [Fault.ofMessage] at member

theorem look {f g : Store → Run β} (rest : ∀ s, h.Later c s → h.Safe s S (f s) (g s)) :
    h.Safe c S (get >>= f) (get >>= g) := by
  intro s later
  exact rest s later s later.lawful.refl

theorem change {k : Store → α × Store}
    (moves : ∀ s, h.Later c s → h.Later s (k s).2 ∧ Q (k s).1 (k s).2) :
    h.Safe c Q (modifyGet k) (modifyGet k) := by
  intro s later
  exact ⟨rfl, moves s later⟩

end Safe

/-- What follows a computation may rely on the store that it started from. -/
theorem Fine.bind (ended : y t = x t ∧ h.Fine s Q (x t))
    (rest : ∀ a u, h.Later s u → Q a u → g a u = f a u ∧ h.Fine s S (f a u)) :
    (y >>= g) t = (x >>= f) t ∧ h.Fine s S ((x >>= f) t) := by
  obtain ⟨same, fine⟩ := ended
  rw [Run.bind_eq_either, Run.bind_eq_either]
  simp only [Run.either, same]
  cases ended : x t with
  | ok a u =>
    rw [ended] at fine
    exact rest a u fine.1 fine.2
  | error e u =>
    rw [ended] at fine
    exact ⟨rfl, fine⟩

theorem Lawful.change (lawful : h.Lawful s) (wider : Wider s t)
    (kept : ∀ (i : Nat) f, s.frames[i]? = some f → ∃ g, t.frames[i]? = some g ∧ g.outer = f.outer)
    (outer : ∀ (i : Nat) f, t.frames[i]? = some f →
      i < s.frames.size ∨ ∃ o < i, f.outer = some o ∧ ¬ h.frames o)
    (bindings : ∀ (i : Nat) f name v, t.frames[i]? = some f → ¬ h.frames i →
      f.get? name = some v → (s.frames[i]?.bind (·.get? name)) = some v ∨ h.Admits v s)
    (hidden : ∀ ref, h.procedures ref → t.procedures[ref]? = s.procedures[ref]?)
    (procedures : ∀ (ref : Nat) p, t.procedures[ref]? = some p → ¬ h.procedures ref →
      s.procedures[ref]? = some p ∨ h.AdmitsProcedure p s)
    (slots : ∀ (k : Half) slot, k.slot? t.lazyPairs = some slot →
      k.slot? s.lazyPairs = some slot ∨ h.AdmitsSlot slot s)
    (errors : ∀ (ref : Nat) f, t.errors[ref]? = some f →
      s.errors[ref]? = some f ∨ h.AdmitsFault f s) : h.Lawful t where
  global := by
    obtain ⟨f, found, outermost⟩ := lawful.global
    obtain ⟨g, found, same⟩ := kept 0 f found
    exact ⟨g, found, same.trans outermost⟩
  globalShown := lawful.globalShown
  outer := by
    intro i f found inner
    rcases outer i f found with old | ⟨o, less, around, shown⟩
    · have held := Array.getElem?_eq_getElem old
      obtain ⟨g, found', same⟩ := kept i _ held
      obtain ⟨o, less, around, leads⟩ := lawful.outer i _ held inner
      cases found'.symm.trans found
      exact ⟨o, less, same.trans around, leads⟩
    · exact ⟨o, less, around, fun hidden => absurd hidden shown⟩
  bindings := by
    intro i f name v found shown bound
    rcases bindings i f name v found shown bound with old | known
    · obtain ⟨g, held, bound⟩ := Option.bind_eq_some_iff.mp old
      exact wider.admits (lawful.bindings i g name v held shown bound)
    · exact wider.admits known
  procedures := by
    intro ref p found shown
    rcases procedures ref p found shown with old | known
    · exact wider.procedure (lawful.procedures ref p old shown)
    · exact wider.procedure known
  hiddenFrames i isHidden := Nat.lt_of_lt_of_le (lawful.hiddenFrames i isHidden) wider.frames
  hiddenProcedures := by
    intro ref isHidden
    rw [hidden ref isHidden]
    exact lawful.hiddenProcedures ref isHidden
  slots := by
    intro k slot found
    rcases slots k slot found with old | known
    · exact wider.slot (lawful.slots k slot old)
    · exact wider.slot known
  errors := by
    intro ref f found
    rcases errors ref f found with old | known
    · exact wider.fault (lawful.errors ref f old)
    · exact wider.fault known

/-- A store that grows stays lawful if what is new is. -/
theorem Lawful.later (lawful : h.Lawful s) (grows : h.Grows s t)
    (outer : ∀ (i : Nat) f, t.frames[i]? = some f →
      i < s.frames.size ∨ ∃ o < i, f.outer = some o ∧ ¬ h.frames o)
    (bindings : ∀ (i : Nat) f name v, t.frames[i]? = some f → ¬ h.frames i →
      f.get? name = some v → (s.frames[i]?.bind (·.get? name)) = some v ∨ h.Admits v s)
    (procedures : ∀ (ref : Nat) p, t.procedures[ref]? = some p → ¬ h.procedures ref →
      s.procedures[ref]? = some p ∨ h.AdmitsProcedure p s)
    (slots : ∀ (k : Half) slot, k.slot? t.lazyPairs = some slot →
      k.slot? s.lazyPairs = some slot ∨ h.AdmitsSlot slot s)
    (errors : ∀ (ref : Nat) f, t.errors[ref]? = some f →
      s.errors[ref]? = some f ∨ h.AdmitsFault f s) : h.Later s t := by
  refine ⟨?_, grows⟩
  refine lawful.change ⟨grows.frames_size, grows.procedures_size⟩ ?_ outer bindings ?_ procedures
    slots errors
  · intro i f found
    obtain ⟨g, found, evolves, -⟩ := grows.frames i f found
    exact ⟨g, found, evolves.outer⟩
  · intro ref isHidden
    obtain ⟨c, held⟩ := lawful.hiddenProcedures ref isHidden
    rw [held]
    exact grows.procedures ref _ held

theorem old_of_getElem? {α : Type} {xs : Array α} {i : Nat} {a : α} (found : xs[i]? = some a) :
    i < xs.size := (Array.getElem?_eq_some_iff.mp found).1

theorem old_binding {frames : Array Frame} {i : Nat} {f : Frame} {name : String} {v : Value}
    (found : frames[i]? = some f) (bound : f.get? name = some v) :
    frames[i]?.bind (·.get? name) = some v := by
  rw [found, Option.bind_some, bound]

/-- No change of frames, procedures, lazy pairs and errors. -/
theorem Lawful.quiet (lawful : h.Lawful s) (frames : t.frames = s.frames)
    (procedures : t.procedures = s.procedures) (pairs : t.lazyPairs = s.lazyPairs)
    (errors : t.errors = s.errors) : h.Later s t := by
  have grows : h.Grows s t := by
    refine ⟨?_, ?_, ?_⟩
    · rw [frames]
      exact (Grows.refl h s).frames
    · rw [procedures]
      exact fun _ _ => id
    · rw [pairs]
      exact .refl _
  refine lawful.later grows ?_ ?_ ?_ ?_ ?_
  · intro i f found
    exact .inl (old_of_getElem? (frames ▸ found))
  · intro i f name v found _ bound
    exact .inl (old_binding (frames ▸ found) bound)
  · intro ref p found _
    exact .inl (procedures ▸ found)
  · intro k slot held
    exact .inl (pairs ▸ held)
  · intro ref f found
    exact .inl (errors ▸ found)

section Frames

variable (lawful : h.Lawful s)

include lawful

theorem Lawful.admitsGlobal : h.AdmitsFrame 0 s := by
  obtain ⟨f, found, -⟩ := lawful.global
  obtain ⟨bound, -⟩ := Array.getElem?_eq_some_iff.mp found
  exact ⟨bound, lawful.globalShown⟩

/-- What is found from a frame that is not hidden is not hidden. -/
theorem Lawful.find? {name : String} {i owner : FrameId} {v : Value} (shown : h.AdmitsFrame i s)
    (found : Frame.find? s.frames name i = some (owner, v)) :
    h.AdmitsFrame owner s ∧ h.Admits v s := by
  induction i using Nat.strongRecOn with
  | _ i ih =>
    have held := Array.getElem?_eq_getElem shown.1
    rw [Frame.find?, held] at found
    dsimp only at found
    split at found
    · next bound =>
      cases found
      exact ⟨shown, lawful.bindings _ _ name v held shown.2 bound⟩
    · split at found
      · next o around =>
        split at found
        · next less =>
          refine ih o less ⟨Nat.lt_trans less shown.1, ?_⟩ found
          have inner : i ≠ 0 := Nat.ne_zero_of_lt less
          obtain ⟨_, _, same, leads⟩ := lawful.outer i _ held inner
          cases around.symm.trans same
          exact fun hidden => shown.2 (leads hidden)
        · cases found
      · cases found

theorem Lawful.topLevel {i : FrameId} (inside : i < s.frames.size) :
    Frame.topLevel s.frames i = 0 := by
  induction i using Nat.strongRecOn with
  | _ i ih =>
    have held := Array.getElem?_eq_getElem inside
    rw [Frame.topLevel, held]
    by_cases outermost : i = 0
    · subst outermost
      obtain ⟨f, found, none⟩ := lawful.global
      cases held.symm.trans found
      rw [Option.bind_some, none]
    · obtain ⟨o, less, around, -⟩ := lawful.outer i _ held outermost
      rw [Option.bind_some, around]
      simp only [less, dite_true]
      exact ih o less (Nat.lt_trans less inside)

end Frames

section Growth

variable (lawful : h.Lawful s)

include lawful

theorem Lawful.pushFrame {outer : FrameId} (shown : h.AdmitsFrame outer s) :
    h.Later s { s with frames := s.frames.push (.empty (some outer)) } := by
  refine lawful.later ⟨?_, fun _ _ => id, .refl _⟩ ?_ ?_ (fun _ _ found _ => .inl found)
    (fun _ _ => .inl) fun _ _ => .inl
  · intro i f found
    refine ⟨f, ?_, .refl f, fun _ => rfl⟩
    have bound := old_of_getElem? found
    rwa [Array.getElem?_push_lt bound, ← Array.getElem?_eq_getElem bound]
  · intro i f found
    rw [Array.getElem?_push] at found
    split at found
    · next new =>
      cases found
      exact .inr ⟨outer, new ▸ shown.1, rfl, shown.2⟩
    · exact .inl (old_of_getElem? found)
  · intro i f name v found _ bound
    rw [Array.getElem?_push] at found
    split at found
    · cases found
      cases bound
    · exact .inl (old_binding found bound)

theorem Lawful.define {frame : FrameId} (shown : h.AdmitsFrame frame s) (name : String) {v : Value}
    (known : h.Admits v s) :
    h.Later s { s with frames := s.frames.modify frame (·.define name v) } := by
  refine lawful.later ⟨?_, fun _ _ => id, .refl _⟩ ?_ ?_ (fun _ _ found _ => .inl found)
    (fun _ _ => .inl) fun _ _ => .inl
  · intro i f found
    rw [Array.getElem?_modify, found]
    split
    · next same =>
      exact ⟨_, rfl, f.evolves_define name v, fun hidden => absurd hidden (same ▸ shown.2)⟩
    · exact ⟨f, rfl, .refl f, fun _ => rfl⟩
  · intro i f found
    have bound := old_of_getElem? found
    rw [Array.size_modify] at bound
    exact .inl bound
  · intro i f other w found _ bound
    rw [Array.getElem?_modify] at found
    split at found
    · obtain ⟨old, held, rfl⟩ := Option.map_eq_some_iff.mp found
      rw [Frame.get?_define] at bound
      split at bound
      · cases bound
        exact .inr known
      · exact .inl (old_binding held bound)
    · exact .inl (old_binding found bound)

theorem Lawful.pushProcedure {p : Procedure} (known : h.AdmitsProcedure p s) :
    h.Later s { s with procedures := s.procedures.push p } := by
  refine lawful.later ⟨(Grows.refl h s).frames, ?_, .refl _⟩
    (fun _ _ found => .inl (old_of_getElem? found))
    (fun _ _ _ _ found _ bound => .inl (old_binding found bound)) ?_
    (fun _ _ => .inl) fun _ _ => .inl
  · intro ref q found
    have bound := old_of_getElem? found
    rwa [Array.getElem?_push_lt bound, ← Array.getElem?_eq_getElem bound]
  · intro ref q found _
    rw [Array.getElem?_push] at found
    split at found
    · cases found
      exact .inr known
    · exact .inl found

theorem Lawful.pushLazyPair {p : LazyPair} (known : ∀ side, h.AdmitsSlot (p.slot side) s) :
    h.Later s { s with lazyPairs := s.lazyPairs.push p } := by
  refine lawful.later ⟨(Grows.refl h s).frames, fun _ _ => id, (Evolves.refl _).push p⟩
    (fun _ _ found => .inl (old_of_getElem? found))
    (fun _ _ _ _ found _ bound => .inl (old_binding found bound)) (fun _ _ found _ => .inl found) ?_
    fun _ _ => .inl
  intro k slot held
  unfold Half.slot? at held ⊢
  obtain ⟨pair, found, rfl⟩ := Option.map_eq_some_iff.mp held
  rw [Array.getElem?_push] at found
  split at found
  · cases found
    exact .inr (known k.side)
  · rw [found]
    exact .inl rfl

theorem Lawful.pushError {f : Fault} (known : h.AdmitsFault f s) :
    h.Later s { s with errors := s.errors.push f } := by
  refine lawful.later ⟨(Grows.refl h s).frames, fun _ _ => id, .refl _⟩
    (fun _ _ found => .inl (old_of_getElem? found))
    (fun _ _ _ _ found _ bound => .inl (old_binding found bound)) (fun _ _ found _ => .inl found)
    (fun _ _ => .inl) ?_
  intro ref g found
  rw [Array.getElem?_push] at found
  split at found
  · cases found
    exact .inr known
  · exact .inl found

theorem Lawful.settle {v : Value} (known : h.Admits v s) (k : Half) :
    h.Lawful { s with lazyPairs := s.lazyPairs.modify k.ref (·.settle v k.side) } := by
  refine lawful.change ⟨Nat.le_refl _, Nat.le_refl _⟩ (fun _ f found => ⟨f, found, rfl⟩)
    (fun _ _ found => .inl (old_of_getElem? found))
    (fun _ _ _ _ found _ bound => .inl (old_binding found bound)) (fun _ _ => rfl)
    (fun _ _ found _ => .inl found) ?_ fun _ _ => .inl
  intro other slot held
  by_cases same : k = other
  · subst same
    right
    unfold Half.slot? at held
    rw [Array.getElem?_modify, if_pos rfl, Option.map_map] at held
    obtain ⟨pair, -, rfl⟩ := Option.map_eq_some_iff.mp held
    obtain ⟨side, ref⟩ := k
    cases side <;> exact known
  · left
    rwa [Half.slot?_settle_of_ne same] at held

omit lawful in
theorem AdmitsProcedure.named {p : Procedure} (known : h.AdmitsProcedure p s) (name : String) :
    h.AdmitsProcedure (p.named name) s := by
  cases p with
  | closure c => exact ⟨known.body, known.frame⟩
  | expander c => exact known
  | primitive p => trivial
  | cases clauses old doc =>
    cases old with
    | some other => exact known
    | none =>
      intro c member
      obtain ⟨old, held, rfl⟩ := List.mem_map.mp member
      exact ⟨(known old held).body, (known old held).frame⟩

theorem Lawful.name {ref : Nat} (shown : ¬ h.procedures ref) (name : String) :
    h.Lawful { s with procedures := s.procedures.modify ref (·.named name) } := by
  refine lawful.change ⟨Nat.le_refl _, by simp⟩ (fun _ f found => ⟨f, found, rfl⟩)
    (fun _ _ found => .inl (old_of_getElem? found))
    (fun _ _ _ _ found _ bound => .inl (old_binding found bound)) ?_ ?_ (fun _ _ => .inl)
    fun _ _ => .inl
  · intro other hidden
    rw [Array.getElem?_modify, if_neg]
    rintro rfl
    exact shown hidden
  · intro other p found notHidden
    rw [Array.getElem?_modify] at found
    split at found
    · obtain ⟨p, held, rfl⟩ := Option.map_eq_some_iff.mp found
      exact .inr ((lawful.procedures other p held notHidden).named name)
    · exact .inl found

end Growth

end Hidden

end LazyLisp
