import LazyLisp.Proofs.StoreEvolution

/-!
Computations that only allocate.

Such a computation makes frames, closures and pairs, and leaves all else as it is. What it has made
can be hidden from the procedures called next: they leave it alone, whatever they do.
-/

namespace LazyLisp

def Store.pushFrame (s : Store) (f : Frame) : Store := { s with frames := s.frames.push f }

def Store.pushProcedure (s : Store) (p : Procedure) : Store :=
  { s with procedures := s.procedures.push p }

def Store.Retains (s t : Store) : Prop :=
  ∀ (ref : Nat) p, s.procedures[ref]? = some p → t.procedures[ref]? = some p

/-- The store has new frames, each inside an older one, new closures and new marks, and is the same
otherwise. -/
structure Allocates (s t : Store) : Prop where
  frames : ∀ (i : Nat) f, s.frames[i]? = some f → t.frames[i]? = some f
  outer : ∀ (i : Nat) f, t.frames[i]? = some f → s.frames.size ≤ i → ∃ o < i, f.outer = some o
  procedures : s.Retains t
  closures : ∀ (ref : Nat) p, t.procedures[ref]? = some p → s.procedures.size ≤ ref →
    ∃ c, p = .closure c
  marks : s.nextMark ≤ t.nextMark
  lazyPairs : t.lazyPairs = s.lazyPairs
  errors : t.errors = s.errors
  inputs : t.inputs = s.inputs
  symbols : t.nextSymbol = s.nextSymbol
  out : t.out = s.out
  err : t.err = s.err

namespace Allocates

variable {s t u : Store}

theorem refl (s : Store) : Allocates s s where
  frames _ _ := id
  outer _ _ found new := absurd (Hidden.old_of_getElem? found) (Nat.not_lt.mpr new)
  procedures _ _ := id
  closures _ _ found new := absurd (Hidden.old_of_getElem? found) (Nat.not_lt.mpr new)
  marks := Nat.le_refl _
  lazyPairs := rfl
  errors := rfl
  inputs := rfl
  symbols := rfl
  out := rfl
  err := rfl

theorem frames_size (allocates : Allocates s t) : s.frames.size ≤ t.frames.size :=
  Hidden.size_le_of_getElem? fun i f found => ⟨f, allocates.frames i f found⟩

theorem procedures_size (allocates : Allocates s t) : s.procedures.size ≤ t.procedures.size :=
  Hidden.size_le_of_getElem? fun ref p found => ⟨p, allocates.procedures ref p found⟩

theorem trans (first : Allocates s t) (second : Allocates t u) : Allocates s u where
  frames i f found := second.frames i f (first.frames i f found)
  outer i f found new := by
    rcases Nat.lt_or_ge i t.frames.size with old | later
    · have held := Array.getElem?_eq_getElem old
      cases (second.frames i _ held).symm.trans found
      exact first.outer i _ held new
    · exact second.outer i f found later
  procedures ref p found := second.procedures ref p (first.procedures ref p found)
  closures ref p found new := by
    rcases Nat.lt_or_ge ref t.procedures.size with old | later
    · have held := Array.getElem?_eq_getElem old
      cases (second.procedures ref _ held).symm.trans found
      exact first.closures ref _ held new
    · exact second.closures ref p found later
  marks := Nat.le_trans first.marks second.marks
  lazyPairs := second.lazyPairs.trans first.lazyPairs
  errors := second.errors.trans first.errors
  inputs := second.inputs.trans first.inputs
  symbols := second.symbols.trans first.symbols
  out := second.out.trans first.out
  err := second.err.trans first.err

theorem pushFrame (s : Store) {outer : FrameId} (inside : outer < s.frames.size)
    (bindings : List (String × Value)) : Allocates s (s.pushFrame ⟨some outer, bindings⟩) where
  frames i f found := by
    have old := Hidden.old_of_getElem? found
    rwa [Store.pushFrame, Array.getElem?_push_lt old, ← Array.getElem?_eq_getElem old]
  outer i f found new := by
    rw [Store.pushFrame, Array.getElem?_push] at found
    split at found
    · cases found
      exact ⟨outer, Nat.lt_of_lt_of_le inside new, rfl⟩
    · exact absurd (Hidden.old_of_getElem? found) (Nat.not_lt.mpr new)
  procedures _ _ := id
  closures := (refl s).closures
  marks := Nat.le_refl _
  lazyPairs := rfl
  errors := rfl
  inputs := rfl
  symbols := rfl
  out := rfl
  err := rfl

theorem pushClosure (s : Store) (c : Closure) : Allocates s (s.pushProcedure (.closure c)) where
  frames _ _ := id
  outer := (refl s).outer
  procedures ref p found := by
    have old := Hidden.old_of_getElem? found
    rwa [Store.pushProcedure, Array.getElem?_push_lt old, ← Array.getElem?_eq_getElem old]
  closures ref p found new := by
    rw [Store.pushProcedure, Array.getElem?_push] at found
    split at found
    · cases found
      exact ⟨c, rfl⟩
    · exact absurd (Hidden.old_of_getElem? found) (Nat.not_lt.mpr new)
  marks := Nat.le_refl _
  lazyPairs := rfl
  errors := rfl
  inputs := rfl
  symbols := rfl
  out := rfl
  err := rfl

theorem mark (s : Store) (count : Nat) : Allocates s { s with nextMark := s.nextMark + count } :=
  { refl s with marks := Nat.le_add_right _ _ }

end Allocates

@[simp]
theorem Store.getElem?_pushFrame (s : Store) (f : Frame) :
    (s.pushFrame f).frames[s.frames.size]? = some f := Array.getElem?_push_size

@[simp]
theorem Store.getElem?_pushProcedure (s : Store) (p : Procedure) :
    (s.pushProcedure p).procedures[s.procedures.size]? = some p := Array.getElem?_push_size

theorem modify_push {α : Type} (xs : Array α) (x : α) (f : α → α) :
    (xs.push x).modify xs.size f = xs.push (f x) := by
  apply Array.ext_getElem?
  intro i
  rw [Array.getElem?_modify, Array.getElem?_push, Array.getElem?_push]
  by_cases last : i = xs.size
  · simp [last]
  · rw [if_neg (Ne.symm last), if_neg last, if_neg last]

def Store.global? (s : Store) (name : String) : Option Value :=
  s.frames[globalFrame]?.bind (·.get? name)

/-- The bindings that one meets on the way from a frame to the global one. -/
inductive Scope (s : Store) : FrameId → List (String × Value) → Prop where
  | global : Scope s Store.globalFrame []
  | inside {i outer bindings rest} : s.frames[i]? = some ⟨some outer, bindings⟩ → outer < i →
      Scope s outer rest → Scope s i (bindings ++ rest)

namespace Scope

variable {s : Store} {i : FrameId} {bindings : List (String × Value)} {v : Value}

theorem find?_of_bound (scope : Scope s i bindings) (name : String)
    (bound : bindings.lookup name = some v) :
    ∃ owner, Frame.find? s.frames name i = some (owner, v) := by
  induction scope with
  | global => cases bound
  | @inside i outer bindings rest found less _ ih =>
    rw [Frame.find?, found]
    rw [List.lookup_append] at bound
    cases here : bindings.lookup name with
    | some other =>
      rw [here] at bound
      cases bound
      exact ⟨i, by simp [Frame.get?, here]⟩
    | none =>
      rw [here] at bound
      simpa [Frame.get?, here, less] using ih bound

theorem find?_of_free (scope : Scope s i bindings) (name : String)
    (free : bindings.lookup name = none) (bound : s.global? name = some v) :
    ∃ owner, Frame.find? s.frames name i = some (owner, v) := by
  induction scope with
  | global =>
    obtain ⟨f, found, bound⟩ := Option.bind_eq_some_iff.mp bound
    exact ⟨Store.globalFrame, by rw [Frame.find?, found]; simp [bound]⟩
  | @inside i outer bindings rest found less _ ih =>
    rw [List.lookup_append, Option.or_eq_none_iff] at free
    rw [Frame.find?, found]
    simpa [Frame.get?, free.1, less] using ih free.2

end Scope

/-- The frames that one meets stay, and so do their bindings. -/
theorem Scope.kept {s t : Store} {i : FrameId} {bindings : List (String × Value)}
    (scope : Scope s i bindings) (kept : ∀ (j : Nat) f, s.frames[j]? = some f →
      t.frames[j]? = some f) : Scope t i bindings := by
  induction scope with
  | global => exact .global
  | inside found less _ ih => exact .inside (kept _ _ found) less ih

theorem Scope.allocates {s t : Store} {i : FrameId} {bindings : List (String × Value)}
    (scope : Scope s i bindings) (allocates : Allocates s t) : Scope t i bindings :=
  scope.kept allocates.frames

/-- Frames that stay do not change what is found in them. -/
theorem Frame.find?_of_kept {frames frames' : Array Frame}
    (kept : ∀ (i : Nat) f, frames[i]? = some f → frames'[i]? = some f) {name : String} {i : FrameId}
    {found : FrameId × Value} (bound : Frame.find? frames name i = some found) :
    Frame.find? frames' name i = some found := by
  induction i using Nat.strongRecOn with
  | ind i ih =>
    rw [Frame.find?] at bound ⊢
    cases held : frames[i]? with
    | none => simp [held] at bound
    | some f =>
      rw [kept i f held]
      simp only [held] at bound
      cases here : f.get? name with
      | some v => simpa [here] using bound
      | none =>
        cases around : f.outer with
        | none => simp [here, around] at bound
        | some o =>
          by_cases older : o < i
          · simp only [here, around, older, dif_pos] at bound ⊢
            exact ih o older bound
          · simp [here, around, older] at bound

theorem Frame.lt_size_of_find? {frames : Array Frame} {name : String} {i : FrameId}
    {found : FrameId × Value} (bound : Frame.find? frames name i = some found) :
    i < frames.size := by
  rw [Frame.find?] at bound
  cases held : frames[i]? with
  | none => simp [held] at bound
  | some f => exact Hidden.old_of_getElem? held

/-- A name that a new frame does not bind is found around it. -/
theorem Store.find?_pushFrame {s : Store} {outer : FrameId} {name : String}
    {bindings : List (String × Value)} (free : bindings.lookup name = none)
    {found : FrameId × Value} (bound : Frame.find? s.frames name outer = some found) :
    Frame.find? (s.pushFrame ⟨some outer, bindings⟩).frames name s.frames.size = some found := by
  have inside := Frame.lt_size_of_find? bound
  have around := Frame.find?_of_kept (Allocates.pushFrame s inside bindings).frames bound
  rw [Frame.find?, Store.getElem?_pushFrame]
  simp only [Frame.get?, free, inside, dif_pos]
  exact around

structure Enters (s : Store) (outer : FrameId) (bindings : List (String × Value)) (i : FrameId)
    (t : Store) : Prop where
  allocates : Allocates s t
  new : s.frames.size ≤ i
  found : t.frames[i]? = some ⟨some outer, bindings⟩
  outside : outer < i

namespace Enters

variable {s t : Store} {outer i : FrameId} {bindings : List (String × Value)}

theorem pushFrame (s : Store) (inside : outer < s.frames.size) (bindings : List (String × Value)) :
    Enters s outer bindings s.frames.size (s.pushFrame ⟨some outer, bindings⟩) :=
  ⟨.pushFrame s inside bindings, Nat.le_refl _, s.getElem?_pushFrame _, inside⟩

theorem scope (enters : Enters s outer bindings i t) {rest : List (String × Value)}
    (around : Scope t outer rest) : Scope t i (bindings ++ rest) :=
  .inside enters.found enters.outside around

theorem scopeGlobal (enters : Enters s Store.globalFrame bindings i t) : Scope t i bindings := by
  simpa using enters.scope .global

theorem inside (enters : Enters s outer bindings i t) : i < t.frames.size :=
  Hidden.old_of_getElem? enters.found

end Enters

namespace Hidden

variable {h : Hidden} {s t u : Store}

def hide (h : Hidden) (s t : Store) : Hidden where
  frames i := h.frames i ∨ (s.frames.size ≤ i ∧ i < t.frames.size)
  procedures ref := h.procedures ref ∨ (s.procedures.size ≤ ref ∧ ref < t.procedures.size)

theorem hide_enters {outer i : FrameId} {bindings : List (String × Value)}
    (enters : Enters s outer bindings i t) (h : Hidden) : (h.hide s t).frames i :=
  .inr ⟨enters.new, enters.inside⟩

section Hide

variable (allocates : Allocates s t)

include allocates

theorem Admits.hide {v : Value} (known : h.Admits v s) : (h.hide s t).Admits v t := by
  induction v with
  | pair mark car cdr first second => exact ⟨first known.1, second known.2⟩
  | procedure ref =>
    refine ⟨Nat.lt_of_lt_of_le known.1 allocates.procedures_size, ?_⟩
    rintro (hidden | ⟨new, -⟩)
    · exact known.2 hidden
    · exact Nat.not_lt.mpr new known.1
  | _ => trivial

theorem AdmitsAll.hide {vs : List Value} (known : h.AdmitsAll vs s) : (h.hide s t).AdmitsAll vs t :=
  fun v member => (known v member).hide allocates

theorem AdmitsFrame.hide {i : FrameId} (known : h.AdmitsFrame i s) :
    (h.hide s t).AdmitsFrame i t := by
  refine ⟨Nat.lt_of_lt_of_le known.1 allocates.frames_size, ?_⟩
  rintro (hidden | ⟨new, -⟩)
  · exact known.2 hidden
  · exact Nat.not_lt.mpr new known.1

theorem AdmitsClosure.hide {c : Closure} (known : h.AdmitsClosure c s) :
    (h.hide s t).AdmitsClosure c t := ⟨known.body.hide allocates, known.frame.hide allocates⟩

theorem AdmitsProcedure.hide {p : Procedure} (known : h.AdmitsProcedure p s) :
    (h.hide s t).AdmitsProcedure p t := by
  cases p with
  | closure c => exact AdmitsClosure.hide allocates known
  | expander c => exact AdmitsClosure.hide allocates known
  | cases clauses name doc => exact fun c member => (known c member).hide allocates
  | primitive p => trivial

theorem AdmitsSlot.hide {slot : Slot} (known : h.AdmitsSlot slot s) :
    (h.hide s t).AdmitsSlot slot t := by
  cases slot with
  | pending expr frame => exact ⟨known.1.hide allocates, known.2.hide allocates⟩
  | ready v => exact Admits.hide allocates known

theorem AdmitsFault.hide {f : Fault} (known : h.AdmitsFault f s) :
    (h.hide s t).AdmitsFault f t where
  value v held := (known.value v held).hide allocates
  source v held := (known.source v held).hide allocates
  trace entry member := (known.trace entry member).hide allocates

/-- Nothing leads to what is new but what is new itself. -/
theorem Lawful.hide (lawful : h.Lawful s) : (h.hide s t).Lawful t where
  global := by
    obtain ⟨f, found, outermost⟩ := lawful.global
    exact ⟨f, allocates.frames 0 f found, outermost⟩
  globalShown := (lawful.admitsGlobal.hide allocates).2
  outer i f found inner := by
    rcases Nat.lt_or_ge i s.frames.size with old | new
    · have held := Array.getElem?_eq_getElem old
      cases (allocates.frames i _ held).symm.trans found
      obtain ⟨o, less, around, leads⟩ := lawful.outer i _ held inner
      refine ⟨o, less, around, ?_⟩
      rintro (hidden | ⟨new, -⟩)
      · exact .inl (leads hidden)
      · exact absurd (Nat.lt_trans less old) (Nat.not_lt.mpr new)
    · obtain ⟨o, less, around⟩ := allocates.outer i f found new
      exact ⟨o, less, around, fun _ => .inr ⟨new, old_of_getElem? found⟩⟩
  bindings i f name v found shown bound := by
    rcases Nat.lt_or_ge i s.frames.size with old | new
    · have held := Array.getElem?_eq_getElem old
      cases (allocates.frames i _ held).symm.trans found
      have known := lawful.bindings i _ name v held (fun hidden => shown (.inl hidden)) bound
      exact known.hide allocates
    · exact absurd (.inr ⟨new, old_of_getElem? found⟩) shown
  procedures ref p found shown := by
    rcases Nat.lt_or_ge ref s.procedures.size with old | new
    · have held := Array.getElem?_eq_getElem old
      cases (allocates.procedures ref _ held).symm.trans found
      exact (lawful.procedures ref _ held fun hidden => shown (.inl hidden)).hide allocates
    · exact absurd (.inr ⟨new, old_of_getElem? found⟩) shown
  hiddenFrames i := by
    rintro (hidden | ⟨-, inside⟩)
    · exact Nat.lt_of_lt_of_le (lawful.hiddenFrames i hidden) allocates.frames_size
    · exact inside
  hiddenProcedures ref := by
    rintro (hidden | ⟨new, inside⟩)
    · obtain ⟨c, held⟩ := lawful.hiddenProcedures ref hidden
      exact ⟨c, allocates.procedures ref _ held⟩
    · have held := Array.getElem?_eq_getElem inside
      obtain ⟨c, same⟩ := allocates.closures ref _ held new
      exact ⟨c, held.trans (congrArg some same)⟩
  slots k slot held := by
    rw [allocates.lazyPairs] at held
    exact (lawful.slots k slot held).hide allocates
  errors ref f found := by
    rw [allocates.errors] at found
    exact (lawful.errors ref f found).hide allocates

end Hide

/-- From one store to the next: hidden frames are as they were and stay hidden, and procedures
stay. -/
structure Onward (h : Hidden) (s : Store) (h' : Hidden) (t : Store) : Prop where
  size : s.frames.size ≤ t.frames.size
  hidden : ∀ i, h.frames i → h'.frames i
  frames : ∀ (i : Nat) f, h.frames i → s.frames[i]? = some f → t.frames[i]? = some f
  procedures : s.Retains t

theorem Onward.refl (h : Hidden) (s : Store) : h.Onward s h s :=
  ⟨Nat.le_refl _, fun _ => id, fun _ _ _ => id, fun _ _ => id⟩

theorem Onward.trans {h' h'' : Hidden} (first : h.Onward s h' t) (second : h'.Onward t h'' u) :
    h.Onward s h'' u where
  size := Nat.le_trans first.size second.size
  hidden i isHidden := second.hidden i (first.hidden i isHidden)
  frames i f isHidden found := second.frames i f (first.hidden i isHidden)
    (first.frames i f isHidden found)
  procedures ref p found := second.procedures ref p (first.procedures ref p found)

theorem onward_of_allocates (allocates : Allocates s t) (h : Hidden) :
    h.Onward s (h.hide s t) t :=
  ⟨allocates.frames_size, fun _ => .inl, fun i f _ => allocates.frames i f, allocates.procedures⟩

theorem Later.onward (later : h.Later s t) : h.Onward s h t where
  size := later.grows.frames_size
  hidden _ := id
  frames i f isHidden found := by
    obtain ⟨g, found, -, same⟩ := later.grows.frames i f found
    rw [found, same isHidden]
  procedures := later.grows.procedures

def Shields (h : Hidden) (s : Store) (i : FrameId) (bindings : List (String × Value)) : Prop :=
  ∀ h' t, h.Onward s h' t → Scope t i bindings

namespace Shields

variable {h' : Hidden} {i outer : FrameId} {bindings rest : List (String × Value)}

theorem scope (shields : h.Shields s i bindings) : Scope s i bindings := shields h s (.refl h s)

theorem global (h : Hidden) (s : Store) : h.Shields s Store.globalFrame [] := fun _ _ _ => .global

theorem onward (shields : h.Shields s i bindings) (onward : h.Onward s h' t) :
    h'.Shields t i bindings := fun h'' u further => shields h'' u (onward.trans further)

theorem allocates (shields : h.Shields s i bindings) (allocates : Allocates s t) :
    (h.hide s t).Shields t i bindings := shields.onward (onward_of_allocates allocates h)

theorem enters (shields : h.Shields s outer rest) (enters : Enters s outer bindings i t) :
    (h.hide s t).Shields t i (bindings ++ rest) := by
  intro h' u further
  have kept := further.frames i _ (hide_enters enters h) enters.found
  exact .inside kept enters.outside (shields.allocates enters.allocates h' u further)

end Shields

theorem shields_enters {i : FrameId} {bindings : List (String × Value)}
    (enters : Enters s Store.globalFrame bindings i t) (h : Hidden) :
    (h.hide s t).Shields t i bindings := by
  simpa using (Shields.global h s).enters enters

end Hidden

end LazyLisp
