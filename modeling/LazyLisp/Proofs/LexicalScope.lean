import LazyLisp.Eval.Naming
import LazyLisp.Proofs.LazyHalves
import LazyLisp.Proofs.Observation
import LazyLisp.Proofs.Running

/-!
Frames under any history.

Frames are made one inside the other, by whoever likes, and bound and rebound through any of them.
Every frame has a chain of frames around it, and a name means what the nearest frame of the chain
binds it to. What is rebound through one frame is seen through exactly those frames whose chains
meet the same binding first, and a new binding shadows the others exactly where the chain meets it
first.
-/

namespace LazyLisp

namespace Frame

/-- The frames that one meets from a frame outward. -/
inductive Chain (frames : Array Frame) : FrameId → List FrameId → Prop where
  | outermost {i f} : frames[i]? = some f → f.outer = none → Chain frames i [i]
  | inside {i f o around} : frames[i]? = some f → f.outer = some o → Chain frames o around →
      Chain frames i (i :: around)

def valueAt (frames : Array Frame) (name : String) (i : FrameId) : Option Value :=
  frames[i]?.bind (·.get? name)

/-- The first frame of a chain that binds a name, with the value that it has there. -/
def Nearest (frames : Array Frame) (name : String) (chain : List FrameId) (i : FrameId)
    (v : Value) : Prop :=
  ∃ front back, chain = front ++ i :: back ∧ (∀ j ∈ front, valueAt frames name j = none) ∧
    valueAt frames name i = some v

def names (f : Frame) : List String := f.bindings.map (·.1)

def Nested (frames : Array Frame) : Prop :=
  ∀ (i : FrameId) f, frames[i]? = some f → ∀ o ∈ f.outer, o < i

section Nested

variable {frames : Array Frame}

theorem Nested.push (nested : Nested frames) {f : Frame} (inside : ∀ o ∈ f.outer, o < frames.size) :
    Nested (frames.push f) := by
  intro i g held o around
  rw [Array.getElem?_push] at held
  by_cases last : i = frames.size
  · rw [if_pos last] at held
    obtain rfl := Option.some.inj held
    exact last ▸ inside o around
  · rw [if_neg last] at held
    exact nested i g held o around

theorem getElem?_define (i j : FrameId) (name : String) (v : Value) :
    (frames.modify i (·.define name v))[j]? =
      frames[j]?.map fun f => if i = j then f.define name v else f := by
  rw [Array.getElem?_modify]
  by_cases here : i = j <;> simp [here]

theorem outer_define (i j : FrameId) (name : String) (v : Value) :
    (frames.modify i (·.define name v))[j]?.map Frame.outer = frames[j]?.map Frame.outer := by
  rw [getElem?_define, Option.map_map]
  congr 1
  funext f
  by_cases here : i = j <;> simp [here, define]

theorem Nested.define (nested : Nested frames) (i : FrameId) (name : String) (v : Value) :
    Nested (frames.modify i (·.define name v)) := by
  intro j g held o around
  have same := @outer_define frames i j name v
  rw [held] at same
  obtain ⟨f, before, outer⟩ := Option.map_eq_some_iff.mp same.symm
  exact nested j f before o (outer ▸ around)

theorem Nested.exists_chain (nested : Nested frames) {i : FrameId} (inside : i < frames.size) :
    ∃ around, Chain frames i around := by
  induction i using Nat.strongRecOn with
  | ind i ih =>
    have held := Array.getElem?_eq_getElem inside
    cases outer : frames[i].outer with
    | none => exact ⟨_, .outermost held outer⟩
    | some o =>
      have older := nested i _ held o outer
      obtain ⟨around, chain⟩ := ih o older (Nat.lt_trans older inside)
      exact ⟨_, .inside held outer chain⟩

end Nested

section Chain

variable {frames : Array Frame} {i j k : FrameId} {name other : String} {chain : List FrameId}
  {v w : Value}

theorem nearest_cons :
    Nearest frames name (i :: chain) k v ↔
      (i = k ∧ valueAt frames name i = some v) ∨
        (valueAt frames name i = none ∧ Nearest frames name chain k v) := by
  constructor
  · rintro ⟨front, back, cut, free, bound⟩
    cases front with
    | nil =>
      obtain ⟨rfl, -⟩ := List.cons.inj cut
      exact .inl ⟨rfl, bound⟩
    | cons first front =>
      obtain ⟨rfl, rest⟩ := List.cons.inj cut
      refine .inr ⟨free _ List.mem_cons_self, front, back, rest, ?_, bound⟩
      exact fun j member => free j (List.mem_cons_of_mem _ member)
  · rintro (⟨rfl, bound⟩ | ⟨free, front, back, rfl, frees, bound⟩)
    · exact ⟨[], chain, rfl, by simp, bound⟩
    · exact ⟨i :: front, back, rfl, by simpa using ⟨free, frees⟩, bound⟩

theorem not_nearest_nil : ¬ Nearest frames name [] k v := by
  rintro ⟨front, back, cut, -⟩
  simp at cut

theorem find?_eq_some_iff (nested : Nested frames) (around : Chain frames i chain) :
    find? frames name i = some (k, v) ↔ Nearest frames name chain k v := by
  induction around with
  | @outermost i f held top =>
    have here : valueAt frames name i = f.get? name := by simp [valueAt, held]
    rw [find?, held, nearest_cons, here]
    cases bound : f.get? name with
    | some w => simp [bound]
    | none => simp [bound, top, not_nearest_nil]
  | @inside i f o around held outer _ ih =>
    have here : valueAt frames name i = f.get? name := by simp [valueAt, held]
    rw [find?, held, nearest_cons, here]
    cases bound : f.get? name with
    | some w => simp [bound]
    | none => simpa [bound, outer, nested i f held o outer] using ih

theorem find?_eq_none (nested : Nested frames) (around : Chain frames i chain)
    (free : ∀ k v, ¬ Nearest frames name chain k v) : find? frames name i = none := by
  refine Option.eq_none_iff_forall_not_mem.mpr ?_
  rintro ⟨k, v⟩ found
  exact free k v ((find?_eq_some_iff nested around).mp found)

theorem Chain.define (around : Chain frames i chain) (j : FrameId) (name : String) (v : Value) :
    Chain (frames.modify j (·.define name v)) i chain := by
  have outer {i : FrameId} {f : Frame} (held : frames[i]? = some f) :
      ∃ g, (frames.modify j (·.define name v))[i]? = some g ∧ g.outer = f.outer := by
    have same := @outer_define frames j i name v
    rw [held] at same
    exact Option.map_eq_some_iff.mp same
  induction around with
  | outermost held top =>
    obtain ⟨g, after, same⟩ := outer held
    exact .outermost after (same.trans top)
  | inside held enclosed _ ih =>
    obtain ⟨g, after, same⟩ := outer held
    exact .inside after (same.trans enclosed) ih

theorem valueAt_define (inside : i < frames.size) :
    valueAt (frames.modify i (·.define name v)) other j =
      if other = name ∧ j = i then some v else valueAt frames other j := by
  rw [valueAt, getElem?_define]
  by_cases here : j = i
  · subst here
    simp [valueAt, Array.getElem?_eq_getElem inside]
  · simp [valueAt, here, Ne.symm here]

/-- The chain meets the frame before any other that binds the name. -/
def Meets (frames : Array Frame) (name : String) (chain : List FrameId) (i : FrameId) : Prop :=
  ∃ front back, chain = front ++ i :: back ∧ ∀ j ∈ front, valueAt frames name j = none

theorem meets_cons :
    Meets frames name (j :: chain) i ↔
      j = i ∨ (valueAt frames name j = none ∧ Meets frames name chain i) := by
  constructor
  · rintro ⟨front, back, cut, free⟩
    cases front with
    | nil => exact .inl (List.cons.inj cut).1
    | cons first front =>
      obtain ⟨rfl, rest⟩ := List.cons.inj cut
      refine .inr ⟨free _ List.mem_cons_self, front, back, rest, ?_⟩
      exact fun j member => free j (List.mem_cons_of_mem _ member)
  · rintro (rfl | ⟨free, front, back, rfl, frees⟩)
    · exact ⟨[], chain, rfl, by simp⟩
    · exact ⟨j :: front, back, rfl, by simpa using ⟨free, frees⟩⟩

theorem not_meets_nil : ¬ Meets frames name [] i := by
  rintro ⟨front, back, cut, -⟩
  simp at cut

/-- A frame that binds the name is met first by the chains on which it is the nearest. -/
theorem meets_iff_nearest (bound : valueAt frames name i = some v) :
    Meets frames name chain i ↔ Nearest frames name chain i v := by
  constructor
  · rintro ⟨front, back, cut, free⟩
    exact ⟨front, back, cut, free, bound⟩
  · rintro ⟨front, back, cut, free, -⟩
    exact ⟨front, back, cut, free⟩

/-- What a new binding of a name does to the meaning of a name along a chain. -/
theorem nearest_define (inside : i < frames.size) :
    Nearest (frames.modify i (·.define name v)) other chain k w ↔
      (other = name ∧ Meets frames name chain i ∧ k = i ∧ w = v) ∨
        (¬ (other = name ∧ Meets frames name chain i) ∧ Nearest frames other chain k w) := by
  induction chain with
  | nil => simp [not_nearest_nil, not_meets_nil]
  | cons j chain ih =>
    rw [nearest_cons, nearest_cons, meets_cons, ih, valueAt_define inside]
    by_cases same : other = name
    · subst same
      by_cases here : j = i
      · grind
      · grind
    · simp [same]

/-- Where the name leads from a frame, once it has been bound in frame `i`. -/
theorem find?_define (nested : Nested frames) (around : Chain frames j chain)
    (inside : i < frames.size) :
    (other = name ∧ Meets frames name chain i →
      find? (frames.modify i (·.define name v)) other j = some (i, v)) ∧
    (¬ (other = name ∧ Meets frames name chain i) →
      find? (frames.modify i (·.define name v)) other j = find? frames other j) := by
  have after {k : FrameId} {w : Value} :
      find? (frames.modify i (·.define name v)) other j = some (k, w) ↔
        Nearest (frames.modify i (·.define name v)) other chain k w :=
    find?_eq_some_iff (nested.define i name v) (around.define i name v)
  constructor
  · rintro ⟨same, meets⟩
    exact after.mpr ((nearest_define inside).mpr (.inl ⟨same, meets, rfl, rfl⟩))
  · intro elsewhere
    refine Option.ext fun ⟨k, w⟩ => ?_
    rw [after, nearest_define inside, find?_eq_some_iff nested around]
    constructor
    · rintro (⟨same, meets, -⟩ | ⟨-, nearest⟩)
      · exact absurd ⟨same, meets⟩ elsewhere
      · exact nearest
    · exact fun nearest => .inr ⟨elsewhere, nearest⟩

theorem lt_size_of_valueAt (bound : valueAt frames name i = some v) : i < frames.size := by
  obtain ⟨f, held, -⟩ := Option.bind_eq_some_iff.mp bound
  exact (Array.getElem?_eq_some_iff.mp held).1

theorem map_fst_bind {bs : List (String × Value)} (bound : bs.lookup name = some w) :
    (bind name v bs).map (·.1) = bs.map (·.1) := by
  induction bs with
  | nil => cases bound
  | cons b bs ih => grind [bind]

theorem names_define (bound : valueAt frames name i = some w) (j : FrameId) :
    (frames.modify i (·.define name v))[j]?.map names = frames[j]?.map names := by
  rw [getElem?_define, Option.map_map]
  cases held : frames[j]? with
  | none => rfl
  | some f =>
    by_cases here : i = j
    · subst here
      have known : f.bindings.lookup name = some w := by
        simpa [valueAt, held, get?] using bound
      simp [names, Frame.define, map_fst_bind known]
    · simp [here]

end Chain

end Frame

inductive FrameAction where
  | root
  | child (outer : FrameId)
  | define (frame : FrameId) (name v : Value)
  | update (frame : FrameId) (bindings : List (Value × Value))
  | set (frame : FrameId) (name v : Value)

namespace FrameAction

def run (m : Engine) : FrameAction → Run Unit
  | root => modify fun s => { s with frames := s.frames.push (.empty none) }
  | child outer => do let _ ← Run.newFrame outer
  | define frame name v => m.bindNamed frame name v
  | update frame bindings => m.bindAll frame bindings
  | set frame name v => do let _ ← m.assignNamed frame name v

def IsIn (s : Store) : FrameAction → Prop
  | root => True
  | child frame | define frame _ _ | update frame _ | set frame _ _ => frame < s.frames.size

instance (s : Store) : (a : FrameAction) → Decidable (a.IsIn s)
  | root => .isTrue trivial
  | child frame | define frame _ _ | update frame _ | set frame _ _ =>
    inferInstanceAs (Decidable (frame < s.frames.size))

end FrameAction

/-- The stores to which actions on frames lead, from one that has no frames. An action may fail. -/
inductive Built (m : Engine) : Store → Prop where
  | start {s} : s.frames = #[] → Built m s
  | next {s} {a : FrameAction} : Built m s → a.IsIn s → Built m (after (a.run m s))

def KeepsNesting {α : Type} (x : Run α) : Prop :=
  ∀ s, Frame.Nested s.frames → Frame.Nested (after (x s)).frames

namespace KeepsNesting

variable {α β : Type} {x : Run α}

theorem pure (a : α) : KeepsNesting (pure a : Run α) := fun _ nested => nested

theorem throw (e : Interrupt) : KeepsNesting (throw e : Run α) := fun _ nested => nested

theorem bind {f : α → Run β} (first : KeepsNesting x) (rest : ∀ a, KeepsNesting (f a)) :
    KeepsNesting (x >>= f) := by
  intro s nested
  have before := first s nested
  cases ended : x s with
  | ok a t =>
    rw [Run.bind_of_ok ended]
    exact rest a t (by simpa [ended, after] using before)
  | error e t =>
    rw [Run.bind_of_error ended]
    simpa [ended, after] using before

theorem get : KeepsNesting (get : Run Store) := fun _ nested => nested

theorem ofWritten (written : Except WriteFailure α) : KeepsNesting (Run.ofWritten written) := by
  unfold Run.ofWritten
  split
  · exact .pure _
  all_goals exact .throw _

theorem forIn {f : α → β → Run (ForInStep β)} (each : ∀ a b, KeepsNesting (f a b)) (init : β)
    (items : List α) : KeepsNesting (forIn items init f) := by
  induction items generalizing init with
  | nil => exact .pure init
  | cons a items ih =>
    rw [List.forIn_cons]
    refine (each a init).bind ?_
    rintro (b | b)
    · exact .pure b
    · exact ih b

theorem define (i : FrameId) (name : String) (v : Value) : KeepsNesting (Run.define i name v) :=
  fun _ nested => nested.define i name v

theorem find? (i : FrameId) (name : String) : KeepsNesting (Run.find? i name) :=
  fun _ nested => nested

theorem key (name : Value) : KeepsNesting (Engine.key name) := by
  unfold Engine.key
  split
  · exact .throw _
  · exact .pure _

theorem bindNamed (m : Engine) (i : FrameId) (name v : Value) :
    KeepsNesting (m.bindNamed i name v) := by
  unfold Engine.bindNamed
  split
  · exact .define i _ v
  · refine KeepsNesting.bind ?_ fun _ => .throw _
    exact KeepsNesting.get.bind fun _ => .ofWritten _

theorem bindAll (m : Engine) (i : FrameId) (bindings : List (Value × Value)) :
    KeepsNesting (m.bindAll i bindings) := by
  unfold Engine.bindAll
  refine (KeepsNesting.forIn (fun b _ => ?_) _ _).bind fun _ => ?_
  · exact (KeepsNesting.key b.1).bind fun _ => .pure _
  · refine (KeepsNesting.forIn (fun b _ => ?_) _ _).bind fun _ => .pure _
    exact (KeepsNesting.bindNamed m i b.1 _).bind fun _ => .pure _

theorem assignNamed (m : Engine) (i : FrameId) (name v : Value) :
    KeepsNesting (m.assignNamed i name v) := by
  unfold Engine.assignNamed
  refine (KeepsNesting.key name).bind ?_
  rintro (_ | symbol)
  · refine KeepsNesting.bind ?_ fun _ => .throw _
    exact KeepsNesting.get.bind fun _ => .ofWritten _
  · refine (KeepsNesting.find? i symbol).bind ?_
    rintro (_ | ⟨owner, old⟩)
    · exact .throw _
    · exact (KeepsNesting.define owner symbol v).bind fun _ => .pure _

end KeepsNesting

theorem FrameAction.nested {m : Engine} {s : Store} {a : FrameAction} (there : a.IsIn s)
    (nested : Frame.Nested s.frames) : Frame.Nested (after (a.run m s)).frames := by
  cases a with
  | root => exact nested.push (f := .empty none) (by simp [Frame.empty])
  | child outer =>
    refine nested.push (f := .empty (some outer)) ?_
    rintro o ⟨⟩
    exact there
  | define frame name v => exact KeepsNesting.bindNamed m frame name v s nested
  | update frame bindings => exact KeepsNesting.bindAll m frame bindings s nested
  | set frame name v =>
    exact (KeepsNesting.assignNamed m frame name v).bind (fun _ => .pure _) s nested

theorem Built.nested {m : Engine} {s : Store} (built : Built m s) : Frame.Nested s.frames := by
  induction built with
  | start none =>
    intro i f held
    simp [none] at held
  | next _ there ih => exact FrameAction.nested there ih

def behindActions (m : Engine) : List FrameAction → Store → Store
  | [], s => s
  | a :: actions, s => behindActions m actions (after (a.run m s))

def ActInOrder (m : Engine) : List FrameAction → Store → Prop
  | [], _ => True
  | a :: actions, s => a.IsIn s ∧ ActInOrder m actions (after (a.run m s))

instance (m : Engine) : (actions : List FrameAction) → (s : Store) →
    Decidable (ActInOrder m actions s)
  | [], _ => .isTrue trivial
  | a :: actions, s =>
    have := instDecidableActInOrder m actions (after (a.run m s))
    inferInstanceAs (Decidable (a.IsIn s ∧ ActInOrder m actions (after (a.run m s))))

theorem Built.behindActions {m : Engine} {actions : List FrameAction} {s : Store}
    (built : Built m s) (inOrder : ActInOrder m actions s) : Built m (behindActions m actions s) := by
  induction actions generalizing s with
  | nil => exact built
  | cons a actions ih => exact ih (built.next inOrder.1) inOrder.2

def frameEngine : Engine := .evaluating bareWorld 0 none

/-- Frames inside one another: an outer one, one inside it that binds the same name, a third one
inside that, and another one apart. Two of the actions fail. -/
def shadowingHistory : List FrameAction :=
  [.root, .define 0 (.symbol "x") (.symbol "old"), .child 0, .set 1 (.symbol "y") .nil,
    .define 1 (.symbol "x") .nil, .child 1, .update 2 [(.symbol "z", .nil), (.nil, .nil)], .root]

def shadowed : Store := behindActions frameEngine shadowingHistory { Store.empty with frames := #[] }

theorem frames_shadowed : shadowed.frames =
    #[⟨none, [("x", .symbol "old")]⟩, ⟨some 0, [("x", .nil)]⟩, ⟨some 1, [("z", .nil)]⟩,
      ⟨none, []⟩] := by
  with_unfolding_all rfl

theorem built_shadowed : Built frameEngine shadowed :=
  Built.behindActions (.start rfl) (by decide +kernel)

def ending {α : Type} : EStateM.Result Interrupt Store α → Except Interrupt α
  | .ok a _ => .ok a
  | .error e _ => .error e

section Names

variable {m : Engine} {s t : Store} {i j k : FrameId} {name other : String} {v w : Value}

theorem findNamed_symbol (i : FrameId) (name : String) (s : Store) :
    Engine.findNamed i (.symbol name) s = .ok ((Frame.find? s.frames name i).map (·.1)) s := rfl

theorem lookupNamed_of_some (bound : Frame.find? s.frames name i = some (k, w)) :
    m.lookupNamed i (.symbol name) s = .ok w s := lookup_of_find? bound

theorem lookupNamed_of_none (free : Frame.find? s.frames name i = none) :
    m.lookupNamed i (.symbol name) s = .error (.fault (.ofMessage Fault.Kind.unboundSymbol
      ("symbol '" ++ name ++ " is not bound"))) s := by
  have found : Run.find? i name s = .ok none s := congrArg (EStateM.Result.ok · s) free
  have failed : Run.lookup i name s = .error (.fault (.ofMessage Fault.Kind.unboundSymbol
      ("symbol '" ++ name ++ " is not bound"))) s := Run.bind_of_ok found
  exact failed

theorem assignNamed_of_some (bound : Frame.find? s.frames name i = some (k, w)) :
    m.assignNamed i (.symbol name) v s =
      .ok w { s with frames := s.frames.modify k (·.define name v) } := by
  have found : Run.find? i name s = .ok (some (k, w)) s := congrArg (EStateM.Result.ok · s) bound
  have assigned : Run.assign i name v s =
      .ok w { s with frames := s.frames.modify k (·.define name v) } := Run.bind_of_ok found
  exact assigned

theorem assignNamed_of_none (free : Frame.find? s.frames name i = none) :
    m.assignNamed i (.symbol name) v s = .error (.fault (.ofMessage Fault.Kind.unboundSymbol
      ("cannot set! unbound symbol " ++ name))) s := by
  have found : Run.find? i name s = .ok none s := congrArg (EStateM.Result.ok · s) free
  have failed : Run.assign i name v s = .error (.fault (.ofMessage Fault.Kind.unboundSymbol
      ("cannot set! unbound symbol " ++ name))) s := Run.bind_of_ok found
  exact failed

/-- A frame that binds a name is found by those whose chains meet it before any other such frame. -/
theorem findNamed_eq_iff_meets {chain : List FrameId} (nested : Frame.Nested s.frames)
    (around : Frame.Chain s.frames j chain) (bound : Frame.valueAt s.frames name k = some w) :
    Engine.findNamed j (.symbol name) s = .ok (some k) s ↔ Frame.Meets s.frames name chain k := by
  rw [Frame.meets_iff_nearest bound, ← Frame.find?_eq_some_iff nested around, findNamed_symbol]
  constructor
  · intro ended
    have owner : (Frame.find? s.frames name j).map (·.1) = some k := (EStateM.Result.ok.inj ended).1
    obtain ⟨⟨k, x⟩, found, rfl⟩ := Option.map_eq_some_iff.mp owner
    obtain ⟨-, -, -, -, value⟩ := (Frame.find?_eq_some_iff nested around).mp found
    rw [found, Option.some.inj (bound.symm.trans value)]
  · intro found
    rw [found, Option.map_some]

/-- Looking a name up ends in the same way where it leads to the same place. -/
theorem ending_lookupNamed (same : Frame.find? t.frames name j = Frame.find? s.frames name j) :
    ending (m.lookupNamed j (.symbol name) t) = ending (m.lookupNamed j (.symbol name) s) := by
  cases bound : Frame.find? s.frames name j with
  | none => rw [lookupNamed_of_none bound, lookupNamed_of_none (same.trans bound), ending, ending]
  | some found =>
    obtain ⟨owner, x⟩ := found
    rw [lookupNamed_of_some bound, lookupNamed_of_some (same.trans bound), ending, ending]

theorem lookupNamed_define {chain : List FrameId} (nested : Frame.Nested s.frames)
    (around : Frame.Chain s.frames j chain) (inside : i < s.frames.size)
    (bound : t.frames = s.frames.modify i (·.define name v)) :
    (other = name ∧ Frame.Meets s.frames name chain i →
      m.lookupNamed j (.symbol other) t = .ok v t) ∧
    (¬ (other = name ∧ Frame.Meets s.frames name chain i) →
      ending (m.lookupNamed j (.symbol other) t) = ending (m.lookupNamed j (.symbol other) s)) := by
  obtain ⟨new, kept⟩ := @Frame.find?_define s.frames i j name other chain v nested around inside
  rw [← bound] at new kept
  exact ⟨fun seen => lookupNamed_of_some (new seen), fun unseen => ending_lookupNamed (kept unseen)⟩

end Names

/-- Names mean what the nearest frame binds them to, whatever has been done to the frames before. -/
theorem frames_scope_lexically {m : Engine} {s : Store} (built : Built m s) {i j : FrameId}
    (here : i < s.frames.size) (there : j < s.frames.size) (name other : String) (v : Value) :
    ∃ chain chain', Frame.Chain s.frames i chain ∧ Frame.Chain s.frames j chain' ∧
      -- A name that is bound is found and rebound in the nearest frame, for all that find it there.
      (∀ k w, Frame.Nearest s.frames name chain k w →
        Engine.findNamed i (.symbol name) s = .ok (some k) s ∧
        m.lookupNamed i (.symbol name) s = .ok w s ∧
        ∃ t, m.assignNamed i (.symbol name) v s = .ok w t ∧
          (∀ l : FrameId, t.frames[l]?.map Frame.names = s.frames[l]?.map Frame.names) ∧
          (other = name ∧ Engine.findNamed j (.symbol name) s = .ok (some k) s →
            m.lookupNamed j (.symbol other) t = .ok v t) ∧
          (¬ (other = name ∧ Engine.findNamed j (.symbol name) s = .ok (some k) s) →
            ending (m.lookupNamed j (.symbol other) t) =
              ending (m.lookupNamed j (.symbol other) s))) ∧
      -- A name that is not bound is not found, and nothing changes.
      ((∀ k w, ¬ Frame.Nearest s.frames name chain k w) →
        Engine.findNamed i (.symbol name) s = .ok none s ∧
        m.lookupNamed i (.symbol name) s = .error (.fault (.ofMessage Fault.Kind.unboundSymbol
          ("symbol '" ++ name ++ " is not bound"))) s ∧
        m.assignNamed i (.symbol name) v s = .error (.fault (.ofMessage Fault.Kind.unboundSymbol
          ("cannot set! unbound symbol " ++ name))) s) ∧
      -- A new binding is seen wherever the chain meets no other one before.
      ∃ t, m.bindNamed i (.symbol name) v s = .ok () t ∧
        (other = name ∧ Frame.Meets s.frames name chain' i →
          m.lookupNamed j (.symbol other) t = .ok v t) ∧
        (¬ (other = name ∧ Frame.Meets s.frames name chain' i) →
          ending (m.lookupNamed j (.symbol other) t) =
            ending (m.lookupNamed j (.symbol other) s)) := by
  have nested := built.nested
  obtain ⟨chain, around⟩ := nested.exists_chain here
  obtain ⟨chain', around'⟩ := nested.exists_chain there
  refine ⟨chain, chain', around, around', ?_, ?_, ?_⟩
  · intro k w nearest
    have found := (Frame.find?_eq_some_iff nested around).mpr nearest
    obtain ⟨-, -, -, -, value⟩ := nearest
    have owner := Frame.lt_size_of_valueAt value
    have sees := findNamed_eq_iff_meets nested around' value
    refine ⟨?_, lookupNamed_of_some found, _, assignNamed_of_some found, ?_, ?_⟩
    · rw [findNamed_symbol, found, Option.map_some]
    · exact Frame.names_define value
    · rw [sees]
      exact lookupNamed_define nested around' owner rfl
  · intro free
    have unbound := Frame.find?_eq_none nested around free
    refine ⟨?_, lookupNamed_of_none unbound, assignNamed_of_none unbound⟩
    rw [findNamed_symbol, unbound, Option.map_none]
  · exact ⟨_, rfl, lookupNamed_define nested around' here rfl⟩

theorem frames_scope_lexically_shadowed :
    Built frameEngine shadowed ∧ 2 < shadowed.frames.size ∧
      ∃ t, frameEngine.assignNamed 2 (.symbol "x") (.symbol "new") shadowed = .ok .nil t ∧
        frameEngine.lookupNamed 1 (.symbol "x") t = .ok (.symbol "new") t ∧
        ending (frameEngine.lookupNamed 0 (.symbol "x") t) = .ok (.symbol "old") := by
  have inside (i : FrameId) (least : i < 4) : i < shadowed.frames.size := by
    rw [frames_shadowed]
    exact least
  have found : Frame.find? shadowed.frames "x" 2 = some (1, .nil) := by
    rw [frames_shadowed]
    with_unfolding_all rfl
  obtain ⟨chain, _, around, -, bound, -⟩ := frames_scope_lexically built_shadowed
    (inside 2 (by decide)) (inside 1 (by decide)) "x" "x" (.symbol "new")
  have nearest := (Frame.find?_eq_some_iff built_shadowed.nested around).mp found
  obtain ⟨-, -, t, assigned, -, seen, -⟩ := bound 1 .nil nearest
  obtain ⟨chain, _, around, -, bound, -⟩ := frames_scope_lexically built_shadowed
    (inside 2 (by decide)) (inside 0 (by decide)) "x" "x" (.symbol "new")
  have nearest := (Frame.find?_eq_some_iff built_shadowed.nested around).mp found
  obtain ⟨-, -, t', assigned', -, -, unseen⟩ := bound 1 .nil nearest
  obtain rfl : t = t' := (EStateM.Result.ok.inj (assigned.symm.trans assigned')).2
  have inner : Frame.find? shadowed.frames "x" 1 = some (1, .nil) := by
    rw [frames_shadowed]
    with_unfolding_all rfl
  have outer : Frame.find? shadowed.frames "x" 0 = some (0, .symbol "old") := by
    rw [frames_shadowed]
    with_unfolding_all rfl
  refine ⟨built_shadowed, inside 2 (by decide), t, assigned, ?_, ?_⟩
  · refine seen ⟨rfl, ?_⟩
    rw [findNamed_symbol, inner, Option.map_some]
  · rw [unseen, lookupNamed_of_some outer, ending]
    rw [findNamed_symbol, outer]
    simp

end LazyLisp
