import LazyLisp.Proofs.Renaming
import LazyLisp.Proofs.Spelling

/-!
The store under a renaming: each operation on it follows itself, and no text shows a name.
-/

namespace LazyLisp

namespace Renaming

section Operations

variable {ρ : Renaming} {α β : Type} {c : Store} {R : Renaming → α → β → Prop}

theorem fail (kind message : String) :
    ρ.Follows c R (Run.fail kind message : Run α) (Run.fail kind message : Run β) := by
  refine .throwFault ⟨rfl, .some (.atom _), rfl, .none, ?_, rfl, rfl, rfl⟩
  exact .nil

theorem freshMark : ρ.Follows c (fun σ => σ.marks) Run.freshMark Run.freshMark := by
  refine .change fun s t older stores => ⟨⟨Nat.le_succ _, Nat.le_refl _⟩, ?_, stores.mark 1⟩
  exact ⟨Nat.lt_succ_self _, stores.nextMarks 0⟩

theorem cons {car car' cdr cdr' : Value} (carSame : (ρ.upTo c).Values car car')
    (cdrSame : (ρ.upTo c).Values cdr cdr') :
    ρ.Follows c Values (Run.cons car cdr) (Run.cons car' cdr') := by
  refine freshMark.bind fun d older m n marks => .value ?_
  exact .pair marks (older.values carSame) (older.values cdrSame)

theorem values_consReversed {σ : Renaming} {items items' : List Value} (same : σ.All items items')
    {tail tail' : Value} (tailSame : σ.Values tail tail') {m n : Nat}
    (marks : ∀ k < items.length, σ.marks (m + k) (n + k)) :
    σ.Values (Value.consReversed m tail items).1 (Value.consReversed n tail' items').1 := by
  induction same generalizing tail tail' m n with
  | nil => exact tailSame
  | @cons item item' items items' first _ ih =>
    have here : σ.marks m n := marks 0 (Nat.zero_lt_succ _)
    refine ih (.pair here first tailSame) fun k inside => ?_
    have next := marks (k + 1) (Nat.succ_lt_succ inside)
    rwa [Nat.add_comm k 1, ← Nat.add_assoc, ← Nat.add_assoc] at next

theorem listReversed {items items' : List Value} (same : (ρ.upTo c).All items items')
    {tail tail' : Value} (tailSame : (ρ.upTo c).Values tail tail') :
    ρ.Follows c Values (Run.listReversed items tail) (Run.listReversed items' tail') := by
  refine .change fun s t older stores => ?_
  have count : (Value.consReversed s.nextMark tail items).2 = s.nextMark + items.length :=
    consReversed_mark _ _ _
  have count' : (Value.consReversed t.nextMark tail' items').2 = t.nextMark + items.length := by
    rw [consReversed_mark, same.length_eq]
  simp only [count, count']
  have later : Older s { s with nextMark := s.nextMark + items.length } :=
    ⟨Nat.le_add_right _ _, Nat.le_refl _⟩
  refine ⟨later, ?_, stores.mark _⟩
  apply values_consReversed
  · exact later.all (older.all same)
  · exact later.values (older.values tailSame)
  · exact fun k inside => ⟨Nat.add_lt_add_left inside _, stores.nextMarks k⟩

theorem list {items items' : List Value} (same : (ρ.upTo c).All items items') :
    ρ.Follows c Values (Run.list items) (Run.list items') :=
  listReversed (List.rel_reverse same) (.atom _)

theorem values_ofDatum (d : Datum) : ∃ count, ∀ m, (Value.ofDatum m d).2 = m + count ∧
    ∀ {σ : Renaming} {n}, (∀ k < count, σ.marks (m + k) (n + k)) →
      σ.Values (Value.ofDatum m d).1 (Value.ofDatum n d).1 := by
  suffices both : (∃ count, ∀ m, (Value.ofDatum m d).2 = m + count ∧
      ∀ {σ : Renaming} {n}, (∀ k < count, σ.marks (m + k) (n + k)) →
        σ.Values (Value.ofDatum m d).1 (Value.ofDatum n d).1) ∧
      ∃ count, ∀ m items, (Value.ofSpine m items d).2 = m + (count + items.length) ∧
        ∀ {σ : Renaming} {n items'}, σ.All items items' →
          (∀ k < count + items.length, σ.marks (m + k) (n + k)) →
          σ.Values (Value.ofSpine m items d).1 (Value.ofSpine n items' d).1 from both.1
  induction d with
  | atom a =>
    refine ⟨⟨0, fun m => ⟨rfl, fun _ => .atom a⟩⟩, 0, fun m items => ⟨?_, ?_⟩⟩
    · rw [Nat.zero_add]
      exact consReversed_mark m (.atom a) items
    · intro σ n items' same marks
      rw [Nat.zero_add] at marks
      exact values_consReversed same (.atom a) marks
  | pair car cdr carKnown cdrKnown =>
    obtain ⟨⟨count, first⟩, -⟩ := carKnown
    obtain ⟨-, more, others⟩ := cdrKnown
    have behind (m : Nat) (items : List Value) :
        (Value.ofSpine m items (.pair car cdr)).2 = m + (count + more + 1 + items.length) := by
      rw [Value.ofSpine, (others _ _).1, (first m).1, List.length_cons]
      omega
    have related {σ : Renaming} {m n : Nat} {items items' : List Value} (same : σ.All items items')
        (marks : ∀ k < count + more + 1 + items.length, σ.marks (m + k) (n + k)) :
        σ.Values (Value.ofSpine m items (.pair car cdr)).1
          (Value.ofSpine n items' (.pair car cdr)).1 := by
      have head := (first m).2 fun k inside => marks k (by omega)
      rw [Value.ofSpine, Value.ofSpine]
      refine (others _ _).2 (.cons head same) fun k inside => ?_
      rw [List.length_cons] at inside
      rw [(first m).1, (first n).1, Nat.add_assoc, Nat.add_assoc]
      exact marks (count + k) (by omega)
    refine ⟨⟨count + more + 1, fun m => ⟨behind m [], fun marks => related .nil marks⟩⟩,
      count + more + 1, fun m items => ⟨behind m items, related⟩⟩

theorem ofDatum (d : Datum) : ρ.Follows c Values (Run.ofDatum d) (Run.ofDatum d) := by
  obtain ⟨count, counted⟩ := values_ofDatum d
  refine .change fun s t older stores => ?_
  simp only [(counted s.nextMark).1, (counted t.nextMark).1]
  refine ⟨⟨Nat.le_add_right _ _, Nat.le_refl _⟩, ?_, stores.mark count⟩
  exact (counted s.nextMark).2 fun k inside =>
    ⟨Nat.add_lt_add_left inside _, stores.nextMarks k⟩

theorem ofNumber (n : Number) : ρ.Follows c Values (Run.ofNumber n) (Run.ofNumber n) := by
  unfold Run.ofNumber
  split
  · exact .value (.atom _)
  · refine .ite (fun _ => ?_) fun _ => .value (.atom _)
    exact freshMark.bind fun d older m n marks => .value (.nan marks)

end Operations

section Frames

variable {σ : Renaming}

theorem lookup_bindings {bs bs' : List (String × Value)} (same : List.Forall₂ σ.Bindings bs bs')
    (name : String) : Option.Rel σ.Values (bs.lookup name) (bs'.lookup name) := by
  induction same with
  | nil => exact .none
  | @cons b b' bs bs' first _ ih =>
    obtain ⟨n, v⟩ := b
    obtain ⟨_, w⟩ := b'
    obtain ⟨rfl, values⟩ := first
    rw [List.lookup_cons, List.lookup_cons]
    cases name == n with
    | true => exact .some values
    | false => exact ih

theorem bind_bindings {bs bs' : List (String × Value)} (same : List.Forall₂ σ.Bindings bs bs')
    (name : String) {v w : Value} (values : σ.Values v w) :
    List.Forall₂ σ.Bindings (Frame.bind name v bs) (Frame.bind name w bs') := by
  induction same with
  | nil => exact .cons ⟨rfl, values⟩ .nil
  | @cons b b' bs bs' first rest ih =>
    obtain ⟨n, u⟩ := b
    obtain ⟨_, u'⟩ := b'
    obtain ⟨rfl, known⟩ := first
    rw [Frame.bind, Frame.bind]
    by_cases here : (n == name) = true
    · rw [if_pos here, if_pos here]
      exact .cons ⟨rfl, values⟩ rest
    · rw [if_neg here, if_neg here]
      exact .cons ⟨rfl, known⟩ ih

theorem Frames.define {f g : Frame} (same : σ.Frames f g) (name : String) {v w : Value}
    (values : σ.Values v w) : σ.Frames (f.define name v) (g.define name w) :=
  ⟨same.outer, bind_bindings same.bindings name values⟩

variable {frames frames' : Array Frame} (same : Pointwise σ.Frames frames frames')

include same

theorem find?_frames (name : String) (i : FrameId) :
    Option.Rel (fun a b => a.1 = b.1 ∧ σ.Values a.2 b.2) (Frame.find? frames name i)
      (Frame.find? frames' name i) := by
  induction i using Nat.strongRecOn with
  | _ i ih =>
    rw [Frame.find?, Frame.find?]
    have entry := same i
    generalize frames[i]? = f at entry
    generalize frames'[i]? = g at entry
    cases entry with
    | none => exact .none
    | @some f g held =>
      have found := lookup_bindings held.bindings name
      simp only [Frame.get?, ← held.outer]
      generalize f.bindings.lookup name = v at found
      generalize g.bindings.lookup name = w at found
      cases found with
      | some values => exact .some ⟨rfl, values⟩
      | none =>
        cases f.outer with
        | none => exact .none
        | some o =>
          by_cases less : o < i
          · simp only [less, dite_true]
            exact ih o less
          · simp only [less, dite_false]
            exact .none

theorem topLevel_frames (i : FrameId) : Frame.topLevel frames i = Frame.topLevel frames' i := by
  induction i using Nat.strongRecOn with
  | _ i ih =>
    have around : frames[i]?.bind Frame.outer = frames'[i]?.bind Frame.outer := by
      have entry := same i
      generalize frames[i]? = f at entry
      generalize frames'[i]? = g at entry
      cases entry with
      | none => rfl
      | some held => exact held.outer
    rw [Frame.topLevel, Frame.topLevel, around]
    cases frames'[i]?.bind Frame.outer with
    | none => rfl
    | some o =>
      by_cases less : o < i
      · simp only [less, dite_true]
        exact ih o less
      · simp only [less, dite_false]

end Frames

section Operations

variable {ρ : Renaming} {α β : Type} {c : Store} {R : Renaming → α → β → Prop}

theorem newFrame (outer : FrameId) : ρ.Follows c Same (Run.newFrame outer) (Run.newFrame outer) := by
  refine .change fun s t older stores => ⟨⟨Nat.le_refl _, Nat.le_refl _⟩, ?_, ?_⟩
  · exact stores.frames.size_eq
  · exact { stores with frames := stores.frames.push ⟨rfl, .nil⟩ }

theorem define (frame : FrameId) (name : String) {v w : Value} (same : (ρ.upTo c).Values v w) :
    ρ.Follows c Same (Run.define frame name v) (Run.define frame name w) := by
  refine .change fun s t older stores => ⟨⟨Nat.le_refl _, Nat.le_refl _⟩, rfl, ?_⟩
  have values := older.values same
  exact { stores with frames := stores.frames.modify frame fun _ _ held => held.define name values }

theorem find? (frame : FrameId) (name : String) :
    ρ.Follows c (fun σ => Option.Rel fun a b => a.1 = b.1 ∧ σ.Values a.2 b.2)
      (Run.find? frame name) (Run.find? frame name) := by
  intro s t older stores
  exact .ok (.refl s) (find?_frames stores.frames name frame) stores

theorem topLevel (frame : FrameId) :
    ρ.Follows c Same (Run.topLevel frame) (Run.topLevel frame) := by
  intro s t older stores
  exact .ok (.refl s) (topLevel_frames stores.frames frame) stores

theorem Procedures.named {σ : Renaming} {p q : Procedure} (same : σ.Procedures p q)
    (name : String) : σ.Procedures (p.named name) (q.named name) := by
  cases same with
  | closure c => exact .closure { c with name := by rw [c.name] }
  | cases known doc clauses =>
    cases known with
    | some known => exact .cases _ _ clauses
    | none =>
      refine .cases _ _ (List.rel_map ?_ clauses)
      exact fun _ _ c => { c with name := rfl }
  | expander c => exact .expander c
  | primitive p => exact .primitive p

theorem newProcedure {p q : Procedure} (same : (ρ.upTo c).Procedures p q) :
    ρ.Follows c Values (Run.newProcedure p) (Run.newProcedure q) := by
  refine .change fun s t older stores => ?_
  have later : Older s { s with procedures := s.procedures.push p } := by
    refine ⟨Nat.le_refl _, ?_⟩
    rw [Array.size_push]
    exact Nat.le_succ _
  have le := later.le ρ
  have next : ρ.procedures s.procedures.size t.procedures.size := stores.nextProcedures 0
  refine ⟨later, .procedure ⟨?_, next⟩, ?_⟩
  · rw [Array.size_push]
    exact Nat.lt_succ_self _
  · refine stores.renumber le ?_ ?_ stores.nextMarks ?_
    · intro i j inside related
      have last := ρ.procedures_iff related next
      rw [Array.getElem?_push, Array.getElem?_push]
      by_cases here : i = s.procedures.size
      · rw [if_pos here, if_pos (last.mp here)]
        exact .some (le.procedure ((older.le ρ).procedure same))
      · rw [if_neg here, if_neg (mt last.mpr here)]
        rw [Array.size_push] at inside
        refine rel_imp (stores.procedures ⟨?_, related⟩) fun _ _ => le.procedure
        exact Nat.lt_of_le_of_ne (Nat.le_of_lt_succ inside) here
    · intro q x isSpare
      rw [Array.getElem?_push, if_neg ?_]
      · exact stores.spare isSpare
      · rintro rfl
        rw [ρ.not_spare next] at isSpare
        cases isSpare
    · intro k
      have further := stores.nextProcedures (1 + k)
      rwa [← Nat.add_assoc, ← Nat.add_assoc, ← Array.size_push p, ← Array.size_push q] at further

/-- What one of the stores holds in a place, the other one holds in a place. -/
theorem held {k : Store → Option α} {k' : Store → Option β}
    (entries : ∀ s t, Older c s → ρ.Stores s t → Option.Rel (R (ρ.upTo s)) (k s) (k' t)) :
    ρ.Follows c R (do Run.held (k (← get))) (do Run.held (k' (← get))) := by
  refine .look fun s t older stores => ?_
  have entry := entries s t older stores
  generalize k s = x at entry
  generalize k' t = y at entry
  cases entry with
  | some known => exact .ok (.refl s) known stores
  | none => exact .error (.refl s) (.same rfl) stores

theorem procedure {p q : Nat} (same : (ρ.upTo c).procedures p q) :
    ρ.Follows c Procedures (Run.procedure p) (Run.procedure q) :=
  held fun _ _ older stores => stores.procedures ((older.le ρ).procedures same)

theorem nameProcedure {p q : Nat} (same : (ρ.upTo c).procedures p q) (name : String) :
    ρ.Follows c Same (Run.nameProcedure p name) (Run.nameProcedure q name) := by
  refine .change fun s t older stores => ?_
  have size : (s.procedures.modify p (·.named name)).size = s.procedures.size := Array.size_modify
  have size' : (t.procedures.modify q (·.named name)).size = t.procedures.size := Array.size_modify
  have later : Older s { s with procedures := s.procedures.modify p (·.named name) } :=
    ⟨Nat.le_refl _, Nat.le_of_eq size.symm⟩
  have le := later.le ρ
  refine ⟨later, rfl, ?_⟩
  refine stores.renumber le ?_ ?_ stores.nextMarks ?_
  · intro i j inside related
    rw [size] at inside
    have entry := stores.procedures ⟨inside, related⟩
    have here := ρ.procedures_iff same.2 related
    rw [Array.getElem?_modify, Array.getElem?_modify]
    by_cases named : p = i
    · rw [if_pos named, if_pos (here.mp named)]
      generalize s.procedures[i]? = x at entry
      generalize t.procedures[j]? = y at entry
      cases entry with
      | some held => exact .some (le.procedure (held.named name))
      | none => exact .none
    · rw [if_neg named, if_neg (mt here.mpr named)]
      exact rel_imp entry fun _ _ => le.procedure
  · intro j x isSpare
    rw [Array.getElem?_modify, if_neg ?_]
    · exact stores.spare isSpare
    · rintro rfl
      rw [ρ.not_spare same.2] at isSpare
      cases isSpare
  · intro k
    rw [size, size']
    exact stores.nextProcedures k

theorem newLazyPair {p q : LazyPair} (same : (ρ.upTo c).LazyPairs p q) :
    ρ.Follows c Values (Run.newLazyPair p) (Run.newLazyPair q) := by
  refine .change fun s t older stores => ⟨⟨Nat.le_refl _, Nat.le_refl _⟩, ?_, ?_⟩
  · rw [stores.lazyPairs.size_eq]
    exact .lazyPair _
  · exact { stores with lazyPairs := stores.lazyPairs.push ((older.le ρ).lazyPairs same) }

theorem lazyPair (ref : Nat) :
    ρ.Follows c LazyPairs (Run.lazyPair ref) (Run.lazyPair ref) :=
  held fun _ _ _ stores => stores.lazyPairs ref

theorem LazyPairs.slot {σ : Renaming} {p q : LazyPair} (same : σ.LazyPairs p q) (side : Side) :
    σ.Slots (p.slot side) (q.slot side) := by
  cases side with
  | car => exact same.car
  | cdr => exact same.cdr

theorem LazyPairs.settle {σ : Renaming} {p q : LazyPair} (same : σ.LazyPairs p q) {v w : Value}
    (values : σ.Values v w) (side : Side) : σ.LazyPairs (p.settle v side) (q.settle w side) := by
  cases side with
  | car => exact ⟨.ready values, same.cdr⟩
  | cdr => exact ⟨same.car, .ready values⟩

theorem settle (ref : Nat) (side : Side) {v w : Value} (same : (ρ.upTo c).Values v w) :
    ρ.Follows c Same (Run.settle ref side v) (Run.settle ref side w) := by
  refine .change fun s t older stores => ⟨⟨Nat.le_refl _, Nat.le_refl _⟩, rfl, ?_⟩
  have values := older.values same
  exact {
    stores with
    lazyPairs := stores.lazyPairs.modify ref fun _ _ held => held.settle values side }

theorem newError {f g : Fault} (same : (ρ.upTo c).Faults f g) :
    ρ.Follows c Same (Run.newError f) (Run.newError g) := by
  refine .change fun s t older stores => ⟨⟨Nat.le_refl _, Nat.le_refl _⟩, ?_, ?_⟩
  · exact stores.errors.size_eq
  · exact { stores with errors := stores.errors.push ((older.le ρ).faults same) }

theorem errorFault (ref : Nat) :
    ρ.Follows c Faults (Run.errorFault ref) (Run.errorFault ref) :=
  held fun _ _ _ stores => stores.errors ref

theorem newInput (p : Input) : ρ.Follows c Values (Run.newInput p) (Run.newInput p) := by
  refine .change fun s t older stores => ⟨⟨Nat.le_refl _, Nat.le_refl _⟩, ?_, ?_⟩
  · dsimp only
    rw [stores.inputs]
    exact .input _
  · exact { stores with inputs := congrArg (·.push p) stores.inputs }

theorem emit (text : String) : ρ.Follows c Same (Run.emit text) (Run.emit text) := by
  refine .change fun s t older stores => ⟨⟨Nat.le_refl _, Nat.le_refl _⟩, rfl, ?_⟩
  exact { stores with out := congrArg (· ++ text) stores.out }

theorem emitError (text : String) : ρ.Follows c Same (Run.emitError text) (Run.emitError text) := by
  refine .change fun s t older stores => ⟨⟨Nat.le_refl _, Nat.le_refl _⟩, rfl, ?_⟩
  exact { stores with err := congrArg (· ++ text) stores.err }

theorem gensym (start : String) : ρ.Follows c Values (Run.gensym start) (Run.gensym start) := by
  refine .change fun s t older stores => ⟨⟨Nat.le_refl _, Nat.le_refl _⟩, ?_, ?_⟩
  · dsimp only
    rw [stores.nextSymbol]
    exact .atom _
  · exact { stores with nextSymbol := congrArg (· + 1) stores.nextSymbol }

end Operations

end Renaming

end LazyLisp
