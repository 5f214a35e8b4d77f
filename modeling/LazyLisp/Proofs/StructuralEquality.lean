import LazyLisp.Eval.Primitive
import LazyLisp.Proofs.Observation
import LazyLisp.Proofs.UnambiguousText
import LazyLisp.Session
import Mathlib.Data.List.Forall2

/-!
Equality of eager values is equality of the data that they denote.

A pair is known by its mark, so values whose pairs are made one after another share a heap, in which
a mark stands for the two halves of one pair. In a heap the walk over two values may stop where it
meets a pair with itself. It goes down where heads nest, and only there it can run out of room; then
it gives no answer at all.
-/

namespace LazyLisp

/-- The halves of the pairs that have been made, each at the place of its mark. -/
abbrev Heap := List (Value × Value)

/-- An eager value without doubles whose pairs are in a heap, and the datum that it denotes. -/
inductive Value.IsTerm (heap : Heap) : Value → Datum → Prop where
  | atom {a : Atom} : (Datum.atom a).floatFree = true → IsTerm heap (.atom a) (.atom a)
  | pair {mark : Nat} {car cdr : Value} {a d : Datum} : heap[mark]? = some (car, cdr) →
      IsTerm heap car a → IsTerm heap cdr d → IsTerm heap (.pair mark car cdr) (.pair a d)

namespace Value.IsTerm

variable {heap : Heap} {v w : Value} {d e : Datum}

theorem unique (first : v.IsTerm heap d) (second : v.IsTerm heap e) : d = e := by
  induction first generalizing e with
  | atom _ =>
    cases second
    rfl
  | pair _ _ _ head tail =>
    cases second with
    | pair _ head' tail' => rw [head head', tail tail']

theorem append (term : v.IsTerm heap d) (more : Heap) : v.IsTerm (heap ++ more) d := by
  induction term with
  | atom plain => exact .atom plain
  | @pair mark car cdr _ _ found _ _ head tail =>
    have inside : mark < heap.length := (List.getElem?_eq_some_iff.mp found).1
    exact .pair (by rw [List.getElem?_append_left inside, found]) head tail

theorem cons (head : v.IsTerm heap d) (tail : w.IsTerm heap e) :
    (Value.pair heap.length v w).IsTerm (heap ++ [(v, w)]) (.pair d e) :=
  .pair (by simp) (head.append _) (tail.append _)

end Value.IsTerm

section NewTerms

variable {heap : Heap}

theorem exists_isTerm_consReversed {items : List Value} {ds : List Datum} {v : Value} {d : Datum}
    (terms : List.Forall₂ (Value.IsTerm heap) items ds) (tail : v.IsTerm heap d) :
    ∃ more, (Value.consReversed heap.length v items).1.IsTerm (heap ++ more)
        (Datum.listWith ds.reverse d) ∧
      (Value.consReversed heap.length v items).2 = (heap ++ more).length := by
  induction items generalizing heap ds v d with
  | nil =>
    cases terms
    exact ⟨[], by simpa [Value.consReversed] using tail, by simp [Value.consReversed]⟩
  | cons item items ih =>
    cases terms with
    | @cons _ a _ ds first terms =>
      have rest : List.Forall₂ (Value.IsTerm (heap ++ [(item, v)])) items ds :=
        terms.imp fun _ _ term => term.append _
      obtain ⟨more, term, next⟩ := ih rest (first.cons tail)
      rw [List.length_append, List.length_singleton] at term next
      refine ⟨(item, v) :: more, ?_, ?_⟩
      · rw [List.append_cons]
        simpa [Datum.listWith, Value.consReversed] using term
      · rw [List.append_cons]
        exact next

theorem exists_isTerm_ofDatum (heap : Heap) {d : Datum} (plain : d.floatFree = true) :
    ∃ more, (Value.ofDatum heap.length d).1.IsTerm (heap ++ more) d ∧
      (Value.ofDatum heap.length d).2 = (heap ++ more).length := by
  -- The items of a list are made before its pairs, so that they are known as terms meanwhile.
  suffices both : (∀ heap : Heap, ∃ more, (Value.ofDatum heap.length d).1.IsTerm (heap ++ more) d ∧
        (Value.ofDatum heap.length d).2 = (heap ++ more).length) ∧
      ∀ (heap : Heap) items ds, List.Forall₂ (Value.IsTerm heap) items ds →
        ∃ more, (Value.ofSpine heap.length items d).1.IsTerm (heap ++ more)
            (Datum.listWith ds.reverse d) ∧
          (Value.ofSpine heap.length items d).2 = (heap ++ more).length from both.1 heap
  induction d with
  | atom a =>
    refine ⟨fun heap => ⟨[], ?_, ?_⟩, fun heap items ds terms => ?_⟩
    · exact .atom plain
    · rw [List.append_nil, Value.ofDatum]
    · exact exists_isTerm_consReversed terms (.atom plain)
  | pair car cdr head tail =>
    obtain ⟨plainHead, plainTail⟩ := Bool.and_eq_true_iff.mp plain
    have spine (heap : Heap) (items : List Value) (ds : List Datum)
        (terms : List.Forall₂ (Value.IsTerm heap) items ds) :
        ∃ more, (Value.ofSpine heap.length items (.pair car cdr)).1.IsTerm (heap ++ more)
            (Datum.listWith ds.reverse (.pair car cdr)) ∧
          (Value.ofSpine heap.length items (.pair car cdr)).2 = (heap ++ more).length := by
      obtain ⟨more, first, next⟩ := (head plainHead).1 heap
      have longer : List.Forall₂ (Value.IsTerm (heap ++ more))
          ((Value.ofDatum heap.length car).1 :: items) (car :: ds) :=
        .cons first (terms.imp fun _ _ term => term.append more)
      obtain ⟨further, term, last⟩ := (tail plainTail).2 (heap ++ more) _ _ longer
      have made : Value.ofSpine heap.length items (.pair car cdr) =
          Value.ofSpine (heap ++ more).length ((Value.ofDatum heap.length car).1 :: items) cdr := by
        rw [Value.ofSpine, ← next]
      refine ⟨more ++ further, ?_, ?_⟩
      · rw [made, ← List.append_assoc]
        simpa [Datum.listWith] using term
      · rw [made, ← List.append_assoc]
        exact last
    exact ⟨fun heap => spine heap [] [] .nil, spine⟩

/-- What is read, and what is put together of terms, is a term once the heap has grown. The next
mark is the place behind the heap, before and after. -/
theorem terms_of_reading_and_cons {s : Store} (place : heap.length = s.nextMark) :
    (∀ d : Datum, d.floatFree = true → ∃ v t more, Run.ofDatum d s = .ok v t ∧
      v.IsTerm (heap ++ more) d ∧ (heap ++ more).length = t.nextMark) ∧
    ∀ {v w : Value} {d e : Datum}, v.IsTerm heap d → w.IsTerm heap e →
      ∃ u t more, Run.cons v w s = .ok u t ∧
        u.IsTerm (heap ++ more) (.pair d e) ∧ (heap ++ more).length = t.nextMark := by
  constructor
  · intro d plain
    obtain ⟨more, term, next⟩ := exists_isTerm_ofDatum heap plain
    rw [place] at term next
    exact ⟨_, _, more, rfl, term, next.symm⟩
  · intro v w d e head tail
    refine ⟨_, _, [(v, w)], rfl, place ▸ head.cons tail, ?_⟩
    simp [place]

end NewTerms

def Datum.headNesting : Datum → Nat
  | .atom _ => 0
  | .pair car cdr => max (car.headNesting + 1) cdr.headNesting

def Datum.FitTogether (room : Option Nat) (d e : Datum) : Prop :=
  ∀ most ∈ room, min d.headNesting e.headNesting ≤ most

section FitTogether

variable {room : Option Nat} {a b d e : Datum}

theorem Datum.FitTogether.items (fit : FitTogether room (.pair a d) (.pair b e)) :
    FitTogether room a b := by
  intro most here
  have fits := fit most here
  simp only [headNesting] at fits
  omega

theorem Datum.FitTogether.heads (fit : FitTogether room (.pair a d) (.pair b e)) :
    ∃ inner, descend room = some inner ∧ FitTogether inner a b := by
  cases room with
  | none => exact ⟨none, rfl, nofun⟩
  | some most =>
    have fits := fit most rfl
    simp only [headNesting] at fits
    cases most with
    | zero => omega
    | succ n =>
      refine ⟨some n, rfl, fun most here => ?_⟩
      cases here
      omega

theorem Datum.FitTogether.tails (fit : FitTogether room (.pair a d) (.pair b e)) :
    FitTogether room d e := by
  intro most here
  have fits := fit most here
  simp only [headNesting] at fits
  omega

end FitTogether

theorem Atom.sameAs_iff {a b : Atom} (plain : (Datum.atom a).floatFree = true)
    (plain' : (Datum.atom b).floatFree = true) : a.sameAs b = true ↔ a = b := by
  cases a with
  | float x => cases plain
  | _ =>
    cases b with
    | float y => cases plain'
    | _ => simp [Atom.sameAs, Atom.number?, Number.sameAs, Number.compare?]

namespace Value

/-- What comparing two eager values says, if there is room for it. -/
def compareEager (room : Option Nat) : Value → Value → Option Bool
  | .pair m a d, .pair n b e =>
    if m == n then some true
    else do
      let inner ← descend room
      if ← compareEager inner a b then compareEager room d e else some false
  | v, w => some (v.equalLeaf w)

section Compare

variable {heap : Heap} {room : Option Nat} {v w x : Value} {d e f : Datum}

theorem compareEager_mark (mark : Nat) (a d b e : Value) :
    compareEager room (.pair mark a d) (.pair mark b e) = some true := by
  simp [compareEager]

theorem compareEager_pair {m n : Nat} (other : m ≠ n) (a d b e : Value) :
    compareEager room (.pair m a d) (.pair n b e) =
      (descend room).bind fun inner => (compareEager inner a b).bind fun heads =>
        if heads then compareEager room d e else some false := by
  rw [compareEager, if_neg (by simpa using other)]
  rfl

theorem compareEager_pair_eq_true {m n : Nat} (other : m ≠ n) {a d b e : Value} :
    compareEager room (.pair m a d) (.pair n b e) = some true ↔ ∃ inner,
      descend room = some inner ∧ compareEager inner a b = some true ∧
        compareEager room d e = some true := by
  rw [compareEager_pair other, Option.bind_eq_some_iff]
  refine exists_congr fun inner => and_congr_right fun _ => ?_
  rcases compareEager inner a b with _ | _ | _ <;> simp

theorem compareEager_iff (first : v.IsTerm heap d) (second : w.IsTerm heap e) {b : Bool}
    (answer : compareEager room v w = some b) : b = true ↔ d = e := by
  induction first generalizing room w e b with
  | atom plain =>
    cases second with
    | atom plain' =>
      cases answer
      simpa [equalLeaf, isSame] using Atom.sameAs_iff plain plain'
    | pair _ _ _ =>
      cases answer
      simp [equalLeaf, isSame]
  | @pair mark car cdr a d found head tail ihHead ihTail =>
    cases second with
    | atom _ =>
      cases answer
      simp [equalLeaf, isSame]
    | @pair mark' _ _ _ _ found' head' tail' =>
      by_cases same : mark = mark'
      · subst same
        cases found.symm.trans found'
        rw [compareEager_mark] at answer
        simp [← Option.some.inj answer, head.unique head', tail.unique tail']
      · rw [compareEager_pair same] at answer
        obtain ⟨inner, -, answer⟩ := Option.bind_eq_some_iff.mp answer
        obtain ⟨heads, compared, answer⟩ := Option.bind_eq_some_iff.mp answer
        have equalHeads := ihHead head' compared
        cases heads with
        | true => simpa [equalHeads.mp rfl] using ihTail tail' answer
        | false =>
          cases answer
          simpa using fun same _ => equalHeads.mpr same

theorem exists_compareEager (first : v.IsTerm heap d) (second : w.IsTerm heap e)
    (fit : Datum.FitTogether room d e) : ∃ b, compareEager room v w = some b := by
  induction first generalizing room w e with
  | atom _ => cases second <;> exact ⟨_, rfl⟩
  | @pair mark car cdr _ _ _ _ _ ihHead ihTail =>
    cases second with
    | atom _ => exact ⟨_, rfl⟩
    | @pair mark' car' cdr' _ _ _ head' tail' =>
      by_cases same : mark = mark'
      · subst same
        exact ⟨true, compareEager_mark ..⟩
      · obtain ⟨inner, deeper, fitHeads⟩ := fit.heads
        obtain ⟨heads, compared⟩ := ihHead head' fitHeads
        rw [compareEager_pair same, deeper, Option.bind_some, compared, Option.bind_some]
        cases heads with
        | true => exact ihTail tail' fit.tails
        | false => exact ⟨false, rfl⟩

theorem compareEager_of_isSame (first : v.IsTerm heap d) (second : w.IsTerm heap e)
    (same : v.isSame w = true) : compareEager room v w = some true := by
  cases first with
  | atom _ =>
    cases second with
    | atom _ => exact congrArg some same
    | pair _ _ _ => cases same
  | @pair mark _ _ _ _ _ _ _ =>
    cases second with
    | atom _ => cases same
    | @pair mark' _ _ _ _ _ _ _ =>
      obtain rfl : mark = mark' := by simpa [isSame] using same
      exact compareEager_mark ..

theorem isSame_self (term : v.IsTerm heap d) : v.isSame v = true := by
  cases term with
  | atom plain => exact (Atom.sameAs_iff plain plain).mpr rfl
  | pair _ _ _ => simp [isSame]

theorem compareEager_comm (first : v.IsTerm heap d) (second : w.IsTerm heap e) :
    compareEager room w v = compareEager room v w := by
  induction first generalizing room w e with
  | atom plain =>
    cases second with
    | atom plain' =>
      have swap : Atom.sameAs _ _ = Atom.sameAs _ _ := Bool.eq_iff_iff.mpr
        ((Atom.sameAs_iff plain' plain).trans (eq_comm.trans (Atom.sameAs_iff plain plain').symm))
      exact congrArg some swap
    | pair _ _ _ => rfl
  | @pair mark car cdr _ _ _ _ _ ihHead ihTail =>
    cases second with
    | atom _ => rfl
    | @pair mark' car' cdr' _ _ _ head' tail' =>
      by_cases same : mark = mark'
      · subst same
        rw [compareEager_mark, compareEager_mark]
      · rw [compareEager_pair same, compareEager_pair (Ne.symm same)]
        simp only [ihHead head', ihTail tail']

/-- Equality goes from one value on to the next with as much room as each of the two steps had. -/
theorem compareEager_trans (first : v.IsTerm heap d) (second : w.IsTerm heap e)
    (third : x.IsTerm heap f) (equal : compareEager room v w = some true)
    (equal' : compareEager room w x = some true) : compareEager room v x = some true := by
  induction first generalizing room w x e f with
  | atom plain =>
    obtain rfl := ((compareEager_iff (.atom plain) second equal).mp rfl).trans
      ((compareEager_iff second third equal').mp rfl)
    cases third with
    | atom plain' => exact congrArg some ((Atom.sameAs_iff plain plain').mpr rfl)
  | @pair mark car cdr _ _ found head tail ihHead ihTail =>
    cases second with
    | atom _ => cases equal
    | @pair mark' car' cdr' _ _ found' head' tail' =>
      cases third with
      | atom _ => cases equal'
      | @pair lastMark lastCar lastCdr _ _ lastFound lastHead lastTail =>
        by_cases same : mark = mark'
        · subst same
          cases found.symm.trans found'
          exact equal'
        · by_cases same' : mark' = lastMark
          · subst same'
            cases found'.symm.trans lastFound
            exact equal
          · obtain ⟨inner, deeper, heads, tails⟩ := (compareEager_pair_eq_true same).mp equal
            obtain ⟨inner', deeper', heads', tails'⟩ := (compareEager_pair_eq_true same').mp equal'
            obtain rfl := Option.some.inj (deeper.symm.trans deeper')
            by_cases sameLast : mark = lastMark
            · subst sameLast
              exact compareEager_mark ..
            · have items := ihHead head' lastHead heads heads'
              have rests := ihTail tail' lastTail tails tails'
              exact (compareEager_pair_eq_true sameLast).mpr ⟨inner, deeper, items, rests⟩

end Compare

end Value

namespace Run

def ofAnswer {α : Type} (put : Bool → α) : Option Bool → Run α
  | some b => pure (put b)
  | none => throw .overflow

theorem ofAnswer_bind {α : Type} (answer : Option Bool) (f : Bool → Run α) :
    ofAnswer id answer >>= f = match answer with
      | some b => f b
      | none => throw .overflow := by
  cases answer with
  | some b => rfl
  | none => rfl

theorem ofAnswer_map {α β : Type} (put : Bool → α) (f : α → β) (answer : Option Bool) :
    f <$> ofAnswer put answer = ofAnswer (f ∘ put) answer := by
  cases answer with
  | some b => rfl
  | none => rfl

theorem ofAnswer_eq_pure_iff {α : Type} {put : Bool → α} (faithful : Function.Injective put)
    {answer : Option Bool} {b : Bool} :
    ofAnswer put answer = pure (put b) ↔ answer = some b := by
  constructor
  · intro same
    have atStart := congrFun same Store.empty
    cases answer with
    | some c =>
      obtain ⟨said, -⟩ := EStateM.Result.ok.inj atStart
      rw [faithful said]
    | none => cases atStart
  · rintro rfl
    rfl

end Run

namespace Engine

variable {heap : Heap} {v w : Value} {d e : Datum}

theorem equalEager_eq (first : v.IsTerm heap d) (second : w.IsTerm heap e) (hop : Comparison)
    (meeting : Meeting) (room : Option Nat) :
    equalEager hop meeting room v w = Run.ofAnswer id (Value.compareEager room v w) := by
  induction first generalizing meeting room w e with
  | atom _ => cases second <;> rfl
  | @pair mark car cdr _ _ _ _ _ ihHead ihTail =>
    cases second with
    | atom _ => rfl
    | @pair mark' car' cdr' _ _ _ head' tail' =>
      by_cases same : mark = mark'
      · subst same
        simp [equalEager, Value.compareEager_mark, Run.ofAnswer]
      · rw [Value.compareEager_pair same]
        simp only [equalEager, beq_iff_eq, same, if_false]
        cases descend room with
        | none => rfl
        | some inner =>
          simp only [ihHead head', ihTail tail', Run.ofAnswer_bind, Option.bind_some]
          rcases Value.compareEager inner car car' with _ | _ | _ <;> rfl

theorem equalWithin_eq (m : Engine) (first : v.IsTerm heap d) (second : w.IsTerm heap e)
    (fuel : Nat) (meeting : Meeting) (room : Option Nat) :
    m.equalWithin (fuel + 1) meeting room v w = Run.ofAnswer id (Value.compareEager room v w) :=
  equalEager_eq first second _ meeting room

theorem equal_eq (m : Engine) (first : v.IsTerm heap d) (second : w.IsTerm heap e) :
    m.equal v w = Run.ofAnswer id (Value.compareEager m.room v w) := by
  have walk := m.equalWithin_eq first second m.fuel .items m.room
  cases first with
  | atom _ =>
    cases second with
    | atom _ => rfl
    | pair _ _ _ => exact walk
  | pair _ _ _ => exact walk

end Engine

namespace Primitive

def verdict (b : Bool) : Step := .value (.ofBool b)

theorem verdict_injective : Function.Injective verdict := by
  intro b c same
  cases b <;> cases c <;> first | rfl | simp [verdict, Value.ofBool, Atom.ofBool] at same

section Equal

variable (m : Engine) (call : Caller) (frame : FrameId) {heap : Heap} {v w x : Value}
  {d e f : Datum}

theorem run_equal (first : v.IsTerm heap d) (second : w.IsTerm heap e) :
    run m call .equal frame [v, w] = Run.ofAnswer verdict (Value.compareEager m.room v w) := by
  have compared : run m call .equal frame [v, w] = value (Value.ofBool <$> m.equal v w) := by
    rw [map_eq_pure_bind]
    rfl
  rw [compared, value, m.equal_eq first second, Run.ofAnswer_map, Run.ofAnswer_map]
  rfl

/-- A run answers whether something holds, or it overflows for want of room. -/
def Answers {α : Type} (x : Run α) (put : Bool → α) (fits holds : Prop) : Prop :=
  (∃ b, x = pure (put b) ∧ (b = true ↔ holds)) ∨ x = throw .overflow ∧ ¬ fits

theorem answers_ofAnswer {α : Type} (put : Bool → α) (room : Option Nat) (first : v.IsTerm heap d)
    (second : w.IsTerm heap e) :
    Answers (Run.ofAnswer put (Value.compareEager room v w)) put (Datum.FitTogether room d e)
      (d = e) := by
  cases answer : Value.compareEager room v w with
  | some b => exact .inl ⟨b, rfl, Value.compareEager_iff first second answer⟩
  | none =>
    refine .inr ⟨rfl, fun fit => ?_⟩
    obtain ⟨b, compared⟩ := Value.exists_compareEager first second fit
    cases answer.symm.trans compared

theorem run_equal_pair {p q : Nat} {a b c t : Value} (first : (Value.pair p a b).IsTerm heap d)
    (second : (Value.pair q c t).IsTerm heap e) (fit : Datum.FitTogether m.room d e) :
    ∃ heads tails, run m call .equal frame [a, c] = pure (verdict heads) ∧
      run m call .equal frame [b, t] = pure (verdict tails) ∧
      run m call .equal frame [.pair p a b, .pair q c t] = pure (verdict (heads && tails)) := by
  obtain ⟨both, compared⟩ := Value.exists_compareEager first second fit
  have whole := Value.compareEager_iff first second compared
  rw [run_equal m call frame first second, compared]
  cases first with
  | pair _ head tail =>
    cases second with
    | pair _ head' tail' =>
      obtain ⟨heads, items⟩ := Value.exists_compareEager head head' fit.items
      obtain ⟨tails, rests⟩ := Value.exists_compareEager tail tail' fit.tails
      refine ⟨heads, tails, ?_, ?_, ?_⟩
      · rw [run_equal m call frame head head', items]
        rfl
      · rw [run_equal m call frame tail tail', rests]
        rfl
      · have conjunction : both = (heads && tails) := by
          rw [Bool.eq_iff_iff, whole, Datum.pair.injEq, Bool.and_eq_true,
            Value.compareEager_iff head head' items, Value.compareEager_iff tail tail' rests]
        rw [conjunction]
        rfl

/-- The walk over two terms and `equal?` answer whether the terms denote the same datum, at least if
the heads in one of them nest no deeper than there is room, and otherwise they give no answer or the
right one. So `equal?` is an equivalence that `eq?` implies, and it compares pairs by halves. -/
theorem equal_decides_denotations (first : v.IsTerm heap d) (second : w.IsTerm heap e)
    (third : x.IsTerm heap f) :
    let equal (v w : Value) := run m call .equal frame [v, w]
    let same (v w : Value) := run m call .same frame [v, w]
    let yes : Run Step := pure (verdict true)
    (∀ fuel meeting room, Answers (m.equalWithin (fuel + 1) meeting room v w) id
      (Datum.FitTogether room d e) (d = e)) ∧
    Answers (equal v w) verdict (Datum.FitTogether m.room d e) (d = e) ∧
    equal v v = yes ∧ equal w v = equal v w ∧
    (equal v w = yes → equal w x = yes → equal v x = yes) ∧
    (same v w = yes → equal v w = yes) ∧
    ∀ {p q a b c t}, v = .pair p a b → w = .pair q c t → Datum.FitTogether m.room d e →
      ∃ heads tails, equal a c = pure (verdict heads) ∧ equal b t = pure (verdict tails) ∧
        equal v w = pure (verdict (heads && tails)) := by
  intro equal same yes
  have said {v w : Value} {d e : Datum} (first : v.IsTerm heap d) (second : w.IsTerm heap e) :
      equal v w = yes ↔ Value.compareEager m.room v w = some true := by
    rw [← Run.ofAnswer_eq_pure_iff verdict_injective, ← run_equal m call frame first second]
  refine ⟨?_, ?_, ?_, ?_, ?_, ?_, ?_⟩
  · intro fuel meeting room
    rw [m.equalWithin_eq first second]
    exact answers_ofAnswer id room first second
  · simp only [equal, run_equal m call frame first second]
    exact answers_ofAnswer verdict m.room first second
  · exact (said first first).mpr
      (Value.compareEager_of_isSame first first (Value.isSame_self first))
  · simp only [equal, run_equal m call frame first second, run_equal m call frame second first,
      Value.compareEager_comm first second]
  · intro firstStep secondStep
    exact (said first third).mpr (Value.compareEager_trans first second third
      ((said first second).mp firstStep) ((said second third).mp secondStep))
  · intro identical
    have answer : Run.ofAnswer verdict (some (v.isSame w)) = pure (verdict true) := identical
    have isSame := Option.some.inj ((Run.ofAnswer_eq_pure_iff verdict_injective).mp answer)
    exact (said first second).mpr (Value.compareEager_of_isSame first second isSame)
  · rintro p q a b c t rfl rfl fit
    exact run_equal_pair m call frame first second fit

end Equal

def couple (mark : Nat) : Value := .pair mark (.atom (.int 1)) (.string "a")

def coupleDatum : Datum := .pair (.atom (.int 1)) (.atom (.string "a"))

/-- A couple with itself, with a copy of it, and the copy with itself. -/
def coupleHeap : Heap :=
  [(.atom (.int 1), .string "a"), (.atom (.int 1), .string "a"), (couple 0, couple 0),
    (couple 0, couple 1), (couple 1, couple 1)]

theorem equal_decides_denotations_couples :
    let m : Engine := .outermost { bareWorld with room := some 2 } 0
    let equal (v w : Value) := run m (fun _ _ _ => throw .outOfFuel) .equal Store.globalFrame [v, w]
    let d : Datum := .pair coupleDatum coupleDatum
    (Value.pair 2 (couple 0) (couple 0)).IsTerm coupleHeap d ∧
    (Value.pair 3 (couple 0) (couple 1)).IsTerm coupleHeap d ∧
    (Value.pair 4 (couple 1) (couple 1)).IsTerm coupleHeap d ∧
    Datum.FitTogether m.room d d ∧
    equal (.pair 2 (couple 0) (couple 0)) (.pair 3 (couple 0) (couple 1)) = pure (verdict true) ∧
    equal (.pair 3 (couple 0) (couple 1)) (.pair 2 (couple 0) (couple 0)) = pure (verdict true) ∧
    ∃ heads tails, equal (couple 0) (couple 0) = pure (verdict heads) ∧
      equal (couple 0) (couple 1) = pure (verdict tails) ∧ (heads && tails) = true := by
  intro m equal d
  have copy (mark : Nat) (found : coupleHeap[mark]? = some (.atom (.int 1), .string "a")) :
      (couple mark).IsTerm coupleHeap coupleDatum := .pair found (.atom rfl) (.atom rfl)
  have first : (Value.pair 2 (couple 0) (couple 0)).IsTerm coupleHeap d :=
    .pair rfl (copy 0 rfl) (copy 0 rfl)
  have second : (Value.pair 3 (couple 0) (couple 1)).IsTerm coupleHeap d :=
    .pair rfl (copy 0 rfl) (copy 1 rfl)
  have third : (Value.pair 4 (couple 1) (couple 1)).IsTerm coupleHeap d :=
    .pair rfl (copy 1 rfl) (copy 1 rfl)
  have fit : Datum.FitTogether m.room d d := by
    intro most room
    cases room
    decide
  obtain ⟨-, answers, -, swapped, -, -, halves⟩ :=
    equal_decides_denotations m (fun _ _ _ => throw .outOfFuel) Store.globalFrame first second third
  obtain ⟨heads, tails, items, rests, whole⟩ := halves rfl rfl fit
  rcases answers with ⟨b, answer, right⟩ | ⟨-, unfit⟩
  · obtain rfl : b = true := right.mpr rfl
    have both : (heads && tails) = true :=
      verdict_injective (EStateM.Result.ok.inj (congrFun (whole.symm.trans answer) Store.empty)).1
    exact ⟨first, second, third, fit, answer, swapped.trans answer, heads, tails, items, rests,
      both⟩
  · exact absurd fit unfit

end Primitive

def Datum.nest : Nat → Datum
  | 0 => .nil
  | n + 1 => .pair (nest n) .nil

def Value.nest (mark : Nat) : Nat → Value
  | 0 => .nil
  | n + 1 => .pair (mark + n) (nest mark n) .nil

@[simp]
theorem Value.nest_succ (mark n : Nat) :
    nest mark (n + 1) = .pair (mark + n) (nest mark n) .nil := rfl

theorem Datum.floatFree_nest (n : Nat) : (nest n).floatFree = true := by
  induction n with
  | zero => rfl
  | succ n ih => exact Bool.and_eq_true_iff.mpr ⟨ih, rfl⟩

theorem Value.ofDatum_nest (mark n : Nat) :
    ofDatum mark (Datum.nest n) = (nest mark n, mark + n) := by
  induction n with
  | zero => rfl
  | succ n ih => simp [Datum.nest, ofDatum, ih, ofSpine, consReversed, Nat.add_assoc]

theorem Value.compareEager_nest {p q : Nat} (other : p ≠ q) (n : Nat) :
    compareEager (some n) (nest p (n + 1)) (nest q (n + 1)) = none := by
  induction n with
  | zero =>
    rw [nest_succ, nest_succ, compareEager_pair (by omega)]
    rfl
  | succ n ih =>
    rw [nest_succ p, nest_succ q, compareEager_pair (by omega), descend, Option.bind_some, ih,
      Option.bind_none]

theorem exists_isTerm_nest (n : Nat) : ∃ heap : Heap,
    (Value.nest 0 n).IsTerm heap (Datum.nest n) ∧ (Value.nest n n).IsTerm heap (Datum.nest n) := by
  obtain ⟨heap, first, next⟩ := exists_isTerm_ofDatum [] (Datum.floatFree_nest n)
  obtain ⟨more, second, -⟩ := exists_isTerm_ofDatum heap (Datum.floatFree_nest n)
  simp only [List.nil_append, List.length_nil, Value.ofDatum_nest, Nat.zero_add] at first next
  rw [← next, Value.ofDatum_nest] at second
  exact ⟨heap ++ more, first.append more, second⟩

namespace Primitive

def sessionEngine : Engine :=
  .outermost { bareWorld with room := some Session.room } Session.ampleFuel

/-- A nest that is read twice gives two terms that denote the same datum and are not found equal. -/
theorem equal_overflows_nest :
    (∃ heap : Heap,
      (Value.nest 0 (Session.room + 1)).IsTerm heap (Datum.nest (Session.room + 1)) ∧
      (Value.nest (Session.room + 1) (Session.room + 1)).IsTerm heap
        (Datum.nest (Session.room + 1))) ∧
    run sessionEngine (fun _ _ _ => throw .outOfFuel) .equal Store.globalFrame
        [Value.nest 0 (Session.room + 1), Value.nest (Session.room + 1) (Session.room + 1)] =
      throw .overflow ∧
    (throw .overflow : Run Step) ≠ pure (verdict true) := by
  obtain ⟨heap, first, second⟩ := exists_isTerm_nest (Session.room + 1)
  refine ⟨⟨heap, first, second⟩, ?_, fun same => nomatch congrFun same Store.empty⟩
  rw [run_equal sessionEngine _ _ first second]
  exact congrArg (Run.ofAnswer verdict)
    (Value.compareEager_nest (Nat.succ_ne_zero Session.room).symm Session.room)

end Primitive

end LazyLisp
