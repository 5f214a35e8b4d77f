import LazyLisp.Proofs.ListLibrary

/-!
The loops of the list library.

A fold calls a procedure once for each item, and between two calls it only allocates. What holds of
the store and of what has been passed on is an invariant that the caller chooses: it has to survive
allocation, and each call has to reestablish it.
-/

namespace LazyLisp

section Rules

variable {k : Nat} {w : World} {room : Option Nat} {frame : FrameId} {s t : Store}
  {Q : Value → Store → Prop} {bindings : List (String × Value)}

theorem YieldsAll.mono {codes : List Datum} {P R : List Value → Store → Prop}
    (yields : YieldsAll w room codes frame s P) (implies : ∀ vs t, P vs t → R vs t) :
    YieldsAll w room codes frame s R := by
  induction codes generalizing s P R with
  | nil => exact implies [] s yields
  | cons code codes ih =>
    refine Yields.mono yields fun v t rest => ?_
    exact ih rest fun vs u holds => implies (v :: vs) u holds

theorem Yields.variable (scope : Scope s frame bindings) (fits : Fits (k + 1) room) {name : String}
    {v : Value} (bound : bindings.lookup name = some v) (holds : Q v s) :
    Yields w room (.symbol name) frame s Q := by
  obtain ⟨owner, found⟩ := scope.find?_of_bound _ bound
  exact .symbol fits found holds

theorem Yields.primitive (scope : Scope s frame bindings) (loaded : s.Loaded)
    (fits : Fits (k + 2) room) {p : Primitive} (member : p ∈ Library.primitives)
    (free : bindings.lookup p.name = none) {codes : List Datum}
    (yields : YieldsAll w (lower 1 room) codes frame s fun vs t =>
      s.Retains t ∧ ∃ v u, (∀ m again, p.run m again frame vs t = .ok (.value v) u) ∧ Q v u) :
    Yields w room (.list (.symbol p.name :: codes)) frame s Q := by
  obtain ⟨ref, bound, held⟩ := loaded.primitives p member
  obtain ⟨owner, found⟩ := scope.find?_of_free _ free bound
  have plain := Library.ofName?_eq_none p.name (Library.mem_names_of_primitive member)
  refine .call fits plain found ⟨ref, _, rfl, held, rfl⟩ (yields.mono ?_)
  rintro vs t ⟨kept, v, u, ran, holds⟩
  exact .primitive fits (kept ref _ held) ran holds

/-- A form that calls a procedure of the prelude. -/
theorem Yields.procedure (scope : Scope s frame bindings) (fits : Fits (k + 2) room)
    {p : LibraryProcedure} (binds : s.Binds p) (plain : SpecialForm.ofName? p.name = none)
    (free : bindings.lookup p.name = none) {codes : List Datum}
    (yields : ∀ ref, s.Has p ref → YieldsAll w (lower 1 room) codes frame s fun vs t =>
      YieldsCall w room (.procedure ref) vs frame t Q) :
    Yields w room (.list (.symbol p.name :: codes)) frame s Q := by
  obtain ⟨ref, bound, has⟩ := binds
  obtain ⟨owner, found⟩ := scope.find?_of_free _ free bound
  exact .call fits plain found has.canCall (yields ref has)

/-- A form that calls one of the procedures of the library. -/
theorem Yields.library (scope : Scope s frame bindings) (loaded : s.Loaded)
    (fits : Fits (k + 2) room) {p : LibraryProcedure} (member : p ∈ Library.procedures)
    (free : bindings.lookup p.name = none) {codes : List Datum}
    (yields : ∀ ref, s.Has p ref → YieldsAll w (lower 1 room) codes frame s fun vs t =>
      YieldsCall w room (.procedure ref) vs frame t Q) :
    Yields w room (.list (.symbol p.name :: codes)) frame s Q :=
  .procedure scope fits (loaded.procedures p member)
    (Library.ofName?_eq_none p.name (Library.mem_names_of_procedure member)) free yields

theorem Yields.car (scope : Scope s frame bindings) (loaded : s.Loaded) (fits : Fits (k + 2) room)
    {name : String} {mark : Nat} {a d : Value}
    (bound : bindings.lookup name = some (.pair mark a d))
    (free : bindings.lookup "car" = none) (holds : Q a s) :
    Yields w room (.list [.symbol "car", .symbol name]) frame s Q := by
  refine .primitive scope loaded fits (p := .car) (by decide) free ?_
  refine .variable scope fits.lower bound ?_
  exact ⟨fun _ _ => id, a, s, fun m again => Primitive.run_car m again frame s mark a d, holds⟩

theorem Yields.cdr (scope : Scope s frame bindings) (loaded : s.Loaded) (fits : Fits (k + 2) room)
    {name : String} {mark : Nat} {a d : Value}
    (bound : bindings.lookup name = some (.pair mark a d))
    (free : bindings.lookup "cdr" = none) (holds : Q d s) :
    Yields w room (.list [.symbol "cdr", .symbol name]) frame s Q := by
  refine .primitive scope loaded fits (p := .cdr) (by decide) free ?_
  refine .variable scope fits.lower bound ?_
  exact ⟨fun _ _ => id, d, s, fun m again => Primitive.run_cdr m again frame s mark a d, holds⟩

@[simp]
theorem isTruthy_ofBool (b : Bool) : (Value.ofBool b).isTruthy = b := by
  cases b <;> rfl

/-- A test whether the value of a variable is a pair. -/
theorem Yields.testPair (scope : Scope s frame bindings) (loaded : s.Loaded)
    (fits : Fits (k + 3) room) {name : String} {v : Value} (bound : bindings.lookup name = some v)
    (free : bindings.lookup "cons?" = none) {yes no : Datum}
    (yields : Yields w room (bif v.isPair then yes else no) frame s Q) :
    Yields w room (.list [.symbol "if", .list [.symbol "cons?", .symbol name], yes, no]) frame s
      Q := by
  refine .cond fits (.primitive scope loaded fits.lower (p := .isCons) (by decide) free ?_)
  refine .variable scope fits.lower.lower bound ?_
  refine ⟨fun _ _ => id, _, _, fun m again => Primitive.run_isCons m again frame s v, ?_⟩
  rw [isTruthy_ofBool]
  cases isPair : v.isPair with
  | true => simpa [isPair] using yields
  | false => simpa [isPair] using yields

/-- A call of a procedure of the prelude with one parameter list. -/
theorem YieldsCall.procedure {p : LibraryProcedure} {ref : Nat} (has : s.Has p ref)
    (present : Store.globalFrame < s.frames.size) (fits : Fits (k + 2) room) {names : List String}
    {doc : String} {body : Datum} (shape : p.shape = .closure ⟨names, none⟩ doc body)
    (distinct : names.Nodup) {args : List Value} (count : names.length = args.length)
    (yields : ∀ i t, Enters s Store.globalFrame (names.zip args) i t → Yields w room body i t Q) :
    YieldsCall w room (.procedure ref) args frame s Q := by
  obtain ⟨q, held, makes⟩ := has
  rw [shape] at makes
  cases q with
  | closure c => exact .closure fits held makes present distinct count yields
  | _ => exact makes.elim

theorem YieldsCall.library {p : LibraryProcedure} {ref : Nat} (has : s.Has p ref)
    (loaded : s.Loaded) (fits : Fits (k + 2) room) {names : List String} {doc : String}
    {body : Datum} (shape : p.shape = .closure ⟨names, none⟩ doc body) (distinct : names.Nodup)
    {args : List Value} (count : names.length = args.length)
    (yields : ∀ i t, Enters s Store.globalFrame (names.zip args) i t → t.Loaded →
      Yields w room body i t Q) :
    YieldsCall w room (.procedure ref) args frame s Q := by
  refine .procedure has loaded.globalFrame_lt fits shape distinct count fun i t enters => ?_
  exact yields i t enters (loaded.allocates enters.allocates)

/-- A call of a procedure of the library with several parameter lists. -/
theorem YieldsCall.libraryClause {p : LibraryProcedure} {ref : Nat} (has : s.Has p ref)
    (loaded : s.Loaded) (fits : Fits (k + 2) room) {doc : String}
    {clauses : List (Signature × Datum)} (shape : p.shape = .cases doc clauses) {args : List Value}
    {names : List String} {body : Datum}
    (selected : clauses.find? (·.1.accepts args.length) = some (⟨names, none⟩, body))
    (distinct : names.Nodup) (count : names.length = args.length)
    (yields : ∀ i t, Enters s Store.globalFrame (names.zip args) i t → t.Loaded →
      Yields w room body i t Q) :
    YieldsCall w room (.procedure ref) args frame s Q := by
  obtain ⟨q, held, makes⟩ := has
  rw [shape] at makes
  cases q with
  | cases closures name doc =>
    obtain ⟨c, chosen, isMatch⟩ := Shape.ClausesMatch.find? makes selected
    refine .clause fits held chosen isMatch loaded.globalFrame_lt distinct count ?_
    intro i t enters
    exact yields i t enters (loaded.allocates enters.allocates)
  | _ => exact makes.elim

/-- A call of a procedure of the library that takes all arguments in one list. -/
theorem YieldsCall.libraryVariadic {p : LibraryProcedure} {ref : Nat} (has : s.Has p ref)
    (loaded : s.Loaded) (fits : Fits (k + 2) room) {name doc : String} {body : Datum}
    (shape : p.shape = .closure ⟨[], some name⟩ doc body) {args : List Value}
    (yields : ∀ list i t, Spine list args .nil → Enters s Store.globalFrame [(name, list)] i t →
      t.Loaded → Yields w room body i t Q) :
    YieldsCall w room (.procedure ref) args frame s Q := by
  obtain ⟨q, held, makes⟩ := has
  rw [shape] at makes
  cases q with
  | closure c =>
    refine .variadic fits held makes loaded.globalFrame_lt ?_
    intro list i t spine enters
    exact yields list i t spine enters (loaded.allocates enters.allocates)
  | _ => exact makes.elim

end Rules

/-- How a procedure is called along a list: its arguments at an item, and what is passed on behind
the item. A call gets nothing but the item and values that are passed on. -/
structure Walk (σ : Type) where
  args : σ → Value → List Value
  next : σ → Value → Value → σ
  /-- The values that are passed on to the next call. -/
  carried : σ → List Value
  args_carried : ∀ a x, ∀ v ∈ args a x, v ∈ carried a ∨ v = x
  next_carried : ∀ a x u, ∀ v ∈ carried (next a x u), v ∈ carried a ∨ v = u

namespace Walk

def foldLeft : Walk Value where
  args a x := [a, x]
  next _ _ v := v
  carried a := [a]
  args_carried := by simp
  next_carried := by simp

def foldRight : Walk Value where
  args a x := [x, a]
  next _ _ v := v
  carried a := [a]
  args_carried := by grind
  next_carried := by simp

def map : Walk (List Value) where
  args _ x := [x]
  next ys _ v := ys ++ [v]
  carried _ := []
  args_carried := by simp
  next_carried := by simp

def filter : Walk (List Value) where
  args _ x := [x]
  next ys x v := if v.isTruthy then ys ++ [x] else ys
  carried _ := []
  args_carried := by simp
  next_carried := by simp

/-- An invariant of the calls of `f` along a list, of the items that are left and of what is passed
on. -/
structure Invariant {σ : Type} (k : Walk σ) (w : World) (room : Option Nat) (f : Value)
    (J : Hidden → List Value → σ → Store → Prop) : Prop where
  loaded : ∀ {h items a s}, J h items a s → s.Loaded
  allocate : ∀ {h items a s t}, J h items a s → Allocates s t → J (h.hide s t) items a t
  call : ∀ {h x items a s frame}, J h (x :: items) a s → h.frames frame →
    frame < s.frames.size → YieldsCall w room f (k.args a x) frame s fun v t =>
      ∃ h' : Hidden, h.Onward s h' t ∧ J h' items (k.next a x v) t

/-- Calls that only allocate have to keep a condition that allocation keeps. -/
theorem Invariant.ofAllocating {σ : Type} {k : Walk σ} {w : World} {room : Option Nat} {f : Value}
    {P : List Value → σ → Store → Prop} (loaded : ∀ {items a s}, P items a s → s.Loaded)
    (allocate : ∀ {items a s t}, P items a s → Allocates s t → P items a t)
    (call : ∀ {x items a s frame}, P (x :: items) a s →
      YieldsCall w room f (k.args a x) frame s fun v t =>
        Allocates s t ∧ P items (k.next a x v) t) :
    k.Invariant w room f fun _ => P where
  loaded := loaded
  allocate := allocate
  call start _ _ := (call start).mono fun _ _ ended =>
    ⟨_, Hidden.onward_of_allocates ended.1 _, ended.2⟩

end Walk

section Folds

variable {k : Nat} {w : World} {room : Option Nat} {s : Store} {f xs : Value} {items : List Value}
  {J : Hidden → List Value → Value → Store → Prop} {h : Hidden}

/-- `fold-left` keeps an invariant of the calls. -/
theorem yields_foldLeft (invariant : Walk.foldLeft.Invariant w (lower 1 room) f J)
    (fits : Fits (k + 4) room) (spine : Spine xs items .nil) {acc : Value} (start : J h items acc s)
    {ref : Nat} (has : s.Has Library.foldLeft ref) (frame : FrameId) :
    YieldsCall w room (.procedure ref) [f, acc, xs] frame s fun v t =>
      ∃ h' : Hidden, h.Onward s h' t ∧ J h' [] v t := by
  induction items generalizing h acc s xs ref frame with
  | nil =>
    cases spine
    refine .library has (invariant.loaded start) fits rfl (by decide) rfl ?_
    intro i t enters loaded
    have scope := enters.scopeGlobal
    refine .testPair scope loaded fits rfl rfl (Yields.variable scope fits rfl ?_)
    have made := enters.allocates
    exact ⟨_, Hidden.onward_of_allocates made h, invariant.allocate start made⟩
  | cons x items ih =>
    rcases spine with _ | @⟨mark, _, _, rest, _, spine⟩
    refine .library has (invariant.loaded start) fits rfl (by decide) rfl ?_
    intro i t enters loaded
    have shields := Hidden.shields_enters enters h
    have scope := shields.scope
    have current := invariant.allocate start enters.allocates
    refine .testPair scope loaded fits rfl rfl ?_
    refine Yields.library scope loaded fits (p := Library.foldLeft) (.head _) rfl ?_
    intro ref has
    refine .variable scope fits.lower rfl ?_
    -- The call comes before the rest of the list is taken, and leaves the frame alone.
    have isHidden := Hidden.hide_enters enters h
    obtain ⟨v, u, called, h', onward, next⟩ := invariant.call current isHidden enters.inside
    obtain ⟨owner, found⟩ := scope.find?_of_bound "f" rfl
    refine .call fits.lower rfl found called.canCall ?_
    refine .variable scope fits.lower.lower rfl ?_
    refine .car scope loaded fits.lower.lower rfl rfl ?_
    refine ⟨v, u, called, ?_⟩
    have scope := (shields.onward onward).scope
    refine .cdr scope (invariant.loaded next) fits.lower rfl rfl ?_
    refine (ih spine next (has.kept onward.procedures) i).mono ?_
    rintro result z ⟨h'', further, done⟩
    have soFar := (Hidden.onward_of_allocates enters.allocates h).trans onward
    exact ⟨h'', soFar.trans further, done⟩

section Closures

variable {bindings : List (String × Value)} {a b : String} {body : Datum} {i : FrameId}
  (loaded : ∀ {h items acc s}, J h items acc s → s.Loaded)
  (allocate : ∀ {h items acc s t}, J h items acc s → Allocates s t → J (h.hide s t) items acc t)
  (each : ∀ {h : Hidden} {x items acc s j}, J h (x :: items) acc s →
    h.Shields s j ([(a, acc), (b, x)] ++ bindings) → h.frames j → j < s.frames.size →
    Yields w (lower 1 room) body j s fun v t =>
      ∃ h' : Hidden, h.Onward s h' t ∧ J h' items v t)

include loaded allocate each

/-- `fold-left` with a closure keeps what the body of the closure keeps. -/
theorem yields_foldLeft_closure (fits : Fits (k + 4) room) (spine : Spine xs items .nil)
    {acc : Value} (start : J h items acc s) (shields : h.Shields s i bindings)
    (inside : i < s.frames.size) {closure : Nat} {c : Closure}
    (held : s.procedures[closure]? = some (.closure c))
    (isMatch : c.Matches ⟨[a, b], none⟩ body i) (distinct : [a, b].Nodup) {ref : Nat}
    (has : s.Has Library.foldLeft ref) (frame : FrameId) :
    YieldsCall w room (.procedure ref) [.procedure closure, acc, xs] frame s fun v t =>
      ∃ h' : Hidden, h.Onward s h' t ∧ J h' [] v t := by
  have invariant : Walk.foldLeft.Invariant w (lower 1 room) (.procedure closure)
      fun h items acc s => J h items acc s ∧ h.Shields s i bindings ∧ i < s.frames.size ∧
        s.procedures[closure]? = some (.closure c) := by
    refine ⟨fun holds => loaded holds.1, ?_, ?_⟩
    · rintro h items acc s t ⟨holds, shields, inside, held⟩ made
      exact ⟨allocate holds made, shields.allocates made,
        Nat.lt_of_lt_of_le inside made.frames_size, made.procedures _ _ held⟩
    · rintro h x items acc s frame ⟨holds, shields, inside, held⟩ - -
      refine .closure fits.lower held isMatch inside distinct rfl ?_
      intro j t enters
      have current := allocate holds enters.allocates
      have isHidden := Hidden.hide_enters enters h
      refine (each current (shields.enters enters) isHidden enters.inside).mono ?_
      rintro v u ⟨h', onward, next⟩
      have soFar := (Hidden.onward_of_allocates enters.allocates h).trans onward
      exact ⟨h', soFar, next, shields.onward soFar, Nat.lt_of_lt_of_le inside soFar.size,
        soFar.procedures _ _ held⟩
  refine (yields_foldLeft invariant fits spine ⟨start, shields, inside, held⟩ has frame).mono ?_
  rintro v t ⟨h', onward, ended, -⟩
  exact ⟨h', onward, ended⟩

end Closures

theorem yields_reverse (fits : Fits (k + 4) room) (loaded : s.Loaded) (spine : Spine xs items .nil)
    {ref : Nat} (has : s.Has Library.reverse ref) (frame : FrameId) :
    YieldsCall w room (.procedure ref) [xs] frame s fun v t =>
      Spine v items.reverse .nil ∧ Allocates s t := by
  refine .library has loaded fits rfl (by decide) rfl ?_
  intro i t enters loaded
  have shields := Hidden.shields_enters enters .nothing
  refine .library shields.scope loaded fits (p := Library.foldLeft) (by simp [Library.procedures])
    rfl ?_
  intro foldLeft has
  refine .lambda fits.lower ?_
  intro c closure u isMatch made held
  have shields := shields.allocates made
  refine .quote fits.lower (.variable shields.scope fits.lower rfl ?_)
  let J := fun (_ : Hidden) (rest : List Value) acc s =>
    Allocates u s ∧ ∃ passed, items = passed ++ rest ∧ Spine acc passed.reverse .nil
  have start : Allocates u u ∧ ∃ passed, items = passed ++ items ∧
      Spine .nil passed.reverse .nil := ⟨.refl u, [], rfl, .nil⟩
  refine (yields_foldLeft_closure (J := J) ?_ ?_ ?_ fits spine start shields
    (Nat.lt_of_lt_of_le enters.inside made.frames_size) held isMatch (by decide)
    (has.kept made.procedures) i).mono ?_
  · rintro h rest acc s ⟨allocates, -⟩
    exact (loaded.allocates made).allocates allocates
  · rintro h rest acc s t ⟨allocates, passed⟩ further
    exact ⟨allocates.trans further, passed⟩
  · rintro h x rest acc s j ⟨allocates, passed, rfl, collected⟩ shields - -
    have loaded := (loaded.allocates made).allocates allocates
    have scope := shields.scope
    refine .primitive scope loaded fits.lower (p := .cons) (by decide) rfl ?_
    refine .variable scope fits.lower.lower rfl (.variable scope fits.lower.lower rfl ?_)
    refine ⟨fun _ _ => id, _, _, fun m again => Primitive.run_cons m again j s x acc, ?_⟩
    have consed := Allocates.mark s 1
    refine ⟨_, Hidden.onward_of_allocates consed h, allocates.trans consed, passed ++ [x], ?_, ?_⟩
    · simp
    · rw [List.reverse_append]
      exact .cons collected
  · rintro v z ⟨_, -, allocates, passed, whole, collected⟩
    rw [List.append_nil] at whole
    subst whole
    exact ⟨collected, (enters.allocates.trans made).trans allocates⟩

/-- `fold-right` keeps an invariant of the calls, which start at the last item. -/
theorem yields_foldRight (invariant : Walk.foldRight.Invariant w (lower 1 room) f J)
    (fits : Fits (k + 5) room) (spine : Spine xs items .nil) {acc : Value}
    (start : J h items.reverse acc s) {ref : Nat} (has : s.Has Library.foldRight ref)
    (frame : FrameId) :
    YieldsCall w room (.procedure ref) [f, acc, xs] frame s fun v t =>
      ∃ h' : Hidden, h.Onward s h' t ∧ J h' [] v t := by
  refine .library has (invariant.loaded start) fits rfl (by decide) rfl ?_
  intro i t enters loaded
  have shields := Hidden.shields_enters enters h
  refine .library shields.scope loaded fits (p := Library.foldLeft) (by simp [Library.procedures])
    rfl ?_
  intro foldLeft has
  refine .lambda fits.lower ?_
  intro c closure u isMatch made held
  have shields := shields.allocates made
  refine .variable shields.scope fits.lower rfl ?_
  refine .library shields.scope (loaded.allocates made) fits.lower (p := Library.reverse)
    (by simp [Library.procedures]) rfl ?_
  intro reverse hasReverse
  refine .variable shields.scope fits.lower.lower rfl ?_
  refine (yields_reverse fits.lower (loaded.allocates made) spine hasReverse i).mono ?_
  rintro backwards z ⟨reversed, further⟩
  have current := invariant.allocate (invariant.allocate (invariant.allocate start enters.allocates)
    made) further
  have inside := Nat.lt_of_lt_of_le enters.inside (made.trans further).frames_size
  refine (yields_foldLeft_closure (J := J) invariant.loaded invariant.allocate ?_ fits reversed
    current (shields.allocates further) inside (further.procedures _ _ held) isMatch (by decide)
    (has.kept (made.trans further).procedures) i).mono ?_
  · intro h x rest acc s j current shields isHidden inside
    obtain ⟨v, t, called, next⟩ := invariant.call current isHidden inside
    obtain ⟨owner, found⟩ := shields.scope.find?_of_bound "f" rfl
    refine .call fits.lower rfl found called.canCall ?_
    refine .variable shields.scope fits.lower.lower rfl ?_
    refine .variable shields.scope fits.lower.lower rfl ?_
    exact ⟨v, t, called, next⟩
  · rintro v y ⟨h', onward, ended⟩
    have soFar := ((Hidden.onward_of_allocates enters.allocates h).trans
      (Hidden.onward_of_allocates made _)).trans (Hidden.onward_of_allocates further _)
    exact ⟨h', soFar.trans onward, ended⟩

end Folds

section Collecting

variable {k : Nat} {w : World} {room : Option Nat} {s : Store} {f xs : Value} {items : List Value}
  {J : Hidden → List Value → List Value → Store → Prop} {h : Hidden} {ref : Nat}

theorem yields_collecting {walk : Walk (List Value)} {inner : Option Nat}
    (invariant : walk.Invariant w inner f J) {p : LibraryProcedure} {name doc : String}
    {body : Datum} (shape : p.shape = .closure ⟨[name, "xs"], none⟩ doc (Library.collecting body))
    (parameters : [name, "xs"].Nodup) (list : [(name, f), ("xs", xs)].lookup "xs" = some xs)
    (noReverse : [(name, f), ("xs", xs)].lookup Library.reverse.name = none)
    (noFoldLeft : [(name, f), ("xs", xs)].lookup Library.foldLeft.name = none)
    (each : ∀ {h : Hidden} {x rest ys acc s j}, J h (x :: rest) ys s → Spine acc ys.reverse .nil →
      h.Shields s j [("acc", acc), ("x", x), (name, f), ("xs", xs)] → h.frames j →
      j < s.frames.size → Yields w (lower 1 (lower 1 room)) body j s fun v t =>
        ∃ h' : Hidden, h.Onward s h' t ∧ ∃ zs, Spine v zs.reverse .nil ∧ J h' rest zs t)
    (fits : Fits (k + 5) room) (spine : Spine xs items .nil) (start : J h items [] s)
    (has : s.Has p ref) (frame : FrameId) :
    YieldsCall w room (.procedure ref) [f, xs] frame s fun v t =>
      ∃ h' ys, Spine v ys .nil ∧ J h' [] ys t := by
  refine .library has (invariant.loaded start) fits shape parameters rfl ?_
  intro i t enters loaded
  have shields := Hidden.shields_enters enters h
  refine .library shields.scope loaded fits (p := Library.reverse) (by simp [Library.procedures])
    noReverse ?_
  intro reverse hasReverse
  refine .library shields.scope loaded fits.lower (p := Library.foldLeft)
    (by simp [Library.procedures]) noFoldLeft ?_
  intro foldLeft has
  refine .lambda fits.lower.lower ?_
  intro c closure u isMatch made held
  have shields := shields.allocates made
  refine .quote fits.lower.lower (.variable shields.scope fits.lower.lower list ?_)
  have current := invariant.allocate (invariant.allocate start enters.allocates) made
  have inside := Nat.lt_of_lt_of_le enters.inside made.frames_size
  let K := fun (h : Hidden) rest acc s => ∃ ys, Spine acc ys.reverse .nil ∧ J h rest ys s
  refine (yields_foldLeft_closure (J := K) ?_ ?_ ?_ fits.lower spine ⟨[], .nil, current⟩ shields
    inside held isMatch (by decide) (has.kept made.procedures) i).mono ?_
  · rintro h rest acc s ⟨ys, -, current⟩
    exact invariant.loaded current
  · rintro h rest acc s t ⟨ys, collected, current⟩ further
    exact ⟨ys, collected, invariant.allocate current further⟩
  · rintro h x rest acc s j ⟨ys, collected, current⟩ shields isHidden inside
    exact each current collected shields isHidden inside
  · rintro acc z ⟨h', onward, ys, collected, ended⟩
    have kept := hasReverse.kept fun ref p held =>
      onward.procedures ref p (made.procedures ref p held)
    refine (yields_reverse fits (invariant.loaded ended) collected kept i).mono ?_
    rintro v y ⟨ordered, further⟩
    rw [List.reverse_reverse] at ordered
    exact ⟨_, ys, ordered, invariant.allocate ended further⟩

theorem yields_map (invariant : Walk.map.Invariant w (lower 1 (lower 1 (lower 1 room))) f J)
    (fits : Fits (k + 5) room) (spine : Spine xs items .nil) (start : J h items [] s)
    (has : s.Has Library.map ref) (frame : FrameId) :
    YieldsCall w room (.procedure ref) [f, xs] frame s fun v t =>
      ∃ h' ys, Spine v ys .nil ∧ J h' [] ys t := by
  refine yields_collecting invariant rfl (by decide) rfl rfl rfl ?_ fits spine start has frame
  intro h x rest ys acc s j current collected shields isHidden inside
  obtain ⟨v, t, called, h', onward, next⟩ := invariant.call current isHidden inside
  have scope := shields.scope
  refine .primitive scope (invariant.loaded current) fits.lower.lower (p := .cons) (by decide) rfl
    ?_
  obtain ⟨owner, found⟩ := scope.find?_of_bound "f" rfl
  refine .call fits.lower.lower.lower rfl found called.canCall ?_
  refine .variable scope fits.lower.lower.lower.lower rfl ⟨v, t, called, ?_⟩
  refine .variable (shields.onward onward).scope fits.lower.lower.lower rfl ?_
  refine ⟨onward.procedures, _, _, fun m again => Primitive.run_cons m again j t v acc, ?_⟩
  have consed := Allocates.mark t 1
  refine ⟨_, onward.trans (Hidden.onward_of_allocates consed h'), ys ++ [v], ?_,
    invariant.allocate next consed⟩
  rw [List.reverse_append]
  exact .cons collected

theorem yields_filter (invariant : Walk.filter.Invariant w (lower 1 (lower 1 (lower 1 room))) f J)
    (fits : Fits (k + 5) room) (spine : Spine xs items .nil) (start : J h items [] s)
    (has : s.Has Library.filter ref) (frame : FrameId) :
    YieldsCall w room (.procedure ref) [f, xs] frame s fun v t =>
      ∃ h' ys, Spine v ys .nil ∧ J h' [] ys t := by
  refine yields_collecting invariant rfl (by decide) rfl rfl rfl ?_ fits spine start has frame
  intro h x rest ys acc s j current collected shields isHidden inside
  obtain ⟨v, t, called, h', onward, next⟩ := invariant.call current isHidden inside
  obtain ⟨owner, found⟩ := shields.scope.find?_of_bound "keep?" rfl
  refine .cond fits.lower.lower ?_
  refine .call fits.lower.lower.lower rfl found called.canCall ?_
  refine .variable shields.scope fits.lower.lower.lower.lower rfl ⟨v, t, called, ?_⟩
  have scope := (shields.onward onward).scope
  by_cases truthy : v.isTruthy
  · simp only [Walk.filter, if_pos truthy] at next ⊢
    refine .primitive scope (invariant.loaded next) fits.lower.lower (p := .cons) (by decide) rfl ?_
    refine .variable scope fits.lower.lower.lower rfl ?_
    refine .variable scope fits.lower.lower.lower rfl ?_
    refine ⟨fun _ _ => id, _, _, fun m again => Primitive.run_cons m again j t x acc, ?_⟩
    have consed := Allocates.mark t 1
    refine ⟨_, onward.trans (Hidden.onward_of_allocates consed h'), ys ++ [x], ?_,
      invariant.allocate next consed⟩
    rw [List.reverse_append]
    exact .cons collected
  · simp only [Walk.filter, if_neg truthy] at next ⊢
    exact .variable scope fits.lower.lower rfl ⟨h', onward, ys, collected, next⟩

end Collecting

end LazyLisp
