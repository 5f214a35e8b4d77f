import LazyLisp.Proofs.IteratedLists

/-!
`take` returns the first items of a list, lazy or eager, and forces no more of a lazy list than it
returns.

The loop is the same for all lists. It accesses the head of a pair only if it is to return it, and
the tail only if there is more to return.
-/

namespace LazyLisp

/-- A list of which up to `count` items can be taken. `J side` holds where the next access is to that
half of what is left of the list; it survives allocation, and each access reestablishes it. -/
structure Supply (w : World) (room : Option Nat) (count : Nat)
    (J : Side → Hidden → List Value → Value → Store → Prop) : Prop where
  loaded : ∀ {side h taken xs s}, J side h taken xs s → s.LoadedLazy
  allocate : ∀ {side h taken xs s t}, J side h taken xs s → Allocates s t →
    J side (h.hide s t) taken xs t
  head : ∀ {h taken xs s ref frame}, J .car h taken xs s → taken.length < count →
    xs.isPair = true → s.procedures[ref]? = some (.primitive .car) →
    YieldsCall w (lower 1 (lower 1 room)) (.procedure ref) [xs] frame s fun x t =>
      ∃ h' : Hidden, h.Onward s h' t ∧ J .cdr h' (taken ++ [x]) xs t
  tail : ∀ {h taken xs s ref frame}, J .cdr h taken xs s → taken.length < count →
    s.procedures[ref]? = some (.primitive .cdr) →
    YieldsCall w (lower 1 room) (.procedure ref) [xs] frame s fun rest t =>
      ∃ h' : Hidden, h.Onward s h' t ∧ J .car h' taken rest t

/-- So many items have been taken, or all that there are. The tail of the last pair has not been
accessed. -/
inductive Taken (count : Nat) (J : Side → Hidden → List Value → Value → Store → Prop) :
    List Value → Store → Prop where
  | none {h xs t} : count = 0 → J .car h [] xs t → Taken count J [] t
  | enough {h taken xs t} : taken.length = count → J .cdr h taken xs t → Taken count J taken t
  | all {h taken xs t} : taken.length ≤ count → xs.isPair = false → J .car h taken xs t →
      Taken count J taken t

def Collected (count : Nat) (J : Side → Hidden → List Value → Value → Store → Prop) (v : Value)
    (t : Store) : Prop := ∃ items, Spine v items .nil ∧ Taken count J items t

section Loop

variable {k : Nat} {w : World} {room : Option Nat} {count : Nat}
  {J : Side → Hidden → List Value → Value → Store → Prop} (supply : Supply w room count J)
  (fits : Fits (k + 4) room) {h : Hidden} {s : Store} {xs acc : Value} {taken : List Value}

theorem yields_taken {i : FrameId} {bindings : List (String × Value)} (scope : Scope s i bindings)
    (loaded : s.Loaded) (fits : Fits (k + 4) room) (bound : bindings.lookup "acc" = some acc)
    (free : bindings.lookup "reverse" = none) (collected : Spine acc taken.reverse .nil) :
    Yields w room (.list [.symbol "reverse", .symbol "acc"]) i s fun v t =>
      Spine v taken .nil ∧ Allocates s t := by
  refine .library scope loaded fits (p := Library.reverse) (by simp [Library.procedures]) free ?_
  intro ref has
  refine .variable scope fits.lower bound ?_
  have reversed := yields_reverse (w := w) fits loaded collected has i
  rwa [List.reverse_reverse] at reversed

theorem yields_more {i : FrameId} {n : Int} {bindings : List (String × Value)}
    {Q : Value → Store → Prop} (scope : Scope s i bindings) (loaded : s.LoadedLazy)
    (fits : Fits (k + 4) room) (count : bindings.lookup "n" = some (.atom (.int n)))
    (list : bindings.lookup "xs" = some xs) (noGreater : bindings.lookup ">" = none)
    (noCons : bindings.lookup "cons?" = none) {yes no : Datum}
    (yields : Yields w room (if 0 < n ∧ xs.isPair = true then yes else no) i s Q) :
    Yields w room (.list [.symbol "if", .list [.symbol "and",
      .list [.symbol ">", .symbol "n", .atom (.int 0)], .list [.symbol "cons?", .symbol "xs"]],
      yes, no]) i s Q := by
  refine .cond fits (.conj fits.lower ?_)
  refine .named scope loaded.greater fits.lower.lower noGreater ?_
  refine .variable scope fits.lower.lower.lower count (.int fits.lower.lower.lower ?_)
  refine ⟨rfl, _, _, fun m again _ _ => Primitive.run_gt m again i s n 0, ?_⟩
  rw [isTruthy_ofBool]
  by_cases positive : 0 < n
  · rw [if_pos (by simpa using positive)]
    refine .primitive scope loaded.toLoaded fits.lower (p := .isCons) (by decide) noCons ?_
    refine .variable scope fits.lower.lower list ?_
    refine ⟨fun _ _ => id, _, _, fun m again => Primitive.run_isCons m again i s xs, ?_⟩
    rw [isTruthy_ofBool]
    by_cases isPair : xs.isPair = true
    · rw [if_pos ⟨positive, isPair⟩] at yields
      rwa [if_pos isPair]
    · rw [if_neg fun both => isPair both.2] at yields
      rwa [if_neg isPair]
  · rw [if_neg fun both => positive both.1] at yields
    rw [if_neg (by simpa using positive), if_neg (by simpa using positive)]
    exact yields

include supply fits

/-- Once an item has been taken, the items are returned, or the tail is accessed and the loop goes
on. -/
theorem yields_takeRest {n : Int} (positive : 0 < n) (left : taken.length + (n - 1).toNat = count)
    (next : ∀ {h xs s ref frame}, 0 < n - 1 → J .car h taken xs s → s.Has LazyLibrary.take ref →
      YieldsCall w room (.procedure ref) [.atom (.int (n - 1)), xs, acc] frame s
        (Collected count J))
    (behind : J .cdr h taken xs s) (collected : Spine acc taken.reverse .nil) {i : FrameId}
    {before : Value}
    (shields : h.Shields s i [("acc", acc), ("n", .atom (.int n)), ("xs", xs), ("acc", before)]) :
    Yields w room (.list [.symbol "if", .list [.symbol "=", .symbol "n", .atom (.int 1)],
      .list [.symbol "reverse", .symbol "acc"],
      .list [.symbol "take", .list [.symbol "-", .symbol "n", .atom (.int 1)],
        .list [.symbol "cdr", .symbol "xs"], .symbol "acc"]]) i s (Collected count J) := by
  have loaded := supply.loaded behind
  have scope := shields.scope
  refine .cond fits (.primitive scope loaded.toLoaded fits.lower (p := .numEq) (by decide) rfl ?_)
  refine .variable scope fits.lower.lower rfl (.int fits.lower.lower ?_)
  refine ⟨fun _ _ => id, _, _, fun m again => Primitive.run_numEq m again i s n 1, ?_⟩
  rw [isTruthy_ofBool]
  by_cases last : n = 1
  · rw [if_pos (by simpa using last)]
    refine (yields_taken scope loaded.toLoaded fits rfl rfl collected).mono ?_
    rintro v t ⟨listed, allocates⟩
    exact ⟨_, listed, .enough (by omega) (supply.allocate behind allocates)⟩
  · rw [if_neg (by simpa using last)]
    have more : 0 < n - 1 := by omega
    refine .procedure scope fits (p := LazyLibrary.take)
      (loaded.lazyProcedures _ (by simp [LazyLibrary.procedures])) rfl rfl ?_
    intro take has
    refine .primitive scope loaded.toLoaded fits.lower (p := .sub) (by decide) rfl ?_
    refine .variable scope fits.lower.lower rfl (.int fits.lower.lower ?_)
    refine ⟨fun _ _ => id, _, _, fun m again => Primitive.run_sub m again i s n 1, ?_⟩
    -- More are to be taken, so the tail is accessed.
    refine .callNamed scope (loaded.primitives .cdr (by decide)) fits.lower rfl fun cdr held => ?_
    refine .variable scope fits.lower.lower rfl ?_
    refine (supply.tail behind (by omega) held).mono ?_
    rintro rest t ⟨h', onward, ahead⟩
    refine .variable (shields.onward onward).scope fits.lower rfl ?_
    exact next more ahead (has.kept onward.procedures)

theorem yields_takeCode {n : Int} (positive : 0 < n) (left : taken.length + n.toNat = count)
    (next : ∀ {h taken xs acc s ref frame}, 0 < n - 1 → taken.length + (n - 1).toNat = count →
      J .car h taken xs s → Spine acc taken.reverse .nil → s.Has LazyLibrary.take ref →
      YieldsCall w room (.procedure ref) [.atom (.int (n - 1)), xs, acc] frame s
        (Collected count J))
    (start : J .car h taken xs s) (isPair : xs.isPair = true)
    (collected : Spine acc taken.reverse .nil) {i : FrameId} (inside : i < s.frames.size)
    (shields : h.Shields s i [("n", .atom (.int n)), ("xs", xs), ("acc", acc)]) :
    Yields w room LazyLibrary.takeCode i s (Collected count J) := by
  have loaded := supply.loaded start
  have scope := shields.scope
  refine .binding fits (.primitive scope loaded.toLoaded fits.lower (p := .cons) (by decide) rfl ?_)
  -- Access to the head comes first; it leaves the frame alone.
  refine .callNamed scope (loaded.primitives .car (by decide)) fits.lower.lower rfl ?_
  intro car held
  refine .variable scope fits.lower.lower.lower rfl ?_
  refine (supply.head start (by omega) isPair held).mono ?_
  rintro x t ⟨h', onward, behind⟩
  have shields := shields.onward onward
  refine .variable shields.scope fits.lower.lower rfl ?_
  refine ⟨onward.procedures, _, _, fun m again => Primitive.run_cons m again i t x acc, ?_⟩
  have consed := Allocates.mark t 1
  refine ⟨Nat.lt_of_lt_of_le inside (Nat.le_trans onward.size consed.frames_size), ?_⟩
  intro j u enters
  have shields := (shields.allocates consed).enters enters
  have behind := supply.allocate (supply.allocate behind consed) enters.allocates
  have collected : Spine (.pair t.nextMark x acc) (taken ++ [x]).reverse .nil := by
    rw [List.reverse_append]
    exact .cons collected
  have left : (taken ++ [x]).length + (n - 1).toNat = count := by
    rw [List.length_append, List.length_singleton]
    omega
  refine yields_takeRest supply fits positive left ?_ behind collected shields
  exact fun more ahead has => next more left ahead collected has

theorem yields_take_loop (n : Int) (some : taken = [] ∨ 0 < n) (left : taken.length + n.toNat = count)
    (start : J .car h taken xs s) (collected : Spine acc taken.reverse .nil) {ref : Nat}
    (has : s.Has LazyLibrary.take ref) (frame : FrameId) :
    YieldsCall w room (.procedure ref) [.atom (.int n), xs, acc] frame s (Collected count J) := by
  induction m : n.toNat generalizing n h taken xs acc s ref frame with
  | zero =>
    refine .libraryClause has (supply.loaded start).toLoaded fits rfl rfl (by decide) rfl ?_
    intro i t enters _
    have scope := (Hidden.shields_enters enters h).scope
    have ahead := supply.allocate start enters.allocates
    refine yields_more scope (supply.loaded ahead) fits rfl rfl rfl rfl ?_
    rw [if_neg fun more => by omega]
    refine (yields_taken scope (supply.loaded ahead).toLoaded fits rfl rfl collected).mono ?_
    rintro v z ⟨listed, allocates⟩
    obtain rfl := some.resolve_right (by omega)
    exact ⟨[], listed, .none (by simp at left; omega) (supply.allocate ahead allocates)⟩
  | succ m ih =>
    refine .libraryClause has (supply.loaded start).toLoaded fits rfl rfl (by decide) rfl ?_
    intro i t enters _
    have shields := Hidden.shields_enters enters h
    have ahead := supply.allocate start enters.allocates
    refine yields_more shields.scope (supply.loaded ahead) fits rfl rfl rfl rfl ?_
    by_cases isPair : xs.isPair = true
    · rw [if_pos ⟨by omega, isPair⟩]
      refine yields_takeCode supply fits (by omega) left ?_ ahead isPair collected enters.inside
        shields
      intro h taken xs acc s ref frame more left start collected has
      exact ih (n - 1) (.inr more) left start collected has frame (by omega)
    · rw [if_neg fun both => isPair both.2]
      refine (yields_taken shields.scope (supply.loaded ahead).toLoaded fits rfl rfl collected).mono
        ?_
      rintro v z ⟨listed, allocates⟩
      exact ⟨taken, listed, .all (by omega) (by simpa using isPair)
        (supply.allocate ahead allocates)⟩

theorem yields_take {n : Int} (asked : n.toNat = count) (start : J .car h [] xs s) {ref : Nat}
    (has : s.Has LazyLibrary.take ref) (frame : FrameId) :
    YieldsCall w room (.procedure ref) [.atom (.int n), xs] frame s (Collected count J) := by
  refine .libraryClause has (supply.loaded start).toLoaded fits rfl rfl (by decide) rfl ?_
  intro i t enters _
  have scope := (Hidden.shields_enters enters h).scope
  have ahead := supply.allocate start enters.allocates
  refine .procedure scope fits (p := LazyLibrary.take)
    ((supply.loaded ahead).lazyProcedures _ (by simp [LazyLibrary.procedures])) rfl rfl ?_
  intro again has
  refine .variable scope fits.lower rfl (.variable scope fits.lower rfl (.quote fits.lower ?_))
  exact yields_take_loop supply fits n (.inl rfl) (by simpa using asked) ahead .nil has i

end Loop

def Left : Side → Value → List Value → Prop
  | .car, xs, rest => Spine xs rest .nil
  | .cdr, xs, rest => ∃ mark x tail, xs = .pair mark x tail ∧ Spine tail rest .nil

section Eager

variable {k : Nat} {w : World} {room : Option Nat} {s : Store} {xs : Value} {items : List Value}

theorem supply_eager (fits : Fits (k + 4) room) (loaded : s.LoadedLazy) (items : List Value)
    (count : Nat) :
    Supply w room count fun side _ taken xs t =>
      Allocates s t ∧ ∃ rest, items = taken ++ rest ∧ Left side xs rest where
  loaded holds := loaded.allocates holds.1
  allocate holds further := ⟨holds.1.trans further, holds.2⟩
  head := by
    rintro h taken xs t ref frame ⟨allocates, rest, rfl, left⟩ - isPair held
    cases left with
    | nil => cases isPair
    | @cons mark x rest tail _ left =>
      refine .primitive fits.lower.lower held
        (fun m again => Primitive.run_car m again frame t mark x tail) ⟨h, .refl h t, allocates, ?_⟩
      exact ⟨rest, by simp, mark, x, tail, rfl, left⟩
  tail := by
    rintro h taken xs t ref frame ⟨allocates, rest, rfl, mark, x, tail, rfl, left⟩ - held
    refine .primitive fits.lower held
      (fun m again => Primitive.run_cdr m again frame t mark x tail) ⟨h, .refl h t, allocates, ?_⟩
    exact ⟨rest, rfl, left⟩

theorem yields_take_eager (fits : Fits (k + 4) room) (loaded : s.LoadedLazy)
    (spine : Spine xs items .nil) (n : Int) {ref : Nat} (has : s.Has LazyLibrary.take ref)
    (frame : FrameId) :
    YieldsCall w room (.procedure ref) [.atom (.int n), xs] frame s fun v t =>
      Spine v (items.take n.toNat) .nil ∧ Allocates s t := by
  have supply := supply_eager (w := w) fits loaded items n.toNat
  refine (yields_take supply fits rfl (h := .nothing) ⟨.refl s, items, rfl, spine⟩ has frame).mono ?_
  rintro v t ⟨taken, listed, done⟩
  cases done with
  | none zero holds =>
    rw [zero]
    exact ⟨listed, holds.1⟩
  | enough count holds =>
    obtain ⟨allocates, rest, rfl, -⟩ := holds
    rw [← count, List.take_left]
    exact ⟨listed, allocates⟩
  | all short ended holds =>
    obtain ⟨allocates, rest, rfl, left⟩ := holds
    cases left with
    | nil =>
      rw [List.append_nil, List.take_of_length_le short]
      exact ⟨listed, allocates⟩
    | cons _ => cases ended

end Eager

namespace IteratedList

/-- How far `take` has come in a list: the half of that side of the cell at that place is accessed
next. -/
structure Reached (w : World) (room : Option Nat) (f : Value) (cells : List Cell) (heads : Nat)
    (s : Store) (side : Side) (h : Hidden) (taken : List Value) (xs : Value) (t : Store)
    (now : List Cell) (place : Nat) : Prop where
  lawful : h.Lawful t
  loaded : t.LoadedLazy
  extended : Extends w room f cells s now t
  list : IteratedList t f now (max heads taken.length)
  length : now.length = max cells.length (place + 1)
  items : taken = (now.take taken.length).map (·.value)
  count : taken.length = match side with | .car => place | .cdr => place + 1
  left : ∃ c, now[place]? = some c ∧ xs = .lazyPair c.ref

section Lazy

variable {k : Nat} {w : World} {room : Option Nat} {f : Value} {cells now : List Cell}
  {heads place : Nat} {side : Side} {h : Hidden} {taken : List Value} {xs : Value} {s t u : Store}

theorem Reached.allocate (reached : Reached w room f cells heads s side h taken xs t now place)
    (allocates : Allocates t u) :
    Reached w room f cells heads s side (h.hide t u) taken xs u now place :=
  { reached with
    lawful := reached.lawful.hide allocates
    loaded := reached.loaded.allocates allocates
    extended := reached.extended.advance (.of_allocates allocates)
    list := reached.list.allocate allocates }

section Access

variable (fits : Fits (k + 5) room) {ref : Nat} {frame : FrameId}

include fits

theorem Reached.head (reached : Reached w (lower 3 room) f cells heads s .car h taken xs t now place)
    (held : t.procedures[ref]? = some (.primitive .car)) :
    YieldsCall w (lower 1 (lower 1 room)) (.procedure ref) [xs] frame t fun x u =>
      ∃ h' : Hidden, h.Onward t h' u ∧
        Reached w (lower 3 room) f cells heads s .cdr h' (taken ++ [x]) xs u now place := by
  obtain ⟨c, found, rfl⟩ := reached.left
  obtain rfl : taken.length = place := reached.count
  obtain ⟨u, called, advances, list, later⟩ := reached.list.calls_first (w := w) fits.lower.lower
    frame reached.lawful found (Nat.le_max_right _ _) held
  refine ⟨c.value, u, called, h, later.onward, later.lawful, advances.loadedLazy reached.loaded,
    reached.extended.advance advances, ?_, reached.length, ?_, ?_, c, found, rfl⟩
  · rw [List.length_append, List.length_singleton]
    rwa [Nat.max_assoc, Nat.max_eq_right (Nat.le_succ taken.length)] at list
  · rw [List.length_append, List.length_singleton, List.take_add_one, found, List.map_append,
      ← reached.items]
    rfl
  · rw [List.length_append, List.length_singleton]

theorem Reached.tail (reached : Reached w (lower 3 room) f cells heads s .cdr h taken xs t now place)
    {count : Nat} (returns : Returns w (lower 3 room) f cells s count) (more : taken.length < count)
    (held : t.procedures[ref]? = some (.primitive .cdr)) :
    YieldsCall w (lower 1 room) (.procedure ref) [xs] frame t fun rest u =>
      ∃ h' : Hidden, h.Onward t h' u ∧ ∃ now place,
        Reached w (lower 3 room) f cells heads s .car h' taken rest u now place := by
  obtain ⟨c, found, rfl⟩ := reached.left
  have passed : taken.length = place + 1 := reached.count
  by_cases forced : place + 1 < now.length
  · -- The tail has been forced before.
    have next := List.getElem?_eq_getElem forced
    have called := reached.list.calls_second (w := w) (k := k + 1) fits.lower frame found next held
    refine ⟨_, t, called, h, .refl h t, now, place + 1, reached.lawful, reached.loaded,
      reached.extended, reached.list, ?_, reached.items, passed, _, next, rfl⟩
    have length := reached.length
    omega
  · -- It is the last one: `f` is called.
    have size : now.length = place + 1 := by
      have bound := (List.getElem?_eq_some_iff.mp found).1
      omega
    have last : now.getLast? = some c := by
      rw [List.getLast?_eq_getElem?, size, Nat.add_sub_cancel, found]
    obtain ⟨v, u, called, same, untouched⟩ := returns now c t _ reached.extended reached.list last
      (by rwa [size, ← passed])
    have deep : lower 3 room = lower 1 (lower 1 (lower 1 room)) := by simp [lower_lower]
    obtain ⟨z, accessed, advances, list, later, loaded⟩ := calls_last fits.lower reached.list last
      reached.loaded (deep ▸ called) reached.lawful same untouched held frame
    refine ⟨_, z, accessed, h, later.onward, now ++ [u.newCell v], place + 1, later.lawful, loaded,
      .call reached.extended last called advances, list, ?_, ?_, passed, u.newCell v, ?_, rfl⟩
    · have length := reached.length
      rw [List.length_append, List.length_singleton]
      omega
    · rw [List.take_append_of_le_length (by rw [passed, size])]
      exact reached.items
    · rw [← size]
      exact List.getElem?_concat_length

theorem supply_iterated (heads : Nat) {count : Nat} (returns : Returns w (lower 3 room) f cells s count) :
    Supply w room count fun side h taken xs t => ∃ now place,
      Reached w (lower 3 room) f cells heads s side h taken xs t now place where
  loaded := by
    rintro side h taken xs t ⟨now, place, reached⟩
    exact reached.loaded
  allocate := by
    rintro side h taken xs t u ⟨now, place, reached⟩ allocates
    exact ⟨now, place, reached.allocate allocates⟩
  head := by
    rintro h taken xs t ref frame ⟨now, place, reached⟩ - - held
    refine (reached.head fits held).mono ?_
    rintro x u ⟨h', onward, behind⟩
    exact ⟨h', onward, now, place, behind⟩
  tail := by
    rintro h taken xs t ref frame ⟨now, place, reached⟩ more held
    exact reached.tail fits returns more held

end Access

/-- So many items are in a list, no more heads than these have been forced besides those that had
been, and no more tails than those between them. There has been one call of `f` for each new cell. -/
structure Forced (w : World) (room : Option Nat) (f : Value) (cells : List Cell) (heads : Nat)
    (s : Store) (count : Nat) (v : Value) (t : Store) (more : List Cell) : Prop where
  length : more.length = count - cells.length
  extended : Extends w room f cells s (cells ++ more) t
  list : IteratedList t f (cells ++ more) (max heads count)
  items : Spine v (((cells ++ more).take count).map (·.value)) .nil

theorem Reached.forced {v : Value}
    (reached : Reached w room f cells heads s side h taken xs t now place) (some : cells ≠ [])
    (upTo : side = .cdr ∨ taken = []) (listed : Spine v taken .nil) :
    ∃ more, Forced w room f cells heads s taken.length v t more := by
  obtain ⟨more, rfl⟩ := reached.extended.exists_append
  refine ⟨more, ?_, reached.extended, reached.list, reached.items ▸ listed⟩
  have count := reached.count
  have length := reached.length
  have positive := List.length_pos_iff.mpr some
  rw [List.length_append] at length
  rcases upTo with rfl | rfl
  · dsimp only at count
    omega
  · cases side with
    | car =>
      simp only [List.length_nil] at count ⊢
      omega
    | cdr => cases count

theorem yields_take_iterated (fits : Fits (k + 5) room) (lawful : Hidden.nothing.Lawful s)
    (loaded : s.LoadedLazy) {c : Cell} (list : IteratedList s f (c :: cells) heads) (n : Int)
    (returns : Returns w (lower 3 room) f (c :: cells) s n.toNat) {ref : Nat}
    (has : s.Has LazyLibrary.take ref) (frame : FrameId) :
    YieldsCall w room (.procedure ref) [.atom (.int n), .lazyPair c.ref] frame s fun v t =>
      ∃ more, Forced w (lower 3 room) f (c :: cells) heads s n.toNat v t more := by
  have supply := supply_iterated fits heads returns
  have start : Reached w (lower 3 room) f (c :: cells) heads s .car .nothing [] (.lazyPair c.ref) s
      (c :: cells) 0 := by
    refine ⟨lawful, loaded, .refl (.refl _ s), ?_, ?_, rfl, rfl, c, rfl, rfl⟩
    · rwa [List.length_nil, Nat.max_eq_left (Nat.zero_le heads)]
    · rw [List.length_cons]
      omega
  refine (yields_take supply fits rfl ⟨_, _, start⟩ has frame).mono ?_
  rintro v t ⟨taken, listed, done⟩
  cases done with
  | none zero holds =>
    obtain ⟨now, place, reached⟩ := holds
    rw [zero]
    exact reached.forced (List.cons_ne_nil c cells) (.inr rfl) listed
  | enough count holds =>
    obtain ⟨now, place, reached⟩ := holds
    rw [← count]
    exact reached.forced (List.cons_ne_nil c cells) (.inl rfl) listed
  | all _ ended holds =>
    obtain ⟨now, place, reached⟩ := holds
    obtain ⟨d, -, rfl⟩ := reached.left
    cases ended

/-- If the calls follow a function, the items are what repeated application of it gives. -/
theorem Forced.eq_iterate {c : Cell} {g : Value → Value} {count : Nat} {v : Value} {more : List Cell}
    (forced : Forced w room f [c] heads s count v t more) (follows : Follows w room f g [c] s) :
    Spine v (List.iterate g c.value count) .nil := by
  have items := forced.items
  have length := forced.length
  rw [List.length_singleton] at length
  rw [List.map_take, forced.extended.eq_iterate follows rfl, List.take_iterate, List.length_append,
    List.length_singleton, Nat.min_eq_left (by omega)] at items
  exact items

end Lazy

end IteratedList

section Computation

variable {k : Nat} {w : World} {room : Option Nat} {frame : FrameId} {s : Store} (fits : Fits 5 room)
  (lawful : Hidden.nothing.Lawful s) (loaded : s.LoadedLazy) (sees : s.SeesLazy frame)

include fits loaded sees

theorem computes_lazy {p : LibraryProcedure} (member : p ∈ LazyLibrary.procedures)
    {args : List Value} {Q : Value → Store → Prop}
    (yields : ∀ ref, s.Has p ref → YieldsCall w room (.procedure ref) args frame s Q) :
    Computes w room frame s p.name args Q :=
  .of_binds fits (loaded.lazyProcedures p member) (LazyLibrary.ofName?_eq_none p member)
    (sees p member) yields

include lawful

theorem computes_iterate {f x : Value} (fKnown : s.Knows f) (known : s.Knows x) :
    Computes w room frame s "iterate" [f, x] fun xs t => ∃ c : Cell, c.value = x ∧
      xs = .lazyPair c.ref ∧ IteratedList t f [c] 0 ∧ IteratedList.Advances [c] s t ∧
      Hidden.nothing.Later s t := by
  refine computes_lazy fits loaded sees (p := LazyLibrary.iterate) (by simp [LazyLibrary.procedures])
    ?_
  intro ref has
  refine yields_iterate fits has f x frame fun rest spelled => ?_
  have inside := loaded.globalFrame_lt
  exact ⟨s.newCell x, rfl, rfl, .single inside spelled,
    IteratedList.advances_pushCell f rest inside List.mem_cons_self,
    lawful.pushCell fKnown known (Hidden.admits_of_spells spelled)⟩

theorem computes_take {f : Value} {c : Cell} {cells : List Cell} {heads : Nat}
    (list : IteratedList s f (c :: cells) heads) (n : Int)
    (returns : IteratedList.Returns w (lower 3 room) f (c :: cells) s n.toNat) :
    Computes w room frame s "take" [.atom (.int n), .lazyPair c.ref] fun v t => ∃ more,
      IteratedList.Forced w (lower 3 room) f (c :: cells) heads s n.toNat v t more := by
  refine computes_lazy fits loaded sees (p := LazyLibrary.take) (by simp [LazyLibrary.procedures]) ?_
  intro ref has
  exact IteratedList.yields_take_iterated fits lawful loaded list n returns has frame

end Computation

/-- `take` forces no more of a lazy list than it returns.

A call of `iterate` makes one lazy pair, of which nothing is forced, and calls nothing. The first
`(take n xs)` returns `n` items, calls `f` once for each item but the first, and leaves forced the
heads of these items and the tails between them. Any later `(take m xs)`, from whatever has become of
the store as long as the list is as it was left, returns `m` items and calls `f` once for each item
that the list did not have yet. In between there is only allocation. Of an eager list, `take` returns
the first items, or all. -/
theorem take_forces_no_more {w : World} {room : Option Nat} {frame : FrameId} {s : Store}
    (lawful : Hidden.nothing.Lawful s) (loaded : s.LoadedLazy) (sees : s.SeesLazy frame)
    (fits : Fits 5 room) :
    (∀ f x, s.Knows f → s.Knows x →
      Computes w room frame s "iterate" [f, x] fun xs t => ∃ c : Cell, c.value = x ∧
        xs = .lazyPair c.ref ∧ IteratedList t f [c] 0 ∧ IteratedList.Advances [c] s t ∧
        Hidden.nothing.Later s t) ∧
    (∀ f c (n : Int), IteratedList s f [c] 0 →
      IteratedList.Returns w (lower 3 room) f [c] s n.toNat →
      Computes w room frame s "take" [.atom (.int n), .lazyPair c.ref] fun v t => ∃ more,
        more.length = n.toNat - 1 ∧
        IteratedList.Forced w (lower 3 room) f [c] 0 s n.toNat v t more ∧
        (∀ g, IteratedList.Follows w (lower 3 room) f g [c] s →
          Spine v (List.iterate g c.value n.toNat) .nil) ∧
        ∀ room' frame' u (m : Int), Fits 5 room' → Hidden.nothing.Lawful u → u.LoadedLazy →
          u.SeesLazy frame' → IteratedList u f (c :: more) n.toNat →
          IteratedList.Returns w (lower 3 room') f (c :: more) u m.toNat →
          Computes w room' frame' u "take" [.atom (.int m), .lazyPair c.ref] fun v z => ∃ further,
            further.length = m.toNat - max n.toNat 1 ∧
            IteratedList.Forced w (lower 3 room') f (c :: more) n.toNat u m.toNat v z further) ∧
    ∀ xs items, Spine xs items .nil → ∀ n : Int,
      Computes w room frame s "take" [.atom (.int n), xs] fun v t =>
        Spine v (items.take n.toNat) .nil ∧ Allocates s t := by
  refine ⟨fun f x => computes_iterate fits lawful loaded sees, ?_, ?_⟩
  · intro f c n list returns expr isCall
    obtain ⟨v, t, evaluated, more, forced⟩ :=
      computes_take fits lawful loaded sees list n returns expr isCall
    have length : more.length = n.toNat - 1 := forced.length
    refine ⟨v, t, evaluated, more, length, forced, fun g => forced.eq_iterate, ?_⟩
    intro room' frame' u m fits lawful loaded sees list returns expr isCall
    obtain ⟨v, z, evaluated, further, forced⟩ :=
      computes_take fits lawful loaded sees list m returns expr isCall
    refine ⟨v, z, evaluated, further, ?_, forced⟩
    rw [forced.length, List.length_cons]
    omega
  · intro xs items spine n
    refine computes_lazy fits loaded sees (p := LazyLibrary.take) (by simp [LazyLibrary.procedures])
      ?_
    intro ref has
    exact yields_take_eager fits loaded spine n has frame

namespace LazyLibrary

def definitions : List LibraryProcedure := Library.procedures ++ procedures

theorem isProper : ∀ p ∈ definitions, p.shape.isProper = true := by
  decide

theorem nodup_names : (definitions.map (·.name)).Nodup := by
  decide

end LazyLibrary

def lazyStore : Store := LazyLibrary.definitions.foldl defineGlobally bareStore

theorem reachable_lazyStore : Reachable lazyStore :=
  reachable_foldl (.start bareWorld 0 .unset .none "")

theorem gains_lazyStore : (∀ p ∈ LazyLibrary.definitions, lazyStore.Binds p) ∧
    (∀ name, name ∉ LazyLibrary.definitions.map (·.name) →
      lazyStore.global? name = bareStore.global? name) ∧ bareStore.Retains lazyStore := by
  have present : Store.globalFrame < bareStore.frames.size := by decide +kernel
  have loads := loads_foldl LazyLibrary.isProper present
  exact loads.gains (fits_none 2) present LazyLibrary.isProper LazyLibrary.nodup_names

theorem names_lazyStore {p : Primitive} (binds : bareStore.bindsPrimitive p = true)
    (absent : p.name ∉ LazyLibrary.definitions.map (·.name)) : lazyStore.Names p := by
  have named : bareStore.Names p := Store.of_bindsPrimitive binds
  exact named.kept (gains_lazyStore.2.1 p.name absent) gains_lazyStore.2.2

theorem loadedLazy_lazyStore : lazyStore.LoadedLazy where
  procedures p member := gains_lazyStore.1 p (List.mem_append_left _ member)
  primitives p member := by
    have bound : ∀ p ∈ Library.primitives, bareStore.bindsPrimitive p = true := by decide +kernel
    have absent : ∀ p ∈ Library.primitives, p.name ∉ LazyLibrary.definitions.map (·.name) := by
      decide
    exact names_lazyStore (bound p member) (absent p member)
  lazyProcedures p member := gains_lazyStore.1 p (List.mem_append_right _ member)
  greater := names_lazyStore (by decide +kernel) (by decide)

def negation (x : Value) : Value := .ofBool !x.isTruthy

section Negation

variable {room : Option Nat} {ref : Nat} {s t : Store} (fits : Fits 2 room)
  (held : s.procedures[ref]? = some (.primitive .not))

include fits held

theorem calls_not (x : Value) (frame : FrameId) :
    Calls bareWorld room (.procedure ref) [x] frame s (negation x) s :=
  calls_primitive fits held fun m again => Primitive.run_not m again frame s x

theorem IteratedList.Extends.held_not {cells mid : List Cell}
    (extended : Extends bareWorld room (.procedure ref) cells s mid t) :
    t.procedures[ref]? = some (.primitive .not) := by
  induction extended with
  | refl advances => exact advances.allocates.procedures ref _ held
  | @call mid t c d u z before last called advances ih =>
    obtain ⟨-, rfl⟩ := (calls_not fits ih c.value c.frame).unique called
    exact advances.allocates.procedures ref _ ih

theorem IteratedList.returns_not (cells : List Cell) (count : Nat) :
    Returns bareWorld room (.procedure ref) cells s count := by
  intro mid c t heads extended _ _ _
  have still := extended.held_not fits held
  exact ⟨_, t, calls_not fits still c.value c.frame, fun _ _ => rfl, fun _ _ => ⟨rfl, rfl⟩⟩

theorem IteratedList.follows_not (cells : List Cell) :
    Follows bareWorld room (.procedure ref) negation cells s := by
  intro mid c t v u extended _ called
  have still := extended.held_not fits held
  exact ((calls_not fits still c.value c.frame).unique called).1

end Negation

theorem Store.seesLazy_globalFrame (s : Store) : s.SeesLazy globalFrame :=
  fun p _ => s.find?_globalFrame p.name

theorem take_forces_no_more_negations : ∃ f, lazyStore.global? "not" = some f ∧
    Hidden.nothing.Lawful lazyStore ∧ lazyStore.LoadedLazy ∧
    lazyStore.SeesLazy Store.globalFrame ∧ Fits 5 (some 5) ∧
    Computes bareWorld (some 5) Store.globalFrame lazyStore "iterate" [f, .ofBool false] fun xs t =>
      Computes bareWorld (some 5) Store.globalFrame t "take" [.atom (.int 3), xs] fun v z =>
        Spine v [.ofBool false, .ofBool true, .ofBool false] .nil ∧
        ∃ c more, xs = .lazyPair c.ref ∧ more.length = 2 ∧
          IteratedList.Forced bareWorld (some 2) f [c] 0 t 3 v z more := by
  have lawful := reachable_lazyStore.lawful
  have loaded := loadedLazy_lazyStore
  have enough : Fits 5 (some 5) := by
    rintro _ ⟨⟩
    exact Nat.le_refl 5
  have less : Fits 2 (some 2) := by
    rintro _ ⟨⟩
    exact Nat.le_refl 2
  obtain ⟨ref, bound, held⟩ := names_lazyStore (p := .not) (by decide +kernel) (by decide)
  have known : lazyStore.Knows (.procedure ref) := ⟨Hidden.old_of_getElem? held, id⟩
  have sees := lazyStore.seesLazy_globalFrame
  refine ⟨_, bound, lawful, loaded, sees, enough, fun expr isCall => ?_⟩
  have first := (take_forces_no_more (w := bareWorld) lawful loaded sees enough).1
  obtain ⟨xs, t, evaluated, c, item, rfl, list, advances, later⟩ :=
    first _ (.ofBool false) known trivial expr isCall
  refine ⟨_, t, evaluated, fun expr isCall => ?_⟩
  have held := later.grows.procedures _ _ held
  have rest := (take_forces_no_more (w := bareWorld) later.lawful (advances.loadedLazy loaded)
    t.seesLazy_globalFrame enough).2.1
  obtain ⟨v, z, evaluated, more, length, forced, given, -⟩ :=
    rest _ c 3 list (IteratedList.returns_not less held [c] 3) expr isCall
  refine ⟨v, z, evaluated, ?_, c, more, rfl, length, forced⟩
  have items := given negation (IteratedList.follows_not less held [c])
  rw [item] at items
  exact items

end LazyLisp
