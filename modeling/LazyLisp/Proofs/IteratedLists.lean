import LazyLisp.Proofs.LazyLibrary
import Mathlib.Data.List.Iterate

/-!
The lists that `iterate` makes.

Such a list is a row of lazy pairs as far as its tails have been forced. An access to a head that is
pending looks up the item; an access to the last tail calls the procedure once and adds one pair.
Nothing else happens to the store besides allocation.
-/

namespace LazyLisp

namespace Hidden

variable {h : Hidden} {s : Store}

theorem Lawful.enter (lawful : h.Lawful s) {outer : FrameId} (shown : h.AdmitsFrame outer s)
    {bindings : List (String × Value)}
    (known : ∀ name v, bindings.lookup name = some v → h.Admits v s) :
    h.Later s (s.pushFrame ⟨some outer, bindings⟩) := by
  have kept := (Allocates.pushFrame s shown.1 bindings).frames
  refine lawful.later ⟨fun i f found => ⟨f, kept i f found, .refl f, fun _ => rfl⟩, fun _ _ => id,
    .refl _⟩ ?_ ?_ (fun _ _ found _ => .inl found) (fun _ _ => .inl) fun _ _ => .inl
  · intro i f found
    rw [Store.pushFrame, Array.getElem?_push] at found
    split at found
    · next new =>
      cases found
      exact .inr ⟨outer, new ▸ shown.1, rfl, shown.2⟩
    · exact .inl (old_of_getElem? found)
  · intro i f name v found _ bound
    rw [Store.pushFrame, Array.getElem?_push] at found
    split at found
    · cases found
      exact .inr (known name v bound)
    · exact .inl (old_binding found bound)

theorem Lawful.settlePending (lawful : h.Lawful s) {k : Half} {expr v : Value} {frame : FrameId}
    (pending : k.slot? s.lazyPairs = some (.pending expr frame)) (known : h.Admits v s) :
    h.Later s (s.settle k v) := by
  refine ⟨lawful.settle known k, (Grows.refl h s).frames, fun _ _ => id, ?_⟩
  refine (LazyLisp.Evolves.refl s.lazyPairs).settle k v ?_
  intro u ready
  cases pending.symm.trans ready

end Hidden

/-- A place in a list that `iterate` makes: the lazy pair, the frame in which its halves are
evaluated, and the item. -/
structure Cell where
  ref : Nat
  frame : FrameId
  value : Value

namespace Cell

def half (c : Cell) (side : Side) : Half := ⟨side, c.ref⟩

def context (c : Cell) (f : Value) : Frame := ⟨some Store.globalFrame, [("f", f), ("x", c.value)]⟩

end Cell

def Store.newCell (s : Store) (v : Value) : Cell := ⟨s.lazyPairs.size, s.frames.size, v⟩

def Store.pushCell (s : Store) (f v rest : Value) : Store :=
  (s.pushFrame ((s.newCell v).context f)).pushLazyPair
    ⟨.pending (.symbol "x") s.frames.size, .pending rest s.frames.size⟩

section PushCell

variable {s : Store} {f v rest : Value}

theorem Store.slot?_pushCell (s : Store) (f v rest : Value) (side : Side) :
    ((s.newCell v).half side).slot? (s.pushCell f v rest).lazyPairs =
      some (.pending (match side with | .car => .symbol "x" | .cdr => rest) s.frames.size) := by
  have found : (s.pushCell f v rest).lazyPairs[s.lazyPairs.size]? =
      some ⟨.pending (.symbol "x") s.frames.size, .pending rest s.frames.size⟩ :=
    Array.getElem?_push_size
  have held := congrArg (Option.map fun p : LazyPair => p.slot side) found
  cases side <;> exact held

theorem Half.slot?_pushCell {h : Half} {slot : Slot} (held : h.slot? s.lazyPairs = some slot)
    (f v rest : Value) : h.slot? (s.pushCell f v rest).lazyPairs = some slot :=
  h.slot?_push held _

theorem Hidden.Lawful.pushCell {h : Hidden} (lawful : h.Lawful s) (fKnown : h.Admits f s)
    (known : h.Admits v s) (restKnown : h.Admits rest s) : h.Later s (s.pushCell f v rest) := by
  have entered : h.Later s (s.pushFrame ((s.newCell v).context f)) := by
    refine lawful.enter lawful.admitsGlobal fun name u bound => ?_
    rw [List.lookup_cons] at bound
    split at bound
    · cases bound
      exact fKnown
    · rw [List.lookup_cons] at bound
      split at bound
      · cases bound
        exact known
      · cases bound
  have shown : h.AdmitsFrame s.frames.size (s.pushFrame ((s.newCell v).context f)) := by
    refine ⟨?_, fun hidden => Nat.lt_irrefl _ (lawful.hiddenFrames _ hidden)⟩
    exact Hidden.old_of_getElem? (s.getElem?_pushFrame _)
  refine entered.trans (entered.lawful.pushLazyPair fun side => ?_)
  cases side with
  | car => exact ⟨trivial, shown⟩
  | cdr => exact ⟨entered.wider.admits restKnown, shown⟩

end PushCell

/-- The store holds a list that `iterate` makes with `f`: its tails are forced up to the last of the
cells, and so many of its heads. -/
structure IteratedList (s : Store) (f : Value) (cells : List Cell) (heads : Nat) : Prop where
  distinct : (cells.map (·.ref)).Nodup
  enough : heads ≤ cells.length
  frames : ∀ c ∈ cells, s.frames[c.frame]? = some (c.context f)
  outside : ∀ c ∈ cells, Store.globalFrame < c.frame
  first : ∀ i c, cells[i]? = some c → (c.half .car).slot? s.lazyPairs =
    some (if i < heads then .ready c.value else .pending (.symbol "x") c.frame)
  second : ∀ i c d, cells[i]? = some c → cells[i + 1]? = some d →
    (c.half .cdr).slot? s.lazyPairs = some (.ready (.lazyPair d.ref))
  rest : ∀ c, cells.getLast? = some c → ∃ expr, LazyLibrary.restCode.Spells expr ∧
    (c.half .cdr).slot? s.lazyPairs = some (.pending expr c.frame)

namespace IteratedList

/-- Besides allocating, it changes or adds none but the lazy pairs of the cells. -/
structure Advances (cells : List Cell) (s t : Store) : Prop where
  allocates : Allocates s { t with lazyPairs := s.lazyPairs }
  others : ∀ ref : Nat, (∀ c ∈ cells, c.ref ≠ ref) → t.lazyPairs[ref]? = s.lazyPairs[ref]?

/-- From the cells in one store to those in the next. Each new cell comes from one call of `f`, with
the item before; between the calls, only the list is forced. -/
inductive Extends (w : World) (room : Option Nat) (f : Value) (cells : List Cell) (s : Store) :
    List Cell → Store → Prop where
  | refl {t} : Advances cells s t → Extends w room f cells s cells t
  | call {mid t c d u z} : Extends w room f cells s mid t → mid.getLast? = some c →
      Calls w room f [c.value] c.frame t d.value u → Advances (mid ++ [d]) u z →
      Extends w room f cells s (mid ++ [d]) z

def Untouched (cells : List Cell) (s t : Store) : Prop := ∀ c ∈ cells,
  t.frames[c.frame]? = s.frames[c.frame]? ∧ t.lazyPairs[c.ref]? = s.lazyPairs[c.ref]?

/-- The calls that there are up to so many cells return, rebind none of the names and do not touch
the list. -/
def Returns (w : World) (room : Option Nat) (f : Value) (cells : List Cell) (s : Store)
    (count : Nat) : Prop :=
  ∀ mid c t heads, Extends w room f cells s mid t → IteratedList t f mid heads →
    mid.getLast? = some c → mid.length < count →
      ∃ v u, Calls w room f [c.value] c.frame t v u ∧ t.SameLazy u ∧ Untouched mid t u

section

variable {cells mid : List Cell} {heads i j : Nat} {w : World} {room : Option Nat} {f : Value}
  {s t u : Store} {c d : Cell}

theorem Advances.refl (cells : List Cell) (s : Store) : Advances cells s s :=
  ⟨.refl s, fun _ _ => rfl⟩

theorem Advances.trans (first : Advances cells s t) (second : Advances cells t u) :
    Advances cells s u where
  allocates := first.allocates.trans
    { second.allocates with lazyPairs := rfl }
  others ref other := (second.others ref other).trans (first.others ref other)

theorem Advances.of_allocates (allocates : Allocates s t) : Advances cells s t where
  allocates := { allocates with lazyPairs := rfl }
  others ref _ := by rw [allocates.lazyPairs]

theorem advances_settle (member : c ∈ cells) (s : Store) (side : Side) (v : Value) :
    Advances cells s (s.settle (c.half side) v) where
  allocates := .refl s
  others ref other := by
    have apart : (c.half side).ref ≠ ref := other c member
    rw [Store.settle, Array.getElem?_modify, if_neg apart]

theorem Advances.loadedLazy (advances : Advances cells s t) (loaded : s.LoadedLazy) :
    t.LoadedLazy :=
  loaded.kept (loaded.sameLazy advances.allocates.frames) advances.allocates.procedures

theorem Extends.advance (extends' : Extends w room f cells s mid t) (advances : Advances mid t u) :
    Extends w room f cells s mid u := by
  cases extends' with
  | refl before => exact .refl (before.trans advances)
  | call before last called after => exact .call before last called (after.trans advances)

theorem Extends.exists_append (extends' : Extends w room f cells s mid t) :
    ∃ new, mid = cells ++ new := by
  induction extends' with
  | refl _ => exact ⟨[], (List.append_nil cells).symm⟩
  | @call _ _ _ d _ _ _ _ _ _ ih =>
    obtain ⟨new, rfl⟩ := ih
    exact ⟨new ++ [d], List.append_assoc cells new [d]⟩

theorem kept (list : IteratedList s f cells heads) (untouched : Untouched cells s t) :
    IteratedList t f cells heads := by
  have slots (c : Cell) (member : c ∈ cells) (side : Side) :
      (c.half side).slot? t.lazyPairs = (c.half side).slot? s.lazyPairs := by
    exact congrArg (Option.map (·.slot side)) (untouched c member).2
  constructor
  · exact list.distinct
  · exact list.enough
  · intro c member
    rw [(untouched c member).1, list.frames c member]
  · exact list.outside
  · intro i c found
    rw [slots c (List.mem_of_getElem? found), list.first i c found]
  · intro i c d found next
    rw [slots c (List.mem_of_getElem? found), list.second i c d found next]
  · intro c last
    obtain ⟨expr, spelled, pending⟩ := list.rest c last
    exact ⟨expr, spelled, (slots c (List.mem_of_getLast? last) .cdr).trans pending⟩

theorem allocate (list : IteratedList s f cells heads) (allocates : Allocates s t) :
    IteratedList t f cells heads := by
  refine list.kept fun c member => ⟨?_, by rw [allocates.lazyPairs]⟩
  have found := list.frames c member
  rw [found, allocates.frames _ _ found]

theorem scope (list : IteratedList s f cells heads) (member : c ∈ cells) :
    Scope s c.frame [("f", f), ("x", c.value)] := by
  have scope := Scope.inside (list.frames c member) (list.outside c member) .global
  simpa using scope

theorem eq_of_ref_eq (list : IteratedList s f cells heads) (found : cells[i]? = some c)
    (other : cells[j]? = some d) (same : c.ref = d.ref) : i = j := by
  have inside := (List.getElem?_eq_some_iff.mp found).1
  refine (List.getElem?_inj (by simpa using inside) list.distinct).mp ?_
  rw [List.getElem?_map, List.getElem?_map, found, other, Option.map_some, Option.map_some, same]

theorem ref_lt (list : IteratedList s f cells heads) (member : c ∈ cells) :
    c.ref < s.lazyPairs.size := by
  obtain ⟨i, found⟩ := List.mem_iff_getElem?.mp member
  obtain ⟨pair, held, -⟩ := Option.map_eq_some_iff.mp (list.first i c found)
  exact Hidden.old_of_getElem? held

section Lawful

variable {h : Hidden} (lawful : h.Lawful s) (list : IteratedList s f cells heads)
  (last : cells.getLast? = some c)

include lawful list last

theorem admitsFrame : h.AdmitsFrame c.frame s := by
  obtain ⟨expr, -, pending⟩ := list.rest c last
  exact (lawful.slots _ _ pending).2

theorem admits_lookup (name : String) {v : Value}
    (bound : [("f", f), ("x", c.value)].lookup name = some v) : h.Admits v s := by
  have member := List.mem_of_getLast? last
  have shown := (admitsFrame lawful list last).2
  exact lawful.bindings c.frame _ name v (list.frames c member) shown bound

end Lawful

theorem settle_first (list : IteratedList s f cells i) (found : cells[i]? = some c) :
    IteratedList (s.settle (c.half .car) c.value) f cells (i + 1) where
  distinct := list.distinct
  enough := (List.getElem?_eq_some_iff.mp found).1
  frames := list.frames
  outside := list.outside
  first j d at_ := by
    have slot := list.first i c found
    by_cases same : j = i
    · subst same
      cases found.symm.trans at_
      rw [if_pos (Nat.lt_succ_self j)]
      exact Half.slot?_settle_self slot c.value
    · have apart : c.half .car ≠ d.half .car := by
        intro halves
        exact same (list.eq_of_ref_eq at_ found (congrArg Half.ref halves.symm))
      refine (Half.slot?_settle_of_ne apart c.value).trans ((list.first j d at_).trans ?_)
      rw [if_congr (show j < i ↔ j < i + 1 by omega) rfl rfl]
  second j d e at_ next := by
    have apart : c.half .car ≠ d.half .cdr := fun halves => nomatch congrArg Half.side halves
    exact (Half.slot?_settle_of_ne apart c.value).trans (list.second j d e at_ next)
  rest d last := by
    obtain ⟨expr, spelled, pending⟩ := list.rest d last
    have apart : c.half .car ≠ d.half .cdr := fun halves => nomatch congrArg Half.side halves
    exact ⟨expr, spelled, (Half.slot?_settle_of_ne apart c.value).trans pending⟩

theorem advances_pushCell (f rest : Value) {v : Value} (inside : Store.globalFrame < s.frames.size)
    (member : s.newCell v ∈ cells) : Advances cells s (s.pushCell f v rest) where
  allocates := Allocates.pushFrame s inside _
  others ref other := by
    have apart : ref ≠ s.lazyPairs.size := fun same => other _ member same.symm
    exact (Array.getElem?_push).trans (if_neg apart)

/-- A list of one lazy pair, of which nothing has been forced. -/
theorem single {v rest : Value} (inside : Store.globalFrame < s.frames.size)
    (spelled : LazyLibrary.restCode.Spells rest) :
    IteratedList (s.pushCell f v rest) f [s.newCell v] 0 where
  distinct := by simp
  enough := Nat.zero_le _
  frames c member := by
    obtain rfl := List.mem_singleton.mp member
    exact s.getElem?_pushFrame _
  outside c member := by
    obtain rfl := List.mem_singleton.mp member
    exact inside
  first i c found := by
    obtain rfl := List.mem_singleton.mp (List.mem_of_getElem? found)
    exact s.slot?_pushCell f v rest .car
  second i c d _ next := by
    rw [List.getElem?_eq_none (by simp)] at next
    cases next
  rest c last := by
    obtain rfl := Option.some.inj last
    exact ⟨rest, spelled, s.slot?_pushCell f v rest .cdr⟩

/-- A cell of a list with one more is an old one, or the new one in the last place. -/
theorem old_or_new {added : Cell} {i : Nat} (found : (cells ++ [added])[i]? = some c) :
    (i < cells.length ∧ cells[i]? = some c) ∨ (i = cells.length ∧ c = added) := by
  rw [List.getElem?_append] at found
  by_cases before : i < cells.length
  · rw [if_pos before] at found
    exact .inl ⟨before, found⟩
  · rw [if_neg before] at found
    have bound := (List.getElem?_eq_some_iff.mp found).1
    rw [List.length_singleton] at bound
    exact .inr ⟨by omega, List.mem_singleton.mp (List.mem_of_getElem? found)⟩

theorem extend (list : IteratedList s f cells heads) (last : cells.getLast? = some c)
    {v rest : Value} (inside : Store.globalFrame < s.frames.size)
    (spelled : LazyLibrary.restCode.Spells rest) :
    IteratedList ((s.pushCell f v rest).settle (c.half .cdr) (.lazyPair (s.newCell v).ref)) f
      (cells ++ [s.newCell v]) heads := by
  have new : ∀ d ∈ cells, d.ref ≠ (s.newCell v).ref := fun d member =>
    Nat.ne_of_lt (list.ref_lt member)
  have lastAt : cells[cells.length - 1]? = some c := List.getLast?_eq_getElem?.symm.trans last
  obtain ⟨expr, -, pending⟩ := list.rest c last
  have settled := Half.slot?_settle_self (Half.slot?_pushCell pending f v rest)
    (.lazyPair (s.newCell v).ref)
  have old {d : Cell} {side : Side} {slot : Slot} (apart : c.half .cdr ≠ d.half side)
      (held : (d.half side).slot? s.lazyPairs = some slot) :
      (d.half side).slot? ((s.pushCell f v rest).settle (c.half .cdr)
        (.lazyPair (s.newCell v).ref)).lazyPairs = some slot :=
    (Half.slot?_settle_of_ne apart _).trans (Half.slot?_pushCell held f v rest)
  have added {side : Side} (apart : c.half .cdr ≠ (s.newCell v).half side) :=
    (Half.slot?_settle_of_ne apart (.lazyPair (s.newCell v).ref)).trans
      (s.slot?_pushCell f v rest side)
  refine { distinct := ?distinct, enough := ?enough, frames := ?frames, outside := ?outside,
           first := ?first, second := ?second, rest := ?rest }
  case distinct =>
    rw [List.map_append, List.nodup_append]
    refine ⟨list.distinct, by simp, ?_⟩
    intro ref member other isNew
    obtain ⟨d, among, rfl⟩ := List.mem_map.mp member
    obtain rfl := List.mem_singleton.mp isNew
    exact new d among
  case enough =>
    rw [List.length_append]
    exact Nat.le_add_right_of_le list.enough
  case frames =>
    intro d member
    rcases List.mem_append.mp member with member | isNew
    · exact (Allocates.pushFrame s inside _).frames _ _ (list.frames d member)
    · obtain rfl := List.mem_singleton.mp isNew
      exact s.getElem?_pushFrame _
  case outside =>
    intro d member
    rcases List.mem_append.mp member with member | isNew
    · exact list.outside d member
    · obtain rfl := List.mem_singleton.mp isNew
      exact inside
  case first =>
    intro i d found
    have apart : c.half .cdr ≠ d.half .car := fun halves => nomatch congrArg Half.side halves
    rcases old_or_new found with ⟨-, found⟩ | ⟨rfl, rfl⟩
    · exact old apart (list.first i d found)
    · rw [if_neg (Nat.not_lt.mpr list.enough)]
      exact added apart
  case second =>
    intro i d e found next
    rcases old_or_new next with ⟨before, next⟩ | ⟨isLast, rfl⟩
    · rcases old_or_new found with ⟨-, found⟩ | ⟨rfl, rfl⟩
      · refine old ?_ (list.second i d e found next)
        intro halves
        have same := list.eq_of_ref_eq lastAt found (congrArg Half.ref halves)
        omega
      · omega
    · obtain rfl : i = cells.length - 1 := by omega
      rcases old_or_new found with ⟨-, found⟩ | ⟨atEnd, -⟩
      · cases lastAt.symm.trans found
        exact settled
      · omega
  case rest =>
    intro d lastNow
    rw [List.getLast?_concat] at lastNow
    obtain rfl := Option.some.inj lastNow
    have apart : c.half .cdr ≠ (s.newCell v).half .cdr := fun halves =>
      new c (List.mem_of_getLast? last) (congrArg Half.ref halves)
    exact ⟨rest, spelled, added apart⟩

section Access

variable {k : Nat} (fits : Fits (k + 3) room) {h : Hidden}
  (list : IteratedList s f cells heads) {ref : Nat} (frame : FrameId)

include fits list

/-- Access to a head, if all heads before it have been forced. -/
theorem calls_first (lawful : h.Lawful s) (found : cells[i]? = some c) (reached : i ≤ heads)
    (held : s.procedures[ref]? = some (.primitive .car)) :
    ∃ t, Calls w room (.procedure ref) [.lazyPair c.ref] frame s c.value t ∧
      Advances cells s t ∧ IteratedList t f cells (max heads (i + 1)) ∧ h.Later s t := by
  have member := List.mem_of_getElem? found
  have slot := list.first i c found
  by_cases forced : i < heads
  · rw [if_pos forced] at slot
    refine ⟨s, calls_half_of_ready (h := c.half .car) fits held slot, .refl cells s, ?_, lawful.refl⟩
    rwa [Nat.max_eq_left forced]
  · obtain rfl : i = heads := by omega
    rw [if_neg forced] at slot
    have named : Evaluates w (lower 1 room) (.symbol "x") c.frame s c.value s := by
      obtain ⟨owner, bound⟩ := (list.scope member).find?_of_bound "x" rfl
      exact .succ (.always fun fuel => evaluate_symbol w fuel fits.lower.descend bound)
    have known : h.Admits c.value s := by
      have shown := (lawful.slots _ _ slot).2.2
      exact lawful.bindings c.frame _ "x" c.value (list.frames c member) shown rfl
    refine ⟨_, calls_half_of_pending (h := c.half .car) fits held slot named,
      advances_settle member s .car c.value, ?_, lawful.settlePending slot known⟩
    rw [Nat.max_eq_right (Nat.le_succ i)]
    exact list.settle_first found

theorem calls_second (found : cells[i]? = some c) (next : cells[i + 1]? = some d)
    (held : s.procedures[ref]? = some (.primitive .cdr)) :
    Calls w room (.procedure ref) [.lazyPair c.ref] frame s (.lazyPair d.ref) s :=
  calls_half_of_ready (h := c.half .cdr) fits held (list.second i c d found next)

end Access

section Last

variable {k : Nat} (fits : Fits (k + 4) room) (list : IteratedList s f cells heads)
  (last : cells.getLast? = some c) (loaded : s.LoadedLazy) {v : Value}
  (called : Calls w (lower 1 (lower 1 room)) f [c.value] c.frame s v u)

include fits list last loaded called

/-- The expression of the last tail: it calls `f`, and makes the next lazy pair. -/
theorem yields_rest (retains : s.Retains u) :
    Yields w (lower 1 room) LazyLibrary.restCode c.frame s fun result z =>
      ∃ rest, LazyLibrary.restCode.Spells rest ∧ result = .lazyPair (u.newCell v).ref ∧
        z = u.pushCell f v rest := by
  have scope := list.scope (List.mem_of_getLast? last)
  refine .procedure scope fits.lower (p := LazyLibrary.iterate)
    (loaded.lazyProcedures _ (by simp [LazyLibrary.procedures])) rfl rfl ?_
  intro ref has
  refine .variable scope fits.lower.lower rfl ?_
  obtain ⟨owner, found⟩ := scope.find?_of_bound "f" rfl
  refine .call fits.lower.lower rfl found called.canCall ?_
  refine .variable scope fits.lower.lower.lower rfl ⟨v, u, called, ?_⟩
  refine yields_iterate fits.lower (has.kept retains) f v c.frame ?_
  intro rest spelled
  exact ⟨rest, spelled, rfl, rfl⟩

/-- Access to the last tail: `f` is called once, and the list has one more pair. -/
theorem calls_last {h : Hidden} (lawful : h.Lawful s) (same : s.SameLazy u)
    (untouched : Untouched cells s u) {ref : Nat}
    (held : s.procedures[ref]? = some (.primitive .cdr)) (frame : FrameId) :
    ∃ z, Calls w room (.procedure ref) [.lazyPair c.ref] frame s (.lazyPair (u.newCell v).ref) z ∧
      Advances (cells ++ [u.newCell v]) u z ∧
      IteratedList z f (cells ++ [u.newCell v]) heads ∧ h.Later s z ∧ z.LoadedLazy := by
  have member := List.mem_of_getLast? last
  have shown := admitsFrame lawful list last
  have fKnown : h.Admits f s := admits_lookup lawful list last "f" rfl
  have known : h.Admits c.value s := admits_lookup lawful list last "x" rfl
  have argsKnown : h.AdmitsAll [c.value] s := by simpa [Hidden.AdmitsAll] using known
  obtain ⟨later, vKnown⟩ := lawful.call fKnown argsKnown shown.1 called
  have still := list.kept untouched
  obtain ⟨expr, spelled, pending⟩ := list.rest c last
  obtain ⟨_, _, evaluated, rest, restSpelled, rfl, rfl⟩ :=
    yields_rest fits list last loaded called later.grows.procedures expr spelled
  have loaded := loaded.kept same later.grows.procedures
  have inside := loaded.globalFrame_lt
  have pushed : h.Later u (u.pushCell f v rest) := later.lawful.pushCell
    (later.wider.admits fKnown) vKnown (Hidden.admits_of_spells restSpelled)
  obtain ⟨expr', -, pending'⟩ := still.rest c last
  have settled := pushed.lawful.settlePending (Half.slot?_pushCell pending' f v rest)
    (v := .lazyPair (u.newCell v).ref) trivial
  have added := advances_pushCell f rest inside
    (List.mem_append_right cells (List.mem_singleton_self (u.newCell v)))
  have advances := added.trans (advances_settle (List.mem_append_left _ member) _ .cdr
    (.lazyPair (u.newCell v).ref))
  exact ⟨_, calls_half_of_pending (h := c.half .cdr) fits held pending evaluated, advances,
    still.extend last inside restSpelled, (later.trans pushed).trans settled,
    advances.loadedLazy loaded⟩

end Last

/-- The calls that there are return what the function `g` gives for their arguments. -/
def Follows (w : World) (room : Option Nat) (f : Value) (g : Value → Value) (cells : List Cell)
    (s : Store) : Prop :=
  ∀ mid c t v u, Extends w room f cells s mid t → mid.getLast? = some c →
    Calls w room f [c.value] c.frame t v u → v = g c.value

/-- The items of the list are what repeated application of the function gives. -/
theorem Extends.eq_iterate {g : Value → Value} {x : Value}
    (extends' : Extends w room f cells s mid t) (follows : Follows w room f g cells s)
    (start : cells.map (·.value) = List.iterate g x cells.length) :
    mid.map (·.value) = List.iterate g x mid.length := by
  induction extends' with
  | refl _ => exact start
  | @call mid t c d u z before last called after ih =>
    have lastAt : mid[mid.length - 1]? = some c := List.getLast?_eq_getElem?.symm.trans last
    have bound := (List.getElem?_eq_some_iff.mp lastAt).1
    have value : c.value = g^[mid.length - 1] x := by
      have item := congrArg (·[mid.length - 1]?) ih
      simp only [List.getElem?_map, lastAt, Option.map_some] at item
      rw [List.getElem?_iterate g x _ _ bound] at item
      exact Option.some.inj item
    have next : d.value = g^[mid.length] x := by
      rw [follows mid c t d.value u before last called, value, ← Function.iterate_succ_apply' g]
      congr 2
      omega
    rw [List.map_append, ih, List.length_append, List.iterate_add, List.map_singleton, next]
    rfl

end

end IteratedList

end LazyLisp
