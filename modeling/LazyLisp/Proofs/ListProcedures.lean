import LazyLisp.Proofs.ListLoops

/-!
What the list procedures of the prelude compute. Those that take no procedure only allocate.
-/

namespace LazyLisp

section Procedures

variable {k : Nat} {w : World} {room : Option Nat} {s : Store} {xs : Value} {items : List Value}
  {ref : Nat}

theorem yields_lengthFrom (fits : Fits (k + 3) room) (loaded : s.Loaded)
    (spine : Spine xs items .nil) (n : Int) (has : s.Has Library.length ref) (frame : FrameId) :
    YieldsCall w room (.procedure ref) [xs, .atom (.int n)] frame s fun v t =>
      v = .atom (.int (n + items.length)) ∧ Allocates s t := by
  induction items generalizing xs n s ref frame with
  | nil =>
    cases spine
    refine .libraryClause has loaded fits rfl rfl (by decide) rfl ?_
    intro i t enters loaded
    have scope := enters.scopeGlobal
    refine .testPair scope loaded fits rfl rfl (Yields.variable scope fits rfl ?_)
    exact ⟨by simp, enters.allocates⟩
  | cons x items ih =>
    rcases spine with _ | @⟨mark, _, _, rest, _, spine⟩
    refine .libraryClause has loaded fits rfl rfl (by decide) rfl ?_
    intro i t enters loaded
    have scope := enters.scopeGlobal
    refine .testPair scope loaded fits rfl rfl ?_
    refine Yields.library scope loaded fits (p := Library.length) (by simp [Library.procedures])
      rfl ?_
    intro ref has
    refine .cdr scope loaded fits.lower rfl rfl ?_
    refine .primitive scope loaded fits.lower (p := .add) (by decide) rfl ?_
    refine .variable scope fits.lower.lower rfl (.int fits.lower.lower ?_)
    refine ⟨fun _ _ => id, _, _, fun m again => Primitive.run_add m again i t n 1, ?_⟩
    refine (ih loaded spine (n + 1) has i).mono ?_
    rintro v u ⟨rfl, further⟩
    refine ⟨?_, enters.allocates.trans further⟩
    congr 2
    rw [List.length_cons]
    omega

theorem yields_length (fits : Fits (k + 3) room) (loaded : s.Loaded) (spine : Spine xs items .nil)
    (has : s.Has Library.length ref) (frame : FrameId) :
    YieldsCall w room (.procedure ref) [xs] frame s fun v t =>
      v = .atom (.int items.length) ∧ Allocates s t := by
  refine .libraryClause has loaded fits rfl rfl (by decide) rfl ?_
  intro i t enters loaded
  have scope := enters.scopeGlobal
  refine .library scope loaded fits (p := Library.length) (by simp [Library.procedures]) rfl ?_
  intro ref has
  refine .variable scope fits.lower rfl (.int fits.lower ?_)
  refine (yields_lengthFrom fits loaded spine 0 has i).mono ?_
  rintro v u ⟨rfl, further⟩
  exact ⟨by simp, enters.allocates.trans further⟩

theorem yields_nth (fits : Fits (k + 3) room) (loaded : s.Loaded) (spine : Spine xs items .nil)
    {n : Nat} {x : Value} (found : items[n]? = some x) (has : s.Has Library.nth ref)
    (frame : FrameId) :
    YieldsCall w room (.procedure ref) [xs, .atom (.int n)] frame s fun v t =>
      v = x ∧ Allocates s t := by
  induction items generalizing xs n s ref frame with
  | nil => cases found
  | cons first items ih =>
    rcases spine with _ | @⟨mark, _, _, rest, _, spine⟩
    refine .library has loaded fits rfl (by decide) rfl ?_
    intro i t enters loaded
    have scope := enters.scopeGlobal
    refine .cond fits ?_
    refine .primitive scope loaded fits.lower (p := .numEq) (by decide) rfl ?_
    refine .variable scope fits.lower.lower rfl (.int fits.lower.lower ?_)
    refine ⟨fun _ _ => id, _, _, fun m again => Primitive.run_numEq m again i t n 0, ?_⟩
    rw [isTruthy_ofBool]
    cases n with
    | zero =>
      cases found
      rw [if_pos (by simp)]
      exact .car scope loaded fits rfl rfl ⟨rfl, enters.allocates⟩
    | succ n =>
      rw [if_neg (by simp; omega)]
      refine .library scope loaded fits (p := Library.nth) (by simp [Library.procedures]) rfl ?_
      intro ref has
      refine .cdr scope loaded fits.lower rfl rfl ?_
      refine .primitive scope loaded fits.lower (p := .sub) (by decide) rfl ?_
      refine .variable scope fits.lower.lower rfl (.int fits.lower.lower ?_)
      refine ⟨fun _ _ => id, _, _, fun m again => Primitive.run_sub m again i t _ 1, ?_⟩
      have before : ((n + 1 : Nat) : Int) - 1 = n := by omega
      rw [before]
      refine (ih loaded spine found has i).mono ?_
      rintro v u ⟨rfl, further⟩
      exact ⟨rfl, enters.allocates.trans further⟩

theorem yields_last (fits : Fits (k + 4) room) (loaded : s.Loaded) {front : List Value} {x : Value}
    (spine : Spine xs (front ++ [x]) .nil) (has : s.Has Library.last ref) (frame : FrameId) :
    YieldsCall w room (.procedure ref) [xs] frame s fun v t => v = x ∧ Allocates s t := by
  induction front generalizing xs s ref frame with
  | nil =>
    rcases spine with _ | @⟨mark, _, _, _, _, ⟨⟩⟩
    refine .library has loaded fits rfl (by decide) rfl ?_
    intro i t enters loaded
    have scope := enters.scopeGlobal
    refine .cond fits (.primitive scope loaded fits.lower (p := .isCons) (by decide) rfl ?_)
    refine .cdr scope loaded fits.lower.lower rfl rfl ?_
    refine ⟨fun _ _ => id, _, _, fun m again => Primitive.run_isCons m again i t .nil, ?_⟩
    rw [if_neg (by decide)]
    exact .car scope loaded fits rfl rfl ⟨rfl, enters.allocates⟩
  | cons first front ih =>
    rcases spine with _ | @⟨mark, _, _, rest, _, spine⟩
    refine .library has loaded fits rfl (by decide) rfl ?_
    intro i t enters loaded
    have scope := enters.scopeGlobal
    refine .cond fits (.primitive scope loaded fits.lower (p := .isCons) (by decide) rfl ?_)
    refine .cdr scope loaded fits.lower.lower rfl rfl ?_
    refine ⟨fun _ _ => id, _, _, fun m again => Primitive.run_isCons m again i t rest, ?_⟩
    have isPair : rest.isPair = true := by
      cases front <;> cases spine <;> rfl
    rw [isTruthy_ofBool, if_pos isPair]
    refine .library scope loaded fits (p := Library.last) (by simp [Library.procedures]) rfl ?_
    intro ref has
    refine .cdr scope loaded fits.lower rfl rfl ?_
    refine (ih loaded spine has i).mono ?_
    rintro v u ⟨rfl, further⟩
    exact ⟨rfl, enters.allocates.trans further⟩

/-- The integers from `a` on, as values. -/
def integersFrom (a : Int) (count : Nat) : List Value :=
  (List.range count).map fun i : Nat => .atom (.int (a + i))

theorem integersFrom_succ (a : Int) (count : Nat) :
    integersFrom a (count + 1) = integersFrom a count ++ [.atom (.int (a + count))] := by
  simp [integersFrom, List.range_succ]

theorem yields_rangeFrom (fits : Fits (k + 4) room) (loaded : s.Loaded) {a b : Int} {acc : Value}
    {collected : List Value} (spine : Spine acc collected .nil) (has : s.Has Library.range ref)
    (frame : FrameId) :
    YieldsCall w room (.procedure ref) [.atom (.int a), .atom (.int b), acc] frame s fun v t =>
      Spine v (integersFrom a (b - a).toNat ++ collected) .nil ∧ Allocates s t := by
  generalize size : (b - a).toNat = count
  induction count generalizing b acc collected s ref frame with
  | zero =>
    refine .libraryClause has loaded fits rfl rfl (by decide) rfl ?_
    intro i t enters loaded
    have scope := enters.scopeGlobal
    refine .cond fits (.primitive scope loaded fits.lower (p := .lt) (by decide) rfl ?_)
    refine .variable scope fits.lower.lower rfl (.variable scope fits.lower.lower rfl ?_)
    refine ⟨fun _ _ => id, _, _, fun m again => Primitive.run_lt m again i t a b, ?_⟩
    rw [isTruthy_ofBool, if_neg (by simp; omega)]
    exact .variable scope fits rfl ⟨spine, enters.allocates⟩
  | succ count ih =>
    refine .libraryClause has loaded fits rfl rfl (by decide) rfl ?_
    intro i t enters loaded
    have scope := enters.scopeGlobal
    refine .cond fits (.primitive scope loaded fits.lower (p := .lt) (by decide) rfl ?_)
    refine .variable scope fits.lower.lower rfl (.variable scope fits.lower.lower rfl ?_)
    refine ⟨fun _ _ => id, _, _, fun m again => Primitive.run_lt m again i t a b, ?_⟩
    rw [isTruthy_ofBool, if_pos (by simp; omega)]
    refine .library scope loaded fits (p := Library.range) (by simp [Library.procedures]) rfl ?_
    intro ref has
    refine .variable scope fits.lower rfl ?_
    refine .primitive scope loaded fits.lower (p := .sub) (by decide) rfl ?_
    refine .variable scope fits.lower.lower rfl (.int fits.lower.lower ?_)
    refine ⟨fun _ _ => id, _, _, fun m again => Primitive.run_sub m again i t b 1, ?_⟩
    refine .primitive scope loaded fits.lower (p := .cons) (by decide) rfl ?_
    refine .primitive scope loaded fits.lower.lower (p := .sub) (by decide) rfl ?_
    refine .variable scope fits.lower.lower.lower rfl (.int fits.lower.lower.lower ?_)
    refine ⟨fun _ _ => id, _, _, fun m again => Primitive.run_sub m again i t b 1, ?_⟩
    refine .variable scope fits.lower.lower rfl ?_
    refine ⟨fun _ _ => id, _, _, fun m again => Primitive.run_cons m again i t _ acc, ?_⟩
    have marked := Allocates.mark t 1
    refine (ih (loaded.allocates marked) (.cons spine) (has.kept marked.procedures) i
      (by omega)).mono ?_
    rintro v u ⟨listed, further⟩
    refine ⟨?_, (enters.allocates.trans marked).trans further⟩
    have largest : a + count = b - 1 := by omega
    rwa [integersFrom_succ, List.append_assoc, largest]

theorem yields_range (fits : Fits (k + 4) room) (loaded : s.Loaded) (a b : Int)
    (has : s.Has Library.range ref) (frame : FrameId) :
    YieldsCall w room (.procedure ref) [.atom (.int a), .atom (.int b)] frame s fun v t =>
      Spine v (integersFrom a (b - a).toNat) .nil ∧ Allocates s t := by
  refine .libraryClause has loaded fits rfl rfl (by decide) rfl ?_
  intro i t enters loaded
  have scope := enters.scopeGlobal
  refine .library scope loaded fits (p := Library.range) (by simp [Library.procedures]) rfl ?_
  intro ref has
  refine .variable scope fits.lower rfl (.variable scope fits.lower rfl (.quote fits.lower ?_))
  refine (yields_rangeFrom fits loaded .nil has i).mono ?_
  rintro v u ⟨listed, further⟩
  rw [List.append_nil] at listed
  exact ⟨listed, enters.allocates.trans further⟩

theorem yields_copy (fits : Fits (k + 5) room) (loaded : s.Loaded) (spine : Spine xs items .nil)
    (tail : Value) {cons : Nat} (held : s.procedures[cons]? = some (.primitive .cons))
    (has : s.Has Library.foldRight ref) (frame : FrameId) :
    YieldsCall w room (.procedure ref) [.procedure cons, tail, xs] frame s fun v t =>
      Spine v items tail ∧ Allocates s t := by
  have invariant : Walk.foldRight.Invariant w (lower 1 room) (.procedure cons) fun _ rest acc t =>
      Allocates s t ∧ ∃ passed, items.reverse = passed ++ rest ∧ Spine acc passed.reverse tail := by
    refine .ofAllocating ?_ ?_ ?_
    · rintro rest acc t ⟨allocates, -⟩
      exact loaded.allocates allocates
    · rintro rest acc t u ⟨allocates, passed⟩ further
      exact ⟨allocates.trans further, passed⟩
    · rintro x rest acc t frame ⟨allocates, passed, whole, copied⟩
      have marked := Allocates.mark t 1
      refine .primitive fits.lower (allocates.procedures _ _ held)
        (fun m again => Primitive.run_cons m again frame t x acc) ⟨marked, ?_⟩
      refine ⟨allocates.trans marked, passed ++ [x], by simp [whole], ?_⟩
      rw [List.reverse_append]
      exact .cons copied
  have start : Allocates s s ∧ ∃ passed, items.reverse = passed ++ items.reverse ∧
      Spine tail passed.reverse tail := ⟨.refl s, [], rfl, .nil⟩
  refine (yields_foldRight (h := .nothing) invariant fits spine start has frame).mono ?_
  rintro v t ⟨_, -, allocates, passed, whole, copied⟩
  rw [List.append_nil] at whole
  rw [← whole, List.reverse_reverse] at copied
  exact ⟨copied, allocates⟩

theorem yields_append_nil (fits : Fits (k + 3) room) (loaded : s.Loaded)
    (has : s.Has Library.append ref) (frame : FrameId) :
    YieldsCall w room (.procedure ref) [] frame s fun v t => v = .nil ∧ Allocates s t := by
  refine .libraryVariadic has loaded fits rfl ?_
  intro list i t spine enters loaded
  cases spine
  refine .testPair enters.scopeGlobal loaded fits rfl rfl ?_
  exact Yields.quote fits ⟨rfl, enters.allocates⟩

def copyForm : Datum :=
  .list [.symbol "fold-right", .symbol "cons", .symbol "acc", .symbol "xs"]

theorem yields_copyForm {frame : FrameId} {bindings : List (String × Value)}
    (scope : Scope s frame bindings) (loaded : s.Loaded) (fits : Fits (k + 5) room)
    (free : bindings.lookup "fold-right" = none ∧ bindings.lookup "cons" = none) {acc : Value}
    (bound : bindings.lookup "acc" = some acc ∧ bindings.lookup "xs" = some xs)
    (spine : Spine xs items .nil) :
    Yields w room copyForm frame s fun v t => Spine v items acc ∧ Allocates s t := by
  obtain ⟨cons, named, held⟩ := loaded.primitives .cons (by decide)
  obtain ⟨owner, found⟩ := scope.find?_of_free "cons" free.2 named
  refine .library scope loaded fits (p := Library.foldRight) (by simp [Library.procedures]) free.1 ?_
  intro foldRight has
  refine .symbol fits.lower found ?_
  refine .variable scope fits.lower bound.1 (.variable scope fits.lower bound.2 ?_)
  exact yields_copy fits loaded spine acc held has frame

/-- A fold with this form copies lists one after the other, the last one first. -/
theorem yields_copies (fits : Fits (k + 6) room) (loaded : s.Loaded)
    {parts : List (Value × List Value)} (lists : ∀ part ∈ parts, Spine part.1 part.2 .nil)
    {last : Value} (reversed : Spine xs (parts.map (·.1)).reverse .nil) {i : FrameId}
    {h : Hidden} {bindings : List (String × Value)} (shields : h.Shields s i bindings)
    (free : bindings.lookup "fold-right" = none ∧ bindings.lookup "cons" = none)
    (inside : i < s.frames.size) {closure : Nat} {c : Closure}
    (held : s.procedures[closure]? = some (.closure c))
    (isMatch : c.Matches ⟨["acc", "xs"], none⟩ copyForm i) (has : s.Has Library.foldLeft ref)
    (frame : FrameId) :
    YieldsCall w room (.procedure ref) [.procedure closure, last, xs] frame s fun v t =>
      Spine v (parts.flatMap (·.2)) last ∧ Allocates s t := by
  let J := fun (_ : Hidden) (rest : List Value) acc t => Allocates s t ∧ ∃ passed left,
    parts.reverse = passed ++ left ∧ rest = left.map (·.1) ∧
      Spine acc (passed.reverse.flatMap (·.2)) last
  have start : J h (parts.map (·.1)).reverse last s :=
    ⟨.refl s, [], parts.reverse, rfl, List.map_reverse.symm, .nil⟩
  refine (yields_foldLeft_closure (J := J) ?_ ?_ ?_ fits reversed start shields inside held isMatch
    (by decide) has frame).mono ?_
  · rintro h rest acc t ⟨allocates, -⟩
    exact loaded.allocates allocates
  · rintro h rest acc t u ⟨allocates, copied⟩ further
    exact ⟨allocates.trans further, copied⟩
  · rintro h x rest acc t j ⟨allocates, passed, left, whole, items, copied⟩ shields - -
    rcases left with _ | ⟨part, left⟩
    · cases items
    cases items
    have member : part ∈ parts.reverse := by simp [whole]
    have list := lists part (List.mem_reverse.mp member)
    refine (yields_copyForm shields.scope (loaded.allocates allocates) fits.lower free ⟨rfl, rfl⟩
      list).mono ?_
    rintro v u ⟨copy, further⟩
    refine ⟨_, Hidden.onward_of_allocates further h, allocates.trans further, passed ++ [part], left,
      by simp [whole], rfl, ?_⟩
    rw [List.reverse_append]
    exact copy.append copied
  · rintro result t ⟨_, -, allocates, passed, left, whole, items, copied⟩
    obtain rfl := List.map_eq_nil_iff.mp items.symm
    rw [List.append_nil] at whole
    rw [← whole, List.reverse_reverse] at copied
    exact ⟨copied, allocates⟩

/-- The lists are copied, the last one apart: the result ends in that list itself. -/
theorem yields_append (fits : Fits (k + 6) room) (loaded : s.Loaded)
    {parts : List (Value × List Value)} (lists : ∀ part ∈ parts, Spine part.1 part.2 .nil)
    (last : Value) (has : s.Has Library.append ref) (frame : FrameId) :
    YieldsCall w room (.procedure ref) (parts.map (·.1) ++ [last]) frame s fun v t =>
      Spine v (parts.flatMap (·.2)) last ∧ Allocates s t := by
  refine .libraryVariadic has loaded fits rfl ?_
  intro list i t spine enters loaded
  have shields := Hidden.shields_enters enters .nothing
  have isPair : list.isPair = true := by
    cases parts <;> cases spine <;> rfl
  refine .testPair shields.scope loaded fits rfl rfl ?_
  rw [isPair]
  refine Yields.binding fits ?_
  refine .library shields.scope loaded fits.lower (p := Library.reverse)
    (by simp [Library.procedures]) rfl ?_
  intro reverse hasReverse
  refine .variable shields.scope fits.lower.lower rfl ?_
  refine (yields_reverse fits.lower loaded spine hasReverse i).mono ?_
  rintro backwards u ⟨reversed, made⟩
  rw [List.reverse_append, List.reverse_singleton, List.singleton_append] at reversed
  rcases reversed with _ | @⟨mark, _, _, rest, _, reversed⟩
  have shields := shields.allocates made
  refine ⟨Nat.lt_of_lt_of_le enters.inside made.frames_size, ?_⟩
  intro j v entersLet
  have loaded := (loaded.allocates made).allocates entersLet.allocates
  have shields := shields.enters entersLet
  refine .library shields.scope loaded fits (p := Library.foldLeft) (by simp [Library.procedures])
    rfl ?_
  intro foldLeft has
  refine .lambda fits.lower ?_
  intro c closure z isMatch further held
  have loaded := loaded.allocates further
  have shields := shields.allocates further
  refine .car shields.scope loaded fits.lower rfl rfl ?_
  refine .cdr shields.scope loaded fits.lower rfl rfl ?_
  have inside := Nat.lt_of_lt_of_le entersLet.inside further.frames_size
  refine (yields_copies fits loaded lists reversed shields ⟨rfl, rfl⟩ inside held isMatch
    (has.kept further.procedures) j).mono ?_
  rintro result y ⟨copied, allocates⟩
  exact ⟨copied, (((enters.allocates.trans made).trans entersLet.allocates).trans further).trans
    allocates⟩

end Procedures

end LazyLisp
