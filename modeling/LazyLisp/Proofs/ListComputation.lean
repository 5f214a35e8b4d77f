import LazyLisp.Proofs.ListLoading
import LazyLisp.Proofs.ListProcedures

/-!
The list library computes the functions that it is named for, on lists of every length.

A procedure that is given to it may do whatever it likes, as long as its calls return and rebind
none of the global names of the library. The calls are made once for each item, in order, and there
is only allocation between them. None of this needs more than a few levels of nesting besides those
of the calls themselves.
-/

namespace LazyLisp

namespace Walk

variable {σ : Type}

/-- `f` is called once for each item, in order, with only allocation between the calls. -/
inductive Leads (walk : Walk σ) (w : World) (room : Option Nat) (f : Value) :
    σ → List Value → Store → σ → Store → Prop where
  | nil {a s t} : Allocates s t → Leads walk w room f a [] s a t
  | cons {a x items s t frame v u b z} : Allocates s t → frame < t.frames.size →
      Calls w room f (walk.args a x) frame t v u →
      Leads walk w room f (walk.next a x v) items u b z → Leads walk w room f a (x :: items) s b z

/-- Each call that the walk comes to, from a new frame, returns and rebinds none of the global names
of the library. -/
def Returns (walk : Walk σ) (w : World) (room : Option Nat) (f : Value) (a : σ) (items : List Value)
    (s : Store) : Prop :=
  ∀ passed x rest, items = passed ++ x :: rest → ∀ b t, walk.Leads w room f a passed s b t →
    ∀ frame, s.frames.size ≤ frame → frame < t.frames.size →
      ∃ v u, Calls w room f (walk.args b x) frame t v u ∧ t.SameLibrary u

variable {walk : Walk σ} {w : World} {room : Option Nat} {f : Value} {a b : σ} {items : List Value}
  {s t u : Store}

theorem Leads.allocate (leads : walk.Leads w room f a items s b t) (allocates : Allocates t u) :
    walk.Leads w room f a items s b u := by
  induction leads with
  | nil made => exact .nil (made.trans allocates)
  | cons made inside called _ ih => exact .cons made inside called (ih allocates)

theorem Leads.call (leads : walk.Leads w room f a items s b t) {x v : Value} {frame : FrameId}
    (inside : frame < t.frames.size) (called : Calls w room f (walk.args b x) frame t v u) :
    walk.Leads w room f a (items ++ [x]) s (walk.next b x v) u := by
  induction leads with
  | nil made => exact .cons made inside called (.nil (.refl u))
  | cons made before first _ ih => exact .cons made before first (ih inside called)

/-- Each call that the walk comes to returns what the function `g` gives for its arguments. -/
def Follows (walk : Walk σ) (w : World) (room : Option Nat) (f : Value) (g : List Value → Value)
    (a : σ) (items : List Value) (s : Store) : Prop :=
  ∀ passed x rest, items = passed ++ x :: rest → ∀ b t, walk.Leads w room f a passed s b t →
    ∀ frame, frame < t.frames.size → ∀ v u, Calls w room f (walk.args b x) frame t v u →
      v = g (walk.args b x)

theorem Leads.eq_foldl {g : List Value → Value} (leads : walk.Leads w room f a items s b t)
    (follows : walk.Follows w room f g a items s) :
    b = items.foldl (fun a x => walk.next a x (g (walk.args a x))) a := by
  induction leads with
  | nil _ => rfl
  | @cons a x items s t frame v u b z made inside called _ ih =>
    have returned : v = g (walk.args a x) :=
      follows [] x items rfl a t (.nil made) frame inside v u called
    rw [List.foldl_cons, ← returned]
    apply ih
    intro passed y rest whole b t leads
    exact follows (x :: passed) y rest (by rw [whole, List.cons_append]) b t
      (.cons made inside called leads)

theorem Leads.eq_foldr {g : List Value → Value} {init v : Value}
    (leads : foldRight.Leads w room f init items.reverse s v t)
    (follows : foldRight.Follows w room f g init items.reverse s) :
    v = items.foldr (fun x a => g [x, a]) init := by
  rw [leads.eq_foldl follows, List.foldl_reverse]
  rfl

theorem Leads.eq_map {g : List Value → Value} {ys : List Value}
    (leads : map.Leads w room f [] items s ys t) (follows : map.Follows w room f g [] items s) :
    ys = items.map fun x => g [x] := by
  have collected (items acc : List Value) :
      items.foldl (fun ys x => ys ++ [g [x]]) acc = acc ++ items.map fun x => g [x] := by
    induction items generalizing acc with
    | nil => simp
    | cons x items ih => simp [ih]
  exact (leads.eq_foldl follows).trans (collected items [])

theorem Leads.eq_filter {g : List Value → Value} {ys : List Value}
    (leads : filter.Leads w room f [] items s ys t)
    (follows : filter.Follows w room f g [] items s) :
    ys = items.filter fun x => (g [x]).isTruthy := by
  have collected (items acc : List Value) :
      items.foldl (fun ys x => if (g [x]).isTruthy then ys ++ [x] else ys) acc =
        acc ++ items.filter fun x => (g [x]).isTruthy := by
    induction items generalizing acc with
    | nil => simp
    | cons x items ih => cases truthy : (g [x]).isTruthy <;> simp [ih, truthy]
  exact (leads.eq_foldl follows).trans (collected items [])

structure Progress (walk : Walk σ) (w : World) (room : Option Nat) (f : Value) (a : σ)
    (items : List Value) (s : Store) (h : Hidden) (rest : List Value) (b : σ) (t : Store) :
    Prop where
  lawful : h.Lawful t
  grown : s.frames.size ≤ t.frames.size
  new : ∀ i, h.frames i → s.frames.size ≤ i
  loaded : t.Loaded
  admits : h.Admits f t
  left : h.AdmitsAll rest t
  carried : h.AdmitsAll (walk.carried b) t
  leads : ∃ passed, items = passed ++ rest ∧ walk.Leads w room f a passed s b t

theorem invariant_progress (returns : walk.Returns w room f a items s) :
    walk.Invariant w room f (walk.Progress w room f a items s) where
  loaded progress := progress.loaded
  allocate {h rest b t u} progress made := by
    obtain ⟨passed, whole, leads⟩ := progress.leads
    have new (i : FrameId) : (h.hide t u).frames i → s.frames.size ≤ i := by
      rintro (hidden | ⟨later, -⟩)
      · exact progress.new i hidden
      · exact Nat.le_trans progress.grown later
    exact ⟨progress.lawful.hide made, Nat.le_trans progress.grown made.frames_size, new,
      progress.loaded.allocates made, progress.admits.hide made, progress.left.hide made,
      progress.carried.hide made, passed, whole, leads.allocate made⟩
  call {h x rest b t frame} progress isHidden inside := by
    obtain ⟨passed, whole, leads⟩ := progress.leads
    obtain ⟨v, u, called, same⟩ :=
      returns passed x rest whole b t leads frame (progress.new frame isHidden) inside
    have argsKnown : h.AdmitsAll (walk.args b x) t := by
      intro arg member
      rcases walk.args_carried b x arg member with carried | rfl
      · exact progress.carried arg carried
      · exact progress.left arg List.mem_cons_self
    obtain ⟨later, known⟩ := progress.lawful.call progress.admits argsKnown inside called
    refine ⟨v, u, called, h, later.onward, ?_⟩
    refine ⟨later.lawful, Nat.le_trans progress.grown later.wider.frames, progress.new,
      progress.loaded.kept same later.grows.procedures, later.wider.admits progress.admits, ?_, ?_,
      passed ++ [x], ?_, leads.call inside called⟩
    · exact fun item member => later.wider.admits (progress.left item (.tail x member))
    · intro value member
      rcases walk.next_carried b x v value member with carried | rfl
      · exact later.wider.admits (progress.carried value carried)
      · exact known
    · rw [whole, List.append_assoc, List.singleton_append]

theorem Progress.start (lawful : Hidden.nothing.Lawful s) (loaded : s.Loaded) (known : s.Knows f)
    (itemsKnown : Hidden.nothing.AdmitsAll items s)
    (carried : Hidden.nothing.AdmitsAll (walk.carried a) s) :
    walk.Progress w room f a items s .nothing items a s :=
  ⟨lawful, Nat.le_refl _, fun _ => False.elim, loaded, known, itemsKnown, carried, [], rfl,
    .nil (.refl s)⟩

theorem Progress.leads_all {h : Hidden} (progress : walk.Progress w room f a items s h [] b t) :
    walk.Leads w room f a items s b t := by
  obtain ⟨passed, whole, leads⟩ := progress.leads
  rwa [whole, List.append_nil]

end Walk

inductive QuotesAll : List Value → List Value → Prop where
  | nil : QuotesAll [] []
  | cons {mark mark' v forms vs} : QuotesAll forms vs →
      QuotesAll (.pair mark (.symbol "quote") (.pair mark' v .nil) :: forms) (v :: vs)

inductive IsCall (name : String) (args : List Value) : Value → Prop where
  | intro {mark rest forms} : Spine rest forms .nil → QuotesAll forms args →
      IsCall name args (.pair mark (.symbol name) rest)

/-- What the global names of the library stand for in the frame is what they stand for globally. -/
def Store.Sees (s : Store) (frame : FrameId) : Prop :=
  ∀ name ∈ Library.names, (Frame.find? s.frames name frame).map (·.2) = s.global? name

theorem Store.find?_globalFrame (s : Store) (name : String) :
    (Frame.find? s.frames name globalFrame).map (·.2) = s.global? name := by
  rw [Store.global?, Frame.find?]
  cases s.frames[globalFrame]? with
  | none => rfl
  | some f =>
    rw [Option.bind_some]
    cases bound : f.get? name with
    | some v => simp [bound]
    | none => cases around : f.outer <;> simp [bound, around, globalFrame]

theorem Store.sees_globalFrame (s : Store) : s.Sees globalFrame :=
  fun name _ => s.find?_globalFrame name

/-- The call of the named procedure with the values has a value of which `Q` holds. -/
def Computes (w : World) (room : Option Nat) (frame : FrameId) (s : Store) (name : String)
    (args : List Value) (Q : Value → Store → Prop) : Prop :=
  ∀ expr, IsCall name args expr → ∃ v t, Evaluates w room expr frame s v t ∧ Q v t

section Forms

variable {k : Nat} {w : World} {room : Option Nat} {frame : FrameId} {s : Store}

theorem QuotesAll.evaluates (fits : Fits (k + 1) room) {forms args : List Value}
    (quoted : QuotesAll forms args) : EvaluatesAll w room forms frame s args s := by
  induction quoted with
  | nil => exact .nil
  | cons _ ih => exact .cons (evaluates_of_value fits (.always fun fuel => rfl)) ih

theorem Computes.of_binds (fits : Fits (k + 2) room) {p : LibraryProcedure} (binds : s.Binds p)
    (plain : SpecialForm.ofName? p.name = none)
    (seen : (Frame.find? s.frames p.name frame).map (·.2) = s.global? p.name) {args : List Value}
    {Q : Value → Store → Prop}
    (yields : ∀ ref, s.Has p ref → YieldsCall w room (.procedure ref) args frame s Q) :
    Computes w room frame s p.name args Q := by
  rintro _ @⟨mark, rest, forms, spine, quoted⟩
  obtain ⟨ref, bound, has⟩ := binds
  rw [bound] at seen
  obtain ⟨⟨owner, f⟩, found, rfl⟩ := Option.map_eq_some_iff.mp seen
  obtain ⟨v, t, called, holds⟩ := yields ref has
  have evaluated : EvaluatesAll w (lower 1 room) forms frame s args s :=
    quoted.evaluates fits.lower
  exact ⟨v, t, evaluates_call fits spine plain found has.canCall evaluated called, holds⟩

theorem Computes.library (fits : Fits (k + 2) room) (loaded : s.Loaded) (sees : s.Sees frame)
    {p : LibraryProcedure} (member : p ∈ Library.procedures) {args : List Value}
    {Q : Value → Store → Prop}
    (yields : ∀ ref, s.Has p ref → YieldsCall w room (.procedure ref) args frame s Q) :
    Computes w room frame s p.name args Q := by
  have named := Library.mem_names_of_procedure member
  exact .of_binds fits (loaded.procedures p member) (Library.ofName?_eq_none p.name named)
    (sees p.name named) yields

end Forms

theorem Spine.admitsAll {h : Hidden} {s : Store} {v tail : Value} {items : List Value}
    (spine : Spine v items tail) (known : h.Admits v s) : h.AdmitsAll items s := by
  induction spine with
  | nil => exact .nil
  | cons _ ih => exact .cons known.1 (ih known.2)

section Computation

variable {w : World} {room : Option Nat} {frame : FrameId} {s : Store} {f init xs : Value}
  {items : List Value} (loaded : s.Loaded) (sees : s.Sees frame) (fits : Fits 6 room)
  (spine : Spine xs items .nil)

include loaded sees fits spine

section Calls

variable (lawful : Hidden.nothing.Lawful s) (fKnown : s.Knows f) (xsKnown : s.Knows xs)

include lawful fKnown xsKnown

theorem computes_foldLeft (initKnown : s.Knows init)
    (returns : Walk.foldLeft.Returns w (lower 1 room) f init items s) :
    Computes w room frame s "fold-left" [f, init, xs] fun v t =>
      Walk.foldLeft.Leads w (lower 1 room) f init items s v t ∧
        ∀ g, Walk.foldLeft.Follows w (lower 1 room) f g init items s →
          v = items.foldl (fun a x => g [a, x]) init := by
  refine .library fits loaded sees (p := Library.foldLeft) (by simp [Library.procedures]) ?_
  intro ref has
  have start : Walk.foldLeft.Progress w (lower 1 room) f init items s .nothing items init s :=
    .start lawful loaded fKnown (spine.admitsAll xsKnown) (.cons initKnown .nil)
  refine (yields_foldLeft (Walk.invariant_progress returns) fits spine start has frame).mono ?_
  rintro v t ⟨h, -, ended⟩
  exact ⟨ended.leads_all, fun g follows => ended.leads_all.eq_foldl follows⟩

theorem computes_foldRight (initKnown : s.Knows init)
    (returns : Walk.foldRight.Returns w (lower 1 room) f init items.reverse s) :
    Computes w room frame s "fold-right" [f, init, xs] fun v t =>
      Walk.foldRight.Leads w (lower 1 room) f init items.reverse s v t ∧
        ∀ g, Walk.foldRight.Follows w (lower 1 room) f g init items.reverse s →
          v = items.foldr (fun x a => g [x, a]) init := by
  refine .library fits loaded sees (p := Library.foldRight) (by simp [Library.procedures]) ?_
  intro ref has
  have itemsKnown : Hidden.nothing.AdmitsAll items.reverse s :=
    fun item member => spine.admitsAll xsKnown item (List.mem_reverse.mp member)
  have start : Walk.foldRight.Progress w (lower 1 room) f init items.reverse s .nothing
      items.reverse init s :=
    .start lawful loaded fKnown itemsKnown (.cons initKnown .nil)
  refine (yields_foldRight (Walk.invariant_progress returns) fits spine start has frame).mono ?_
  rintro v t ⟨h, -, ended⟩
  exact ⟨ended.leads_all, fun g follows => ended.leads_all.eq_foldr follows⟩

theorem computes_map (returns : Walk.map.Returns w (lower 3 room) f [] items s) :
    Computes w room frame s "map" [f, xs] fun v t => ∃ ys, Spine v ys .nil ∧
      Walk.map.Leads w (lower 3 room) f [] items s ys t ∧
        ∀ g, Walk.map.Follows w (lower 3 room) f g [] items s →
          ys = items.map fun x => g [x] := by
  refine .library fits loaded sees (p := Library.map) (by simp [Library.procedures]) ?_
  intro ref has
  have deep : lower 1 (lower 1 (lower 1 room)) = lower 3 room := by simp [lower_lower]
  rw [← deep] at returns ⊢
  have start : Walk.map.Progress w (lower 1 (lower 1 (lower 1 room))) f [] items s .nothing
      items [] s :=
    .start lawful loaded fKnown (spine.admitsAll xsKnown) .nil
  refine (yields_map (Walk.invariant_progress returns) fits spine start has frame).mono ?_
  rintro v t ⟨h, ys, listed, ended⟩
  exact ⟨ys, listed, ended.leads_all, fun g follows => ended.leads_all.eq_map follows⟩

theorem computes_filter (returns : Walk.filter.Returns w (lower 3 room) f [] items s) :
    Computes w room frame s "filter" [f, xs] fun v t => ∃ ys, Spine v ys .nil ∧
      Walk.filter.Leads w (lower 3 room) f [] items s ys t ∧
        ∀ g, Walk.filter.Follows w (lower 3 room) f g [] items s →
          ys = items.filter fun x => (g [x]).isTruthy := by
  refine .library fits loaded sees (p := Library.filter) (by simp [Library.procedures]) ?_
  intro ref has
  have deep : lower 1 (lower 1 (lower 1 room)) = lower 3 room := by simp [lower_lower]
  rw [← deep] at returns ⊢
  have start : Walk.filter.Progress w (lower 1 (lower 1 (lower 1 room))) f [] items s .nothing
      items [] s :=
    .start lawful loaded fKnown (spine.admitsAll xsKnown) .nil
  refine (yields_filter (Walk.invariant_progress returns) fits spine start has frame).mono ?_
  rintro v t ⟨h, ys, listed, ended⟩
  exact ⟨ys, listed, ended.leads_all, fun g follows => ended.leads_all.eq_filter follows⟩

end Calls

end Computation

/-- The list library computes, for lists of every length, the functions that its procedures are
named for. The procedures without a procedure among their arguments only allocate. The others make
one call for each item, in order; the calls have all the room but one level in the folds, and all
but three in `map` and `filter`. Six levels are enough for everything else. -/
theorem listLibrary_computes {w : World} {room : Option Nat} {frame : FrameId} {s : Store}
    (lawful : Hidden.nothing.Lawful s) (loaded : s.Loaded) (sees : s.Sees frame)
    (fits : Fits 6 room) :
    (∀ xs items, Spine xs items .nil →
      Computes w room frame s "length" [xs]
        (fun v t => v = .atom (.int items.length) ∧ Allocates s t) ∧
      Computes w room frame s "reverse" [xs]
        (fun v t => Spine v items.reverse .nil ∧ Allocates s t) ∧
      (∀ (n : Nat) x, items[n]? = some x →
        Computes w room frame s "nth" [xs, .atom (.int n)] fun v t => v = x ∧ Allocates s t) ∧
      (∀ front x, items = front ++ [x] →
        Computes w room frame s "last" [xs] fun v t => v = x ∧ Allocates s t) ∧
      ∀ f, s.Knows f → s.Knows xs →
        (∀ init, s.Knows init →
          (Walk.foldLeft.Returns w (lower 1 room) f init items s →
            Computes w room frame s "fold-left" [f, init, xs] fun v t =>
              Walk.foldLeft.Leads w (lower 1 room) f init items s v t ∧
                ∀ g, Walk.foldLeft.Follows w (lower 1 room) f g init items s →
                  v = items.foldl (fun a x => g [a, x]) init) ∧
          (Walk.foldRight.Returns w (lower 1 room) f init items.reverse s →
            Computes w room frame s "fold-right" [f, init, xs] fun v t =>
              Walk.foldRight.Leads w (lower 1 room) f init items.reverse s v t ∧
                ∀ g, Walk.foldRight.Follows w (lower 1 room) f g init items.reverse s →
                  v = items.foldr (fun x a => g [x, a]) init)) ∧
        (Walk.map.Returns w (lower 3 room) f [] items s →
          Computes w room frame s "map" [f, xs] fun v t => ∃ ys, Spine v ys .nil ∧
            Walk.map.Leads w (lower 3 room) f [] items s ys t ∧
              ∀ g, Walk.map.Follows w (lower 3 room) f g [] items s →
                ys = items.map fun x => g [x]) ∧
        (Walk.filter.Returns w (lower 3 room) f [] items s →
          Computes w room frame s "filter" [f, xs] fun v t => ∃ ys, Spine v ys .nil ∧
            Walk.filter.Leads w (lower 3 room) f [] items s ys t ∧
              ∀ g, Walk.filter.Follows w (lower 3 room) f g [] items s →
                ys = items.filter fun x => (g [x]).isTruthy)) ∧
    Computes w room frame s "append" [] (fun v t => v = .nil ∧ Allocates s t) ∧
    (∀ parts : List (Value × List Value), (∀ part ∈ parts, Spine part.1 part.2 .nil) → ∀ last,
      Computes w room frame s "append" (parts.map (·.1) ++ [last]) fun v t =>
        Spine v (parts.flatMap (·.2)) last ∧ Allocates s t) ∧
    ∀ a b : Int, Computes w room frame s "range" [.atom (.int a), .atom (.int b)] fun v t =>
      Spine v (integersFrom a (b - a).toNat) .nil ∧ Allocates s t := by
  have computes {p : LibraryProcedure} := Computes.library (w := w) fits loaded sees (p := p)
  refine ⟨?_, ?_, ?_, ?_⟩
  · intro xs items spine
    refine ⟨?_, ?_, ?_, ?_, ?_⟩
    · exact computes (p := Library.length) (by simp [Library.procedures]) fun ref has =>
        yields_length fits loaded spine has frame
    · exact computes (p := Library.reverse) (by simp [Library.procedures]) fun ref has =>
        yields_reverse fits loaded spine has frame
    · intro n x found
      exact computes (p := Library.nth) (by simp [Library.procedures]) fun ref has =>
        yields_nth fits loaded spine found has frame
    · rintro front x rfl
      exact computes (p := Library.last) (by simp [Library.procedures]) fun ref has =>
        yields_last fits loaded spine has frame
    · intro f fKnown xsKnown
      refine ⟨fun init initKnown => ⟨?_, ?_⟩, ?_, ?_⟩
      · exact computes_foldLeft loaded sees fits spine lawful fKnown xsKnown initKnown
      · exact computes_foldRight loaded sees fits spine lawful fKnown xsKnown initKnown
      · exact computes_map loaded sees fits spine lawful fKnown xsKnown
      · exact computes_filter loaded sees fits spine lawful fKnown xsKnown
  · exact computes (p := Library.append) (by simp [Library.procedures]) fun ref has =>
      yields_append_nil fits loaded has frame
  · intro parts lists last
    exact computes (p := Library.append) (by simp [Library.procedures]) fun ref has =>
      yields_append fits loaded lists last has frame
  · intro a b
    exact computes (p := Library.range) (by simp [Library.procedures]) fun ref has =>
      yields_range fits loaded a b has frame

def nestedList : Value :=
  .pair 2 (.pair 0 (.atom (.int 7)) .nil) (.pair 3 (.pair 1 (.atom (.int 8)) .nil) .nil)

def carOf : List Value → Value
  | [.pair _ a _] => a
  | _ => .nil

section Car

variable {room : Option Nat} {ref : Nat} {s t : Store} (fits : Fits 2 room)
  (held : s.procedures[ref]? = some (.primitive .car))

include fits held

theorem calls_car {x : Value} (isPair : ∃ mark a d, x = .pair mark a d) (frame : FrameId) :
    Calls bareWorld room (.procedure ref) [x] frame s (carOf [x]) s := by
  obtain ⟨mark, a, d, rfl⟩ := isPair
  exact calls_primitive fits held fun m again => Primitive.run_car m again frame s mark a d

theorem Walk.Leads.allocates_car {items ys zs : List Value}
    (pairs : ∀ x ∈ items, ∃ mark a d, x = .pair mark a d)
    (leads : map.Leads bareWorld room (.procedure ref) ys items s zs t) : Allocates s t := by
  induction leads with
  | nil made => exact made
  | @cons ys x items s t frame v u zs z made _ called _ ih =>
    have still := made.procedures ref _ held
    obtain ⟨-, rfl⟩ := (calls_car fits still (pairs x List.mem_cons_self) frame).unique called
    exact made.trans (ih still fun y member => pairs y (.tail x member))

end Car

theorem listLibrary_computes_mapCar : ∃ car, libraryStore.global? "car" = some car ∧
    Hidden.nothing.Lawful libraryStore ∧ libraryStore.Loaded ∧
    libraryStore.Sees Store.globalFrame ∧ Fits 6 (some 6) ∧
    Computes bareWorld (some 6) Store.globalFrame libraryStore "map" [car, nestedList] fun v t =>
      Spine v [.atom (.int 7), .atom (.int 8)] .nil ∧ Walk.map.Leads bareWorld (some 3) car []
        [.pair 0 (.atom (.int 7)) .nil, .pair 1 (.atom (.int 8)) .nil] libraryStore
        [.atom (.int 7), .atom (.int 8)] t := by
  have lawful := reachable_libraryStore.lawful
  have loaded := loaded_libraryStore
  have sees := libraryStore.sees_globalFrame
  have fits {k n : Nat} (enough : k ≤ n) : Fits k (some n) := by
    rintro _ ⟨⟩
    exact enough
  obtain ⟨ref, bound, held⟩ := loaded.primitives .car (by decide)
  have known : libraryStore.Knows (.procedure ref) := ⟨Hidden.old_of_getElem? held, id⟩
  have listKnown : libraryStore.Knows nestedList := by
    simp [Store.Knows, nestedList, Hidden.Admits]
  have pairs : ∀ x ∈ [Value.pair 0 (.atom (.int 7)) .nil, .pair 1 (.atom (.int 8)) .nil],
      ∃ mark a d, x = .pair mark a d := by simp
  have calls (passed : List Value) (x : Value) (rest : List Value)
      (whole : [Value.pair 0 (.atom (.int 7)) .nil, .pair 1 (.atom (.int 8)) .nil] =
        passed ++ x :: rest) (ys : List Value) (t : Store)
      (leads : Walk.map.Leads bareWorld (some 3) (.procedure ref) [] passed libraryStore ys t)
      (frame : FrameId) :
      Calls bareWorld (some 3) (.procedure ref) [x] frame t (carOf [x]) t := by
    rw [whole] at pairs
    have room : Fits 2 (some 3) := fits (by decide)
    have allocates := leads.allocates_car room held fun y member =>
      pairs y (List.mem_append_left _ member)
    exact calls_car room (allocates.procedures ref _ held) (pairs x (by simp)) frame
  have enough : Fits 6 (some 6) := fits (Nat.le_refl 6)
  have computes := ((listLibrary_computes (w := bareWorld) lawful loaded sees enough).1
    nestedList _ (.cons (.cons .nil))).2.2.2.2 _ known listKnown
  refine ⟨_, bound, lawful, loaded, sees, enough, fun expr isCall => ?_⟩
  obtain ⟨v, t, evaluated, ys, listed, leads, given⟩ := computes.2.1
    (fun passed x rest whole ys t leads frame _ _ =>
      ⟨_, t, calls passed x rest whole ys t leads frame, fun _ _ => rfl⟩) expr isCall
  obtain rfl := given carOf fun passed x rest whole ys t leads frame _ v u called =>
    ((calls passed x rest whole ys t leads frame).unique called).1
  exact ⟨v, t, evaluated, listed, leads⟩

end LazyLisp
