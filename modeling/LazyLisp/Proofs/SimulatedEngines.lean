import LazyLisp.Proofs.ReadingBreakdowns
import LazyLisp.Proofs.Simulation

/-!
What is done with engines that follow each other follows: walking along lists, comparing values,
copying templates, expanding forms, reading and loading.
-/

namespace LazyLisp

namespace Simulation

open Following

/-- The second engine evaluates and forces as the first one does. -/
structure Engines (T : Simulation) (m m' : Engine) : Prop where
  world : m.world = m'.world
  room : m.room = m'.room
  fuel : T.fuels.Related m.fuel m'.fuel
  eval : ∀ {c v w frame}, T.values c v w → T.frames c frame → ∀ name,
    T.Follows c T.values (m.eval v frame name) (m'.eval w frame name)
  force : ∀ c side ref, T.Follows c T.values (m.force side ref) (m'.force side ref)

variable {T : Simulation} {m m' : Engine} {c : T.Moment} {v w : Value} {frame : FrameId}
  {α β : Type}

namespace Engines

variable (engines : T.Engines m m')

include engines

section Texts

variable (same : T.looks c v w)

include same

theorem readable : T.Follows c T.Same (m.readable v) (m'.readable w) := by
  unfold Engine.readable
  rw [engines.room]
  exact .look (T.write same _ true) fun _ _ => ofWritten

theorem plain : T.Follows c T.Same (m.plain v) (m'.plain w) := by
  unfold Engine.plain
  rw [engines.room]
  exact .look (T.write same _ false) fun _ _ => ofWritten

theorem inMessage : T.Follows c T.Same (m.inMessage v) (m'.inMessage w) := by
  unfold Engine.inMessage
  rw [engines.room, engines.world]
  exact .look (T.inMessage same _ _) fun _ _ => ofWritten

theorem failWith {R : T.Moment → α → β → Prop} (kind message : String) :
    T.Follows c R (m.failWith kind message v) (m'.failWith kind message w) :=
  (engines.inMessage same).andThen fun _ _ _ => fail _ _

end Texts

theorem fault (kind : String) (same : T.values c v w) :
    T.Follows c T.faults (m.fault kind (some v)) (m'.fault kind (some w)) := by
  unfold Engine.fault
  rw [engines.room]
  refine .look (T.summary (.some same) _ _) fun d later written => (ofWritten written).andThen ?_
  refine fun e further summary => .pure fun f latest => T.faults_raised ?_
  have values := T.values_later (T.trans later (T.trans further latest)) same
  exact ⟨rfl, .some values, rfl, ⟨rfl, rfl⟩, ⟨rfl, rfl⟩, ⟨rfl, rfl⟩, rfl, rfl⟩

theorem again {f g : Fault} (same : T.faults c f g) :
    T.Follows c T.faults (m.again f) (m'.again g) := by
  have renewed {d : T.Moment} (later : T.Later c d) {written : Store.Written}
      (shown : ∀ summary, written = .ok summary → f.ShownAs summary) : T.Follows d T.faults
      (do return f.again (← Run.ofWritten written)) (do return g.again (← Run.ofWritten written)) :=
    andWith fun summary given => .pure fun e further =>
      T.faults_again (T.faults_later (T.trans later further) same) (shown summary given)
  have values := T.value_rel same
  unfold Engine.again
  rw [engines.room, T.kind_eq same]
  by_cases atom : ∃ a, f.value = some (.atom a)
  · obtain ⟨a, held⟩ := atom
    have other : g.value = some (.atom a) := by
      rw [held] at values
      generalize g.value = value at values
      cases values with
      | some values =>
        cases T.matches_of_values values
        rfl
    rw [held, other]
    refine renewed (T.refl c) fun summary written b _ => ?_
    rw [held, T.kind_eq same]
    exact written
  · have renews : ∀ d, T.Later c d → ∀ written : Store.Written, T.Follows d T.faults
        (do return f.again (← Run.ofWritten written))
        (do return g.again (← Run.ofWritten written)) :=
      fun d later written => renewed later fun summary _ a held => absurd ⟨a, held⟩ atom
    exact (T.summary values _ _).andThen renews

theorem half (side : Side) (same : T.values c v w) :
    T.Follows c T.values (m.half side v) (m'.half side w) := by
  cases T.matches_of_values same with
  | pair car cdr =>
    cases side with
    | car => exact .value car
    | cdr => exact .value cdr
  | lazyPair ref => exact engines.force c side ref
  | _ => exact .dangling

theorem car (same : T.values c v w) : T.Follows c T.values (m.car v) (m'.car w) :=
  engines.half .car same

theorem cdr (same : T.values c v w) : T.Follows c T.values (m.cdr v) (m'.cdr w) :=
  engines.half .cdr same

end Engines

section Walks

def Walked (T : Simulation) (R : T.Moment → α → β → Prop) (c : T.Moment) (p : α × Value)
    (q : β × Value) : Prop :=
  R c p.1 q.1 ∧ T.values c p.2 q.2

def Strides (T : Simulation) (c : T.Moment) (R : T.Moment → α → β → Prop)
    (f : α → Run Value → Run (Option α)) (g : β → Run Value → Run (Option β)) : Prop :=
  ∀ d, T.Later c d → ∀ a b, R d a b → ∀ head head', T.Follows d T.values head head' →
    T.Follows d (fun e => Option.Rel (R e)) (f a head) (g b head')

variable {R : T.Moment → α → β → Prop} {f : α → Run Value → Run (Option α)}
  {g : β → Run Value → Run (Option β)} {a : α} {b : β} (stable : T.Stable R)

theorem Strides.later {d : T.Moment} (strides : T.Strides c R f g) (later : T.Later c d) :
    T.Strides d R f g := fun e further => strides e (T.trans later further)

include stable

theorem stop (start : R c a b) (same : T.values c v w) :
    T.Follows c (T.Walked R) (pure (a, v)) (pure (b, w)) :=
  .pure fun _ later => ⟨stable later start, T.values_later later same⟩

theorem foldEager {hop : α → Nat → Run (α × Value)} {hop' : β → Nat → Run (β × Value)}
    (strides : T.Strides c R f g)
    (hops : ∀ d, T.Later c d → ∀ a b, R d a b → ∀ ref, T.values d (.lazyPair ref) (.lazyPair ref) →
      T.Follows d (T.Walked R) (hop a ref) (hop' b ref)) (start : R c a b) (same : T.values c v w) :
    T.Follows c (T.Walked R) (Engine.foldEager hop f a v) (Engine.foldEager hop' g b w) := by
  induction v generalizing c w a b with
  | pair mark car cdr _ ih =>
    cases T.matches_of_values same with
    | pair carSame cdrSame =>
      refine (strides c (T.refl c) a b start _ _ (.value carSame)).bind ?_
      intro d later next next' known
      cases known with
      | some known =>
        refine ih (strides.later later) ?_ known (T.values_later later cdrSame)
        exact fun e further => hops e (T.trans later further)
      | none => exact stop stable (stable later start) (T.values_later later same)
  | lazyPair ref =>
    cases T.matches_of_values same
    exact hops c (T.refl c) a b start ref same
  | _ =>
    cases T.matches_of_values same
    exact stop stable start same

theorem foldSpineWithin (engines : T.Engines m m') (strides : T.Strides c R f g) {fuel fuel' : Nat}
    (fuels : T.fuels.Related fuel fuel') (start : R c a b) (same : T.values c v w) :
    T.Follows c (T.Walked R) (m.foldSpineWithin f fuel a v) (m'.foldSpineWithin g fuel' b w) := by
  induction fuel generalizing c v w a b fuel' with
  | zero => exact T.follows_outOfFuel fuels (by rintro rfl; rfl)
  | succ fuel ih =>
    obtain ⟨fuel', rfl, less⟩ := T.fuels.of_succ fuels
    refine foldEager stable strides ?_ start same
    intro d later a b known ref refSame
    refine (strides d later a b known _ _ (engines.force d .car ref)).bind ?_
    intro e further next next' stepped
    cases stepped with
    | some stepped =>
      refine (engines.force e .cdr ref).bind fun f latest rest rest' same => ?_
      exact ih (strides.later (T.trans later (T.trans further latest))) less (stable latest stepped)
        same
    | none => exact stop stable (stable further known) (T.values_later further refSame)

theorem foldSpine (engines : T.Engines m m') (strides : T.Strides c R f g) (start : R c a b)
    (same : T.values c v w) :
    T.Follows c (T.Walked R) (m.foldSpine f a v) (m'.foldSpine g b w) :=
  foldSpineWithin stable engines strides (T.fuels.succ engines.fuel) start same

end Walks

namespace Engines

variable (engines : T.Engines m m')

include engines

theorem items (kind what : String) (same : T.values c v w) :
    T.Follows c T.All (m.items kind what v) (m'.items kind what w) := by
  refine (foldSpine (R := T.All) T.all_later engines ?_ .nil same).bind ?_
  · intro d later passed passed' known head head' heads
    refine heads.bind fun e further item item' same => .pure fun f latest => ?_
    exact .some (.cons (T.values_later latest same) (T.all_later (T.trans further latest) known))
  · rintro d later ⟨passed, last⟩ ⟨passed', last'⟩ ⟨known, rest⟩
    dsimp only at rest ⊢
    rw [(T.matches_of_values rest).isNil_eq]
    refine .ite (fun _ => .pure fun e further => ?_) fun _ => ?_
    · exact T.all_later further (List.rel_reverse known)
    · exact engines.failWith (T.looks_of_values (T.values_later later same)) _ _

theorem arguments (same : T.values c v w) :
    T.Follows c T.All (m.arguments v) (m'.arguments w) := engines.items _ _ same

theorem isProperList (same : T.values c v w) :
    T.Follows c T.Same (m.isProperList v) (m'.isProperList w) := by
  refine (foldSpine (R := T.Same) (fun _ _ _ _ _ => id) engines ?_ rfl same).bind ?_
  · intro d later a b _ head head' heads
    exact .pure fun _ _ => .some rfl
  · rintro d later ⟨_, last⟩ ⟨_, last'⟩ ⟨-, rest⟩
    exact .pure fun _ _ => (T.matches_of_values rest).isNil_eq

theorem signature (same : T.values c v w) :
    T.Follows c T.Same (m.signature v) (m'.signature w) := by
  have refused {β : Type} {d : T.Moment} (later : T.Later c d) {R : T.Moment → β → β → Prop}
      (message : String) : T.Follows d R (m.failWith Fault.Kind.malformedForm message v)
      (m'.failWith Fault.Kind.malformedForm message w) :=
    engines.failWith (T.looks_of_values (T.values_later later same)) _ _
  refine (foldSpine (R := T.Same) (fun _ _ _ _ _ => id) engines ?_ rfl same).bind ?_
  · rintro d later names _ rfl head head' heads
    refine heads.bind fun e further name name' known => ?_
    cases T.matches_of_values known with
    | atom a =>
      cases a with
      | symbol name => exact .pure fun _ _ => .some rfl
      | _ => exact refused (T.trans later further) _
    | _ => exact refused (T.trans later further) _
  · rintro d later ⟨names, last⟩ ⟨_, last'⟩ ⟨rfl, rest⟩
    dsimp only at rest ⊢
    cases T.matches_of_values rest with
    | atom a =>
      cases a with
      | nil => exact .same
      | symbol name => exact .same
      | _ => exact refused later _
    | _ => exact refused later _

theorem inTail (tail : Bool) (same : T.values c v w) (shown : T.frames c frame)
    (name : Option String) :
    T.Follows c T.Steps (m.inTail tail v frame name) (m'.inTail tail w frame name) := by
  cases tail with
  | true =>
    exact .pure fun d later => .tail name (T.frames_later later shown) (T.values_later later same)
  | false => exact (engines.eval same shown name).yields

end Engines

theorem bodyExpr {forms forms' : List Value} (same : T.All c forms forms') :
    T.Follows c T.values (bodyExpr forms) (LazyLisp.bodyExpr forms') := by
  cases same with
  | nil => exact .atom _
  | cons first rest =>
    cases rest with
    | nil => exact .value first
    | cons second others =>
      exact list (.cons (T.values_atom c _) (.cons first (.cons second others)))

theorem zip_bindings {args args' : List Value} (same : T.All c args args') (names : List String) :
    List.Forall₂ (T.Bindings c) (names.zip args) (names.zip args') := by
  induction same generalizing names with
  | nil => cases names <;> exact .nil
  | cons first _ ih =>
    cases names with
    | nil => exact .nil
    | cons name names => exact .cons ⟨rfl, first⟩ (ih names)

theorem forIn_define (shown : T.frames c frame) {bs bs' : List (String × Value)}
    (same : List.Forall₂ (T.Bindings c) bs bs') :
    T.Follows c T.Same
      (ForIn.forIn bs () fun p _ => do
        Run.define frame p.1 p.2
        pure (.yield ()) : Run Unit)
      (ForIn.forIn bs' () fun p _ => do
        Run.define frame p.1 p.2
        pure (.yield ())) := by
  refine (forIn (P := T.Bindings) (R := fun d _ _ => T.frames d frame) T.bindings_later
    (fun _ _ _ _ => T.frames_later) same ?_ shown).mono (fun _ _ _ _ _ => id) fun _ _ _ _ _ => rfl
  rintro d later ⟨name, v⟩ ⟨_, w⟩ _ _ ⟨rfl, values⟩ shown
  refine (T.define shown name values).andThen fun e further _ => .pure fun f latest => ?_
  exact ⟨(), (), rfl, rfl, T.frames_later (T.trans further latest) shown⟩

theorem bindArguments (sig : Signature) {args args' : List Value} (same : T.All c args args')
    (shown : T.frames c frame) :
    T.Follows c T.Inside (sig.bind args frame) (sig.bind args' frame) := by
  unfold Signature.bind
  rw [same.length_eq]
  refine .guard (R := T.Same) (fail _ _) ?_
  refine (T.newFrame shown).bind ?_
  rintro d later inner _ ⟨rfl, inside⟩
  refine (forIn_define inside (zip_bindings (T.all_later later same) _)).andThen ?_
  intro e further _
  have inside := T.frames_later further inside
  cases sig.rest with
  | none => exact .pure fun f latest => ⟨rfl, T.frames_later latest inside⟩
  | some rest =>
    refine (list (List.forall₂_drop _ (T.all_later (T.trans later further) same))).bind ?_
    intro f latest items items' known
    have inside := T.frames_later latest inside
    refine (T.define inside rest known).andThen fun g later _ => .pure fun h last => ?_
    exact ⟨rfl, T.frames_later (T.trans later last) inside⟩

def Comparisons (T : Simulation) (hop hop' : Engine.Comparison) : Prop :=
  ∀ {c v v' w w'}, T.values c v v' → T.values c w w' → ∀ meeting room,
    T.Follows c T.Same (hop meeting room v w) (hop' meeting room v' w')

theorem equalLeaf_eq {v' w' : Value} (same : T.values c v w) (same' : T.values c v' w') :
    v.equalLeaf v' = w.equalLeaf w' := by
  have identical := T.isSame_eq same same'
  cases T.matches_of_values same with
  | nan m n => cases T.matches_of_values same' <;> rfl
  | _ => exact identical

section Equality

variable {hop hop' : Engine.Comparison} (hops : T.Comparisons hop hop') {v' w' : Value}

include hops

theorem equalEager (meeting : Engine.Meeting) (room : Option Nat) (first : T.values c v v')
    (second : T.values c w w') :
    T.Follows c T.Same (Engine.equalEager hop meeting room v w)
      (Engine.equalEager hop' meeting room v' w') := by
  fun_induction Engine.equalEager hop meeting room v w generalizing c v' w' with
  | case1 meeting room m a d n b e same =>
    have identical := T.isSame_eq first second
    cases T.matches_of_values first
    cases T.matches_of_values second
    simp only [Value.isSame, same] at identical
    simp only [Engine.equalEager, ← identical, if_true]
    exact .same
  | case2 meeting room m a d n b e other full =>
    have identical := T.isSame_eq first second
    cases T.matches_of_values first
    cases T.matches_of_values second
    simp only [Value.isSame, other] at identical
    simp only [Engine.equalEager, ← identical, full]
    exact .overflow
  | case3 meeting room m a d n b e other inner deeper heads tails =>
    have identical := T.isSame_eq first second
    cases T.matches_of_values first with
    | pair carSame cdrSame =>
      cases T.matches_of_values second with
      | pair carSame' cdrSame' =>
        simp only [Value.isSame, other] at identical
        simp only [Engine.equalEager, ← identical, deeper]
        refine (heads carSame carSame').andThen fun d later equal => .ite (fun _ => ?_) fun _ => .same
        exact tails (T.values_later later cdrSame) (T.values_later later cdrSame')
  | case4 meeting room v w noPairs lazy =>
    rw [(T.matches_of_values first).isPair_eq, (T.matches_of_values second).isPair_eq] at lazy
    rw [Engine.equalEager]
    · simp only [lazy, if_true]
      exact hops first second _ _
    · rintro m a d n b e rfl rfl
      cases T.matches_of_values first
      cases T.matches_of_values second
      exact noPairs _ _ _ _ _ _ rfl rfl
  | case5 meeting room v w noPairs leaf =>
    rw [(T.matches_of_values first).isPair_eq, (T.matches_of_values second).isPair_eq] at leaf
    rw [Engine.equalEager]
    · simp only [leaf, equalLeaf_eq first second]
      exact .same
    · rintro m a d n b e rfl rfl
      cases T.matches_of_values first
      cases T.matches_of_values second
      exact noPairs _ _ _ _ _ _ rfl rfl

theorem equalLazy_rests (engines : T.Engines m m') (room : Option Nat) (first : T.values c v v')
    (second : T.values c w w') :
    T.Follows c T.Same (m.equalLazy hop .rests room v w) (m'.equalLazy hop' .rests room v' w') := by
  change T.Follows c T.Same (ite (v.isSame w = true) _ _) (ite (v'.isSame w' = true) _ _)
  rw [T.isSame_eq first second]
  refine .ite (fun _ => .same) fun _ => ?_
  refine (engines.car first).bind fun d later a a' carSame => ?_
  refine (engines.car (T.values_later later second)).bind fun e further b b' carSame' => ?_
  cases descend room with
  | none => exact .overflow
  | some inner =>
    refine (hops (T.values_later further carSame) carSame' _ _).andThen fun f last equal => ?_
    have since := T.trans later (T.trans further last)
    refine .ite (fun _ => ?_) fun _ => .same
    refine (engines.cdr (T.values_later since first)).bind fun g more d d' cdrSame => ?_
    have second := T.values_later (T.trans since more) second
    refine (engines.cdr second).bind fun h latest e e' cdrSame' => ?_
    exact hops (T.values_later latest cdrSame) cdrSame' _ _

theorem equalLazy (engines : T.Engines m m') (meeting : Engine.Meeting) (room : Option Nat)
    (first : T.values c v v') (second : T.values c w w') :
    T.Follows c T.Same (m.equalLazy hop meeting room v w) (m'.equalLazy hop' meeting room v' w') := by
  have forward := equalLazy_rests hops engines room first second
  have backward := equalLazy_rests hops engines room second first
  unfold Engine.equalLazy at forward backward ⊢
  rw [(T.matches_of_values first).isLazy_eq, (T.matches_of_values second).isLazy_eq]
  cases meeting == .items && w'.isLazy && !v'.isLazy with
  | true => exact backward
  | false => exact forward

end Equality

theorem equalWithin (engines : T.Engines m m') {fuel fuel' : Nat} (fuels : T.fuels.Related fuel fuel') :
    T.Comparisons (m.equalWithin fuel) (m'.equalWithin fuel') := by
  induction fuel generalizing fuel' with
  | zero =>
    intro c v v' w w' _ _ meeting room
    exact T.follows_outOfFuel fuels (by rintro rfl; rfl)
  | succ fuel ih =>
    obtain ⟨fuel', rfl, less⟩ := T.fuels.of_succ fuels
    intro c v v' w w' first second meeting room
    refine equalEager ?_ meeting room first second
    exact fun first second _ _ => equalLazy (ih less) engines _ _ first second

theorem equal (engines : T.Engines m m') {v' w' : Value} (first : T.values c v v')
    (second : T.values c w w') : T.Follows c T.Same (m.equal v w) (m'.equal v' w') := by
  unfold Engine.equal
  rw [(T.matches_of_values first).isPair_eq, (T.matches_of_values second).isPair_eq,
    T.isSame_eq first second, engines.room]
  exact .ite (fun _ => equalWithin engines (T.fuels.succ engines.fuel) first second _ _)
    fun _ => .same

section Templates

variable (engines : T.Engines m m')

include engines

theorem operand (same : T.values c v w) :
    T.Follows c T.values (Template.operand m v) (Template.operand m' w) := by
  refine (engines.cdr same).bind fun d later rest rest' restSame => ?_
  rw [(T.matches_of_values restSame).isPair_eq]
  refine .choose (R := T.Same) ?_ .same ?_
  · refine (engines.cdr restSame).mapSame fun _ a b known => ?_
    rw [(T.matches_of_values known).isPair_eq]
  · rintro e further single _ rfl
    refine .ite (fun _ => engines.car (T.values_later further restSame)) fun _ => ?_
    have since := T.trans later further
    refine (engines.car (T.values_later since same)).bind fun f last head head' headSame => ?_
    refine (engines.plain (T.looks_of_values headSame)).andThen fun g latest _ => ?_
    have template := T.values_later (T.trans since (T.trans last latest)) same
    exact engines.failWith (T.looks_of_values template) _ _

theorem isHeadedBy (name : String) (same : T.values c v w) :
    T.Follows c T.Same (Template.isHeadedBy m name v) (Template.isHeadedBy m' name w) := by
  unfold Template.isHeadedBy
  rw [(T.matches_of_values same).isPair_eq]
  refine .ite (fun _ => ?_) fun _ => .same
  refine (engines.car same).bind fun d later head head' known => .pure fun _ _ => ?_
  exact (T.matches_of_values known).isSymbolNamed_eq name

theorem addItem {copy copy' : Value → Run Value}
    (copies : ∀ d, T.Later c d → ∀ v w, T.values d v w →
      T.Follows d T.values (copy v) (copy' w))
    (shown : T.frames c frame) (level : Nat) {copied copied' : List Value}
    (known : T.All c copied copied') (same : T.values c v w) :
    T.Follows c T.All (Template.addItem m copy frame level copied v)
      (Template.addItem m' copy' frame level copied' w) := by
  refine (isHeadedBy engines _ same).andThen fun d later spliced => .ite (fun _ => ?_) fun _ => ?_
  · refine (operand engines (T.values_later later same)).bind fun e further expr expr' exprSame => ?_
    have shown := T.frames_later (T.trans later further) shown
    refine (engines.eval exprSame shown _).bind fun f last list list' listSame => ?_
    refine (engines.items _ _ listSame).bind fun g latest items items' itemsSame => ?_
    have since := T.trans later (T.trans further (T.trans last latest))
    refine .pure fun h more => ?_
    exact List.rel_append (T.all_later more (List.rel_reverse itemsSame))
      (T.all_later (T.trans since more) known)
  · refine (copies d later v w (T.values_later later same)).bind fun e further copy copy' copySame => ?_
    exact .pure fun f last => .cons (T.values_later last copySame)
      (T.all_later (T.trans later (T.trans further last)) known)

def Copied (T : Simulation) (c : T.Moment) (p q : Bool × List Value) : Prop :=
  p.1 = q.1 ∧ T.All c p.2 q.2

theorem copyWithin (shown : T.frames c frame) {fuel fuel' : Nat} (fuels : T.fuels.Related fuel fuel')
    (room : Option Nat) (level : Nat) (same : T.values c v w) :
    T.Follows c T.values (Template.copyWithin m frame fuel room level v)
      (Template.copyWithin m' frame fuel' room level w) := by
  induction fuel generalizing c fuel' room level v w with
  | zero => exact T.follows_outOfFuel fuels (by rintro rfl; rfl)
  | succ fuel ih =>
    obtain ⟨fuel', rfl, less⟩ := T.fuels.of_succ fuels
    unfold Template.copyWithin
    rw [(T.matches_of_values same).isPair_eq]
    refine .ite (fun _ => .value same) fun _ => ?_
    cases descend room with
    | none => exact .overflow
    | some inner =>
      have quoted {d : T.Moment} (later : T.Later c d) (name : String) (level : Nat) {v w : Value}
          (known : T.values d v w) : T.Follows d T.values
          (do Run.list [.symbol name, ← Template.copyWithin m frame fuel inner level v])
          (do Run.list [.symbol name, ← Template.copyWithin m' frame fuel' inner level w]) :=
        (ih (T.frames_later later shown) less _ _ known).bind fun e further copy copy' copySame =>
          list (.cons (T.values_atom e _) (.cons copySame .nil))
      refine (engines.car same).bind fun d later head head' headSame => ?_
      have template := T.values_later later same
      have named := (T.matches_of_values headSame).isSymbolNamed_eq
      rw [named, named, named]
      refine .ite (fun _ => ?_) fun _ => ?_
      · exact (operand engines template).bind fun e further expr expr' exprSame =>
          quoted (T.trans later further) _ _ exprSame
      refine .ite (fun _ => ?_) fun _ => ?_
      · refine (operand engines template).bind fun e further expr expr' exprSame => ?_
        have since := T.trans later further
        refine .ite (fun _ => engines.eval exprSame (T.frames_later since shown) _) fun _ => ?_
        exact quoted since _ _ exprSame
      refine .ite (fun _ => engines.failWith (T.looks_of_values template) _ _) fun _ => ?_
      have start : T.Copied d (true, []) (true, []) := ⟨rfl, .nil⟩
      have stable : T.Stable T.Copied :=
        fun _ _ _ _ later known => ⟨known.1, T.all_later later known.2⟩
      refine (foldSpine stable engines ?_ start template).bind ?_
      · rintro e further ⟨isFirst, copied⟩ ⟨isFirst', copied'⟩ ⟨first, known⟩ head head' heads
        obtain rfl : isFirst = isFirst' := first
        refine heads.bind fun f last item item' itemSame => ?_
        have named := (T.matches_of_values itemSame).isSymbolNamed_eq
        rw [named, named]
        refine .ite (fun _ => .pure fun _ _ => .none) fun _ => ?_
        have shown := T.frames_later (T.trans later (T.trans further last)) shown
        refine (addItem engines ?_ shown _ (T.all_later last known) itemSame).bind ?_
        · exact fun g latest v w => ih (T.frames_later latest shown) less inner level
        · exact fun g latest more more' moreSame => .pure fun h later =>
            .some ⟨rfl, T.all_later later moreSame⟩
      · rintro e further ⟨⟨_, copied⟩, rest⟩ ⟨⟨_, copied'⟩, rest'⟩ ⟨⟨-, known⟩, restSame⟩
        have shown := T.frames_later (T.trans later further) shown
        refine (ih shown less _ _ restSame).bind fun f last copy copy' copySame => ?_
        exact T.listReversed (T.all_later last known) copySame

theorem copy (shown : T.frames c frame) (same : T.values c v w) :
    T.Follows c T.values (Template.copy m frame v) (Template.copy m' frame w) := by
  unfold Template.copy
  rw [engines.room]
  exact copyWithin engines shown (T.fuels.succ engines.fuel) _ _ same

end Templates

theorem logValue (l : Logging) (halves : Text.Halves) (room : Option Nat)
    (message : Store.Written → String) (same : T.values c v w) :
    T.Follows c T.values
      (do
        let s ← get
        Run.log l .debug Expansion.origin fun _ => message (s.inMessage halves room v)
        return v)
      (do
        let s ← get
        Run.log l .debug Expansion.origin fun _ => message (s.inMessage halves room w)
        return w) := by
  have told (text : Store.Written) {d : T.Moment} (later : T.Later c d) : T.Follows d T.values
      (do Run.log l .debug Expansion.origin fun _ => message text; return v)
      (do Run.log l .debug Expansion.origin fun _ => message text; return w) :=
    (log _ _ _ _).andThen fun e further _ => .value (T.values_later (T.trans later further) same)
  exact (T.inMessage (T.looks_of_values same) halves room).andThen fun d later text => told text later

section Expansions

variable (engines : T.Engines m m')

include engines

theorem expand {x y : Closure} (closures : T.Closures c x y) {args args' : List Value}
    (same : T.All c args args') :
    T.Follows c T.values (Expansion.run m x args) (Expansion.run m' y args') := by
  unfold Expansion.run
  rw [closures.signature, closures.name, ← closures.frame.1, engines.world, engines.room]
  refine (catchFault T.stable_values ?_ ?_).bind fun d later expansion expansion' known => ?_
  · refine (bindArguments _ same closures.frame.2).bind ?_
    rintro d later inner _ ⟨rfl, inside⟩
    exact engines.eval (T.values_later later closures.body) inside _
  · intro d later f g faults
    refine (T.newError faults).andThen fun e further cause => ?_
    refine T.follows_throwFault (T.faults_raised ?_)
    exact ⟨rfl, T.rel_atom e _, rfl, ⟨rfl, rfl⟩, ⟨rfl, rfl⟩, ⟨rfl, rfl⟩, rfl, rfl⟩
  · exact logValue _ _ _ (fun text => "expanded " ++ y.name.getD "" ++ " -> " ++ text.toOption.getD "")
      known

/-- An expander that a form names may be found from any frame. -/
theorem expander? (same : T.values c v w) (frame : FrameId) :
    T.Follows c (fun d => Option.Rel (T.Closures d)) (Expansion.expander? m v frame)
      (Expansion.expander? m' w frame) := by
  have none {d : T.Moment} : T.Follows d (fun d => Option.Rel (T.Closures d))
      (pure none : Run (Option Closure)) (pure none) := .pure fun _ _ => .none
  unfold Expansion.expander?
  rw [(T.matches_of_values same).isPair_eq]
  refine .ite (fun _ => none) fun _ => ?_
  refine (engines.car same).bind fun d later head head' headSame => ?_
  cases T.matches_of_values headSame with
  | atom a =>
    cases a with
    | symbol name =>
      refine .ite (fun _ => none) fun _ => ?_
      refine (T.glance? d frame name).bind fun e further found found' known => ?_
      cases known with
      | none => exact none
      | @some p q known =>
        obtain ⟨owner, v⟩ := p
        obtain ⟨owner', w⟩ := q
        dsimp only at known
        cases T.matches_of_looks known with
        | procedure p q =>
          refine (T.glimpse known).bind fun f last p q procedures => ?_
          cases procedures with
          | expander closures =>
            exact .pure fun g latest => .some (T.closures_later latest closures)
          | @other p q first second =>
            cases p with
            | expander x => cases first
            | _ =>
              cases q with
              | expander y => cases second
              | _ => exact none
        | _ => exact none
    | _ => exact none
  | _ => exact none

theorem expandForm (same : T.values c v w) {x y : Closure} (closures : T.Closures c x y) :
    T.Follows c T.values (do Expansion.run m x (← m.arguments (← m.cdr v)))
      (do Expansion.run m' y (← m'.arguments (← m'.cdr w))) := by
  refine (engines.cdr same).bind fun d later rest rest' restSame => ?_
  refine (engines.arguments restSame).bind fun e further args args' argsSame => ?_
  exact expand engines (T.closures_later (T.trans later further) closures) argsSame

theorem expandOnce (same : T.values c v w) (frame : FrameId) :
    T.Follows c T.values (Expansion.once m v frame) (Expansion.once m' w frame) := by
  refine (expander? engines same frame).bind fun d later x y known => ?_
  cases known with
  | some closures => exact expandForm engines (T.values_later later same) closures
  | none => exact .value (T.values_later later same)

theorem expandWithin (frame : FrameId) {fuel fuel' : Nat} (fuels : T.fuels.Related fuel fuel')
    (same : T.values c v w) :
    T.Follows c T.values (Expansion.fullyWithin m frame fuel v)
      (Expansion.fullyWithin m' frame fuel' w) := by
  induction fuel generalizing c fuel' v w with
  | zero => exact T.follows_outOfFuel fuels (by rintro rfl; rfl)
  | succ fuel ih =>
    obtain ⟨fuel', rfl, less⟩ := T.fuels.of_succ fuels
    refine (expander? engines same frame).bind fun d later x y known => ?_
    cases known with
    | none => exact .value (T.values_later later same)
    | @some x y closures =>
      refine (engines.cdr (T.values_later later same)).bind fun e further rest rest' restSame => ?_
      refine (engines.arguments restSame).bind fun f last args args' argsSame => ?_
      have closures := T.closures_later (T.trans further last) closures
      exact (expand engines closures argsSame).bind fun g latest _ _ known => ih less known

theorem expandFully (same : T.values c v w) (frame : FrameId) :
    T.Follows c T.values (Expansion.fully m v frame) (Expansion.fully m' w frame) :=
  expandWithin engines frame (T.fuels.succ engines.fuel) same

end Expansions

theorem readFailure {failure : ReadFailure} (possible : failure.Possible)
    {R : T.Moment → α → β → Prop} :
    T.Follows c R (Run.readFailure failure : Run α) (Run.readFailure failure : Run β) := by
  unfold Run.readFailure
  split
  · exact T.follows_throwFault (T.faults_raised
      ⟨rfl, T.rel_atom c _, rfl, ⟨rfl, rfl⟩, ⟨rfl, rfl⟩, ⟨rfl, rfl⟩, rfl, rfl⟩)
  · exact .overflow
  · next b other =>
    rcases possible b rfl with rfl | rfl
    · exact T.follows_throw rfl (T.possible_tooManyDigits c)
    · exact absurd rfl other

theorem readInput_eq_bind (room : Option Nat) (ref : Nat) : Run.readInput room ref =
    (do return (← get).inputs[ref]? : Run (Option Input)) >>= (fun found => do
      let input ← Run.held found
      let (outcome, input) := input.read room
      modify fun s => { s with inputs := s.inputs.setIfInBounds ref input }
      match outcome with
      | .ok d => Run.ofDatum d
      | .error failure => Run.readFailure failure) := rfl

theorem readInput (room : Option Nat) (ref : Nat) :
    T.Follows c T.values (Run.readInput room ref) (Run.readInput room ref) := by
  rw [readInput_eq_bind]
  refine (T.input c ref).andThen fun d later found => ?_
  refine (held found).andThen fun e further input => ?_
  have possible (f : ReadFailure) : (input.read room).1 = .error f → f.Possible :=
    Input.possible_of_read
  generalize input.read room = result at possible
  obtain ⟨outcome, input⟩ := result
  refine (T.setInput e ref input).andThen fun f latest _ => ?_
  cases outcome with
  | ok d => exact T.ofDatum f d
  | error failure => exact readFailure (possible _ rfl)

theorem evalForms (room : Option Nat) {eval eval' : Value → Run Value}
    (evals : ∀ d, T.Later c d → ∀ v w, T.values d v w → T.Follows d T.values (eval v) (eval' w))
    (input : Input) :
    T.Follows c (fun d p q => T.values d p.1 q.1 ∧ p.2 = q.2) (Run.evalForms room eval input)
      (Run.evalForms room eval' input) := by
  have possible (f : ReadFailure) : (input.forms room).2 = some f → f.Possible :=
    Input.possible_of_forms
  unfold Run.evalForms
  generalize input.forms room = result at possible
  obtain ⟨forms, failure⟩ := result
  have loop : T.Follows c T.values
      (ForIn.forIn forms Value.nil fun d _ => do
        let v ← eval (← Run.ofDatum d)
        pure (.yield v) : Run Value)
      (ForIn.forIn forms Value.nil fun d _ => do
        let v ← eval' (← Run.ofDatum d)
        pure (.yield v)) := by
    refine forIn (P := T.Same) (fun _ _ _ _ _ => id) T.stable_values
      (List.forall₂_same.mpr fun _ _ => rfl) ?_ (T.values_atom c _)
    rintro d later form _ a b rfl -
    refine (T.ofDatum d form).bind fun e further v w same => ?_
    refine (evals e (T.trans later further) v w same).bind fun f last a b known => ?_
    exact .pure fun g latest => ⟨a, b, rfl, rfl, T.values_later latest known⟩
  refine loop.bind fun d later v w same => ?_
  cases failure with
  | some failure => exact readFailure (possible _ rfl)
  | none => exact .pure fun e further => ⟨T.values_later further same, rfl⟩

theorem ofSystem (said : Except Breakdown α)
    (possible : ∀ b, said = .error b → T.possible c (.breakdown b)) :
    T.Follows c T.Same (Run.ofSystem said) (Run.ofSystem said) := by
  cases said with
  | ok a => exact .same
  | error b => exact T.follows_throw rfl (possible b rfl)

theorem resolve (world : World) (path : Path) :
    T.Follows c T.Same (Run.ofSystem (world.disk.resolve world.searchPath path))
      (Run.ofSystem (world.disk.resolve world.searchPath path)) := by
  refine ofSystem _ fun b refused => ?_
  rw [Disk.eq_pathRefused_of_resolve refused]
  exact T.possible_pathRefused c

theorem textOf (bytes : List UInt8) :
    T.Follows c T.Same (Run.ofSystem (Disk.textOf bytes)) (Run.ofSystem (Disk.textOf bytes)) := by
  refine ofSystem _ fun b refused => ?_
  rw [Disk.eq_fileNotText_of_textOf refused]
  exact T.possible_fileNotText c

section Loading

variable (world : World) (room : Option Nat) {eval eval' : Value → FrameId → Run Value}
  (evals : ∀ d, T.Later c d → ∀ v w frame, T.values d v w → T.frames d frame →
    T.Follows d T.values (eval v frame) (eval' w frame)) (called : T.callers c frame)

include evals called

theorem loadText (name : String) (text : List Char) :
    T.Follows c T.values (Load.text world room eval name text frame)
      (Load.text world room eval' name text frame) := by
  refine (log _ _ _ _).andThen fun d later _ => ?_
  refine (T.topLevel (T.callers_later later called)).bind ?_
  rintro e further top _ ⟨rfl, inside⟩
  refine (evalForms room ?_ _).bind ?_
  · intro f last v w same
    exact evals f (T.trans later (T.trans further last)) v w top same (T.frames_later last inside)
  · rintro f last ⟨result, count⟩ ⟨result', _⟩ ⟨same, rfl⟩
    exact (log _ _ _ _).andThen fun g latest _ => .value (T.values_later latest same)

theorem loadFile (path : Path) (shown : String) :
    T.Follows c T.values (Load.file world room eval path shown frame)
      (Load.file world room eval' path shown frame) := by
  refine (resolve world path).andThen fun d later found => ?_
  match found with
  | none => exact fail _ _
  | some (_, .error _) => exact fail _ _
  | some (found, .ok bytes) =>
    refine (textOf bytes).andThen fun e further text => ?_
    have later := T.trans later further
    exact loadText world room (fun f last => evals f (T.trans later last))
      (T.callers_later later called) _ _

end Loading

end Simulation

end LazyLisp
