import LazyLisp.Proofs.SafeOperations
import LazyLisp.Proofs.SimulatedSessions

/-!
Safety as a simulation. A safe computation and the second one that does the same have results that
are the same and lead to nothing hidden. Such a computation need only start from a lawful store that
is wide enough.
-/

namespace LazyLisp

namespace Hidden

variable {h : Hidden} {c s t : Store} {α β : Type}

theorem AdmitsFault.of_raised {f : Fault} (known : ∀ v, f.value = some v → h.Admits v s)
    (source : f.source = none) (trace : f.trace = #[]) : h.AdmitsFault f s where
  value := known
  source v held := by
    rw [source] at held
    cases held
  trace entry member := by
    rw [trace] at member
    cases Array.not_mem_empty entry member

theorem matches_of_admits {v : Value} (known : h.Admits v c) :
    v.Matches (fun v w => v = w ∧ h.Admits v c) v := by
  cases v with
  | atom a => exact .atom a
  | nan m => exact .nan m m
  | pair m car cdr => exact .pair ⟨rfl, known.1⟩ ⟨rfl, known.2⟩
  | lazyPair ref => exact .lazyPair ref
  | procedure p => exact .procedure p p
  | error ref => exact .error ref
  | input ref => exact .input ref

def relations (h : Hidden) : Relations where
  Moment := Store
  Later := Wider
  values c v w := v = w ∧ h.Admits v c
  looks _ := Eq
  frames c i := h.AdmitsFrame i c
  callers c i := i < c.frames.size
  faults c f g := f = g ∧ h.AdmitsFault f c
  Traced := True
  refl := .refl
  trans := .trans
  values_later wider same := ⟨same.1, wider.admits same.2⟩
  looks_later _ same := same
  frames_later wider shown := wider.frame shown
  callers_later wider inside := Nat.lt_of_lt_of_le inside wider.frames
  faults_later wider same := ⟨same.1, wider.fault same.2⟩
  looks_of_values := And.left
  callers_of_frames := And.left
  matches_of_looks := by
    rintro _ v _ rfl
    exact Value.matches_self (fun _ => trivial) v
  matches_of_values := by
    rintro c v _ ⟨rfl, known⟩
    exact matches_of_admits known
  values_atom c a := ⟨rfl, trivial⟩
  values_error c ref := ⟨rfl, trivial⟩
  isSame_eq := by
    rintro c v _ w _ ⟨rfl, -⟩ ⟨rfl, -⟩
    rfl
  kind_eq same := congrArg Fault.kind same.1
  value_rel := by
    rintro c f _ ⟨rfl, known⟩
    exact rel_self fun v held => ⟨rfl, known.value v held⟩
  source_rel := by
    rintro c f _ ⟨rfl, known⟩
    exact rel_self fun v held => ⟨rfl, known.source v held⟩
  trace_rel := by
    rintro c f _ - ⟨rfl, known⟩
    exact List.forall₂_same.mpr fun entry member =>
      ⟨rfl, known.trace entry (Array.mem_toList_iff.mp member)⟩
  faults_again := by
    rintro c f _ summary ⟨rfl, known⟩ -
    exact ⟨rfl, known.value, known.source, known.trace⟩

theorem all_iff {vs ws : List Value} :
    h.relations.All c vs ws ↔ vs = ws ∧ h.AdmitsAll vs c := by
  constructor
  · intro same
    refine ⟨Relations.eq_of_all (fun _ _ => And.left) same, ?_⟩
    induction same with
    | nil => exact .nil
    | cons first _ ih => exact .cons first.2 ih
  · rintro ⟨rfl, known⟩
    exact List.forall₂_same.mpr fun v member => ⟨rfl, known v member⟩

theorem closures_iff {x y : Closure} :
    h.relations.Closures c x y ↔ x = y ∧ h.AdmitsClosure x c := by
  constructor
  · exact fun same => ⟨same.eq fun _ _ => And.left, same.body.2, same.frame.2⟩
  · rintro ⟨rfl, known⟩
    exact ⟨rfl, ⟨rfl, known.body⟩, ⟨rfl, known.frame⟩, rfl, rfl⟩

theorem allClosures_iff {xs ys : List Closure} :
    List.Forall₂ (h.relations.Closures c) xs ys ↔ xs = ys ∧ ∀ x ∈ xs, h.AdmitsClosure x c := by
  constructor
  · intro same
    induction same with
    | nil => exact ⟨rfl, nofun⟩
    | cons first _ ih =>
      obtain ⟨rfl, known⟩ := closures_iff.mp first
      obtain ⟨rfl, others⟩ := ih
      exact ⟨rfl, List.forall_mem_cons.mpr ⟨known, others⟩⟩
  · rintro ⟨rfl, known⟩
    exact List.forall₂_same.mpr fun x member => closures_iff.mpr ⟨rfl, known x member⟩

theorem procedures_iff {p q : Procedure} :
    h.relations.Procedures c p q ↔ p = q ∧ h.AdmitsProcedure p c := by
  constructor
  · intro same
    refine ⟨same.eq fun _ _ => And.left, ?_⟩
    cases same with
    | closure same => exact (closures_iff.mp same).2
    | cases name doc same => exact (allClosures_iff.mp same).2
    | expander same => exact (closures_iff.mp same).2
    | primitive p => trivial
  · rintro ⟨rfl, known⟩
    cases p with
    | closure x => exact .closure (closures_iff.mpr ⟨rfl, known⟩)
    | cases xs name doc => exact .cases name doc (allClosures_iff.mpr ⟨rfl, known⟩)
    | expander x => exact .expander (closures_iff.mpr ⟨rfl, known⟩)
    | primitive p => exact .primitive p

theorem steps_iff {p q : Step} : h.relations.Steps c p q ↔ p = q ∧ h.AdmitsStep p c := by
  constructor
  · intro same
    refine ⟨same.eq fun _ _ => And.left, ?_⟩
    cases same with
    | value known => exact known.2
    | tail name shown known => exact ⟨known.2, shown⟩
  · rintro ⟨rfl, known⟩
    cases p with
    | value v => exact .value ⟨rfl, known⟩
    | tail expr frame name => exact .tail name known.2 ⟨rfl, known.1⟩

/-- Two computations have ended in the same lawful store, with related results or with the same
interrupt, which leads to nothing hidden. -/
inductive Agreed (h : Hidden) (s : Store) (R : Store → α → β → Prop) :
    EStateM.Result Interrupt Store α → EStateM.Result Interrupt Store β → Prop where
  | ok {a b t} : h.Later s t → R t a b → Agreed h s R (.ok a t) (.ok b t)
  | error {e t} : h.Later s t → h.AdmitsInterrupt e t → Agreed h s R (.error e t) (.error e t)

/-- From lawful stores that are wide enough the computations end in agreement. -/
def Agrees (h : Hidden) (c : Store) (R : Store → α → β → Prop) (x : Run α) (y : Run β) : Prop :=
  ∀ s, Wider c s → h.Lawful s → h.Agreed s R (x s) (y s)

theorem Agreed.since {R : Store → α → β → Prop} {r : EStateM.Result Interrupt Store α}
    {r' : EStateM.Result Interrupt Store β} (agreed : h.Agreed t R r r') (later : h.Later s t) :
    h.Agreed s R r r' := by
  cases agreed with
  | ok further related => exact .ok (later.trans further) related
  | error further known => exact .error (later.trans further) known

/-- What is safe from every lawful store agrees with what does the same. -/
theorem Safe.agrees {Q : α → Store → Prop} {R : Store → α → α → Prop} {x y : Run α}
    (safe : ∀ s, Wider c s → h.Lawful s → h.Safe s Q x y)
    (related : ∀ a t, Wider c t → Q a t → R t a a) : h.Agrees c R x y := by
  intro s wider lawful
  obtain ⟨same, fine⟩ := safe s wider lawful s lawful.refl
  rw [same]
  cases ended : x s with
  | ok a t =>
    rw [ended] at fine
    exact .ok fine.1 (related a t (wider.trans fine.1.wider) fine.2)
  | error e t =>
    rw [ended] at fine
    exact .error fine.1 fine.2

/-- What agrees with related results that are the same is safe. -/
theorem Agrees.safe {Q : α → Store → Prop} {R : Store → α → α → Prop} {x y : Run α}
    (agrees : h.Agrees c R x y) (same : ∀ a b t, R t a b → a = b ∧ Q a t) : h.Safe c Q x y := by
  intro s later
  have agreed := agrees s later.wider later.lawful
  generalize x s = r at agreed
  generalize y s = r' at agreed
  cases agreed with
  | ok further related =>
    obtain ⟨rfl, holds⟩ := same _ _ _ related
    exact ⟨rfl, further, holds⟩
  | error further known => exact ⟨rfl, further, known⟩

theorem Agrees.either {γ δ : Type} {R : Store → α → β → Prop} {S : Store → γ → δ → Prop}
    {x : Run α} {y : Run β} {f : α → Run γ} {g : β → Run δ} {handle : Interrupt → Run γ}
    {handle' : Interrupt → Run δ} (first : h.Agrees c R x y)
    (rest : ∀ t, Wider c t → ∀ a b, R t a b → h.Agrees t S (f a) (g b))
    (handled : ∀ t, Wider c t → ∀ e, h.AdmitsInterrupt e t → h.Agrees t S (handle e) (handle' e)) :
    h.Agrees c S (x.either f handle) (y.either g handle') := by
  intro s wider lawful
  have agreed := first s wider lawful
  unfold Run.either
  generalize x s = r at agreed
  generalize y s = r' at agreed
  cases agreed with
  | ok later related =>
    exact (rest _ (wider.trans later.wider) _ _ related _ (.refl _) later.lawful).since later
  | error later known =>
    exact (handled _ (wider.trans later.wider) _ known _ (.refl _) later.lawful).since later

theorem Agrees.throw {e : Interrupt} {R : Store → α → β → Prop} (known : h.AdmitsInterrupt e c) :
    h.Agrees c R (MonadExcept.throw e : Run α) (MonadExcept.throw e : Run β) :=
  fun _ wider lawful => .error lawful.refl (wider.interrupt known)

theorem admitsInterrupt_of_plain {e : Interrupt} (plain : e.isFault = false) :
    h.AdmitsInterrupt e s := by
  cases e with
  | fault f => cases plain
  | _ => trivial

theorem Agrees.catchArithmetic {R : Store → Step → Step → Prop} (stable : h.relations.Stable R)
    (name : String) {x y : Run Step} (tried : h.Agrees c R x y) :
    h.Agrees c R (Call.catchArithmetic name x) (Call.catchArithmetic name y) := by
  rw [Call.catchArithmetic_eq_either, Call.catchArithmetic_eq_either]
  refine tried.either (fun t wider a b related s further lawful =>
    .ok lawful.refl (stable further related)) ?_
  intro t wider e known
  cases e with
  | breakdown b =>
    cases b with
    | arithmetic e =>
      refine .throw (AdmitsFault.of_raised ?_ rfl rfl)
      rintro _ ⟨⟩
      exact admits_atom _
    | _ => exact .throw trivial
  | fault f => exact .throw known
  | _ => exact .throw trivial

def following (h : Hidden) : Following where
  toRelations := h.relations
  Follows c R x y := h.Agrees c R x y
  possible _ _ := True
  calculating c := c
  fuels := .same
  possible_overflow _ := trivial
  possible_outOfFuel _ := trivial
  possible_dangling _ := trivial
  possible_tooManyDigits _ := trivial
  possible_fileNotText _ := trivial
  possible_pathRefused _ := trivial
  possible_unencodable _ := trivial
  possible_arithmetic _ _ := trivial
  calculating_later := .refl
  faults_raised {c f g} raised := by
    obtain rfl := raised.eq fun _ _ => And.left
    refine ⟨rfl, .of_raised (fun v held => ?_) raised.source.1 raised.trace.1⟩
    have values := raised.value
    rw [held] at values
    cases values with
    | some known => exact known.2
  follows_later wider agrees s further := agrees s (wider.trans further)
  follows_pure same s wider lawful := .ok lawful.refl (same s wider)
  follows_throw plain _ := .throw (admitsInterrupt_of_plain plain)
  follows_throwFault same := by
    obtain ⟨rfl, known⟩ := same
    exact .throw known
  follows_bind first rest := by
    rw [Run.bind_eq_either, Run.bind_eq_either]
    exact Agrees.either first rest fun t wider e known => .throw known
  follows_handle stable tried faults others _ := by
    refine Agrees.either tried
      (fun t wider a b related s further lawful => .ok lawful.refl (stable further related)) ?_
    intro t wider e known
    cases e with
    | fault f => exact faults t wider f f ⟨rfl, known⟩
    | _ => exact others t wider _ rfl trivial
  follows_calculation name tried := .catchArithmetic h.relations.steps_later name tried
  follows_outOfFuel fuels out := by
    rw [out fuels.symm]
    exact .throw trivial

/-- An operation that is safe, with a value that leads to nothing hidden. -/
theorem agrees_value {x y : Run Value}
    (safe : ∀ s, Wider c s → h.Lawful s → h.Safe s h.Admits x y) :
    h.Agrees c h.relations.values x y :=
  Safe.agrees safe fun _ _ _ known => ⟨rfl, known⟩

theorem agrees_same {x : Run α} (safe : ∀ s, Wider c s → h.Lawful s → h.Safe s Any x x) :
    h.Agrees c h.relations.Same x x :=
  Safe.agrees safe fun _ _ _ _ => rfl

theorem agrees_look (k : Store → α) :
    h.Agrees c h.relations.Same (do return k (← get) : Run α) (do return k (← get)) :=
  agrees_same fun _ _ _ => .look fun _ _ => .any

def simulation (h : Hidden) : Simulation where
  toFollowing := h.following
  cons := by
    rintro c car _ cdr _ ⟨rfl, carKnown⟩ ⟨rfl, cdrKnown⟩
    exact agrees_value fun s wider _ => .cons (wider.admits carKnown) (wider.admits cdrKnown)
  listReversed := by
    rintro c items items' tail _ same ⟨rfl, tailKnown⟩
    obtain ⟨rfl, known⟩ := all_iff.mp same
    exact agrees_value fun s wider _ => .listReversed (wider.all known) (wider.admits tailKnown)
  rescue := by
    intro c args args' same
    obtain ⟨rfl, known⟩ := all_iff.mp same
    refine Safe.agrees (Q := h.AdmitsFault) (fun s wider _ => ?_) fun _ _ _ known => ⟨rfl, known⟩
    refine (Safe.list (.cons (admits_atom _) (wider.all known))).map fun form t _ formKnown => ?_
    refine ⟨?_, ?_, ?_⟩
    · rintro _ ⟨⟩
      exact admits_atom _
    · rintro _ ⟨⟩
      exact formKnown
    · exact fun entry member => absurd member (Array.not_mem_empty entry)
  ofDatum c d := agrees_value fun _ _ _ => .ofDatum d
  ofNumber c n := agrees_value fun _ _ _ => .ofNumber n
  newFrame shown := Safe.agrees (fun _ wider _ => .newFrame (wider.frame shown))
    fun _ _ _ inside => ⟨rfl, inside⟩
  define := by
    rintro c frame v _ shown name ⟨rfl, known⟩
    exact agrees_same fun s wider _ => .define (wider.frame shown) name (wider.admits known)
  find? shown name := by
    refine Safe.agrees (fun _ _ _ => .find? _ name) fun found t wider known => ?_
    exact rel_self fun p held =>
      have shown := known (wider.frame shown) p.1 p.2 held
      ⟨⟨rfl, shown.1⟩, rfl, shown.2⟩
  glance? c frame name := Safe.agrees (fun _ _ _ => .find? frame name)
    fun found t wider _ => rel_self fun _ _ => rfl
  topLevel inside := by
    refine Safe.agrees (Q := fun top t => h.AdmitsFrame top t) (fun s wider lawful => ?_)
      fun _ _ _ shown => ⟨rfl, shown⟩
    refine (Safe.topLevel (Nat.lt_of_lt_of_le inside wider.frames)).mono ?_
    rintro top t later rfl
    exact later.lawful.admitsGlobal
  newProcedure same := by
    obtain ⟨rfl, known⟩ := procedures_iff.mp same
    exact agrees_value fun s wider _ =>
      (Safe.newProcedure (wider.procedure known)).mono fun _ _ _ made => made.1
  procedure := by
    rintro c p _ ⟨⟨⟩, known⟩
    exact Safe.agrees (fun s wider _ => .knownProcedure (wider.admits known))
      fun p t _ known => procedures_iff.mpr ⟨rfl, known⟩
  glimpse := by
    rintro c p _ ⟨⟩
    refine Safe.agrees (fun _ _ _ => .procedure p) fun p t _ known => ?_
    cases p with
    | expander x =>
      rcases known with known | ⟨-, _, same⟩
      · exact .expander (closures_iff.mpr ⟨rfl, known⟩)
      · cases same
    | _ => exact .other rfl rfl
  newLazyPair := by
    rintro c car _ cdr _ frame ⟨rfl, carKnown⟩ ⟨rfl, cdrKnown⟩ shown
    refine agrees_value fun s wider _ => .newLazyPair fun side => ?_
    cases side with
    | car => exact ⟨wider.admits carKnown, wider.frame shown⟩
    | cdr => exact ⟨wider.admits cdrKnown, wider.frame shown⟩
  newError := by
    rintro c f _ ⟨rfl, known⟩
    exact agrees_same fun s wider _ => .newError (wider.fault known)
  errorFault c ref := Safe.agrees (fun _ _ _ => .errorFault ref) fun _ _ _ known => ⟨rfl, known⟩
  newInput c p := agrees_value fun _ _ _ => .newInput p
  input c ref := agrees_look fun s => s.inputs[ref]?
  setInput c ref p := agrees_same fun _ _ _ =>
    .quiet (fun _ => rfl) (fun _ => rfl) (fun _ => rfl) fun _ => rfl
  emit c text := agrees_same fun _ _ _ => .emit text
  emitError c text := agrees_same fun _ _ _ => .emitError text
  gensym c start := agrees_value fun _ _ _ => .gensym start
  write := by
    rintro c v _ rfl room readable
    exact agrees_look fun s => s.write room readable v
  inMessage := by
    rintro c v _ rfl halves room
    exact agrees_look fun s => s.inMessage halves room v
  summary := by
    intro c v w same room kind
    obtain rfl := eq_of_rel (fun _ _ => And.left) same
    exact agrees_look fun s => s.summary room kind v
  report := by
    rintro c f _ - ⟨rfl, -⟩ room
    exact agrees_look fun s => s.report room f

section Safe

theorem Safe.of_values {x y : Run Value} (follows : h.simulation.Follows c h.simulation.values x y) :
    h.Safe c h.Admits x y :=
  Agrees.safe follows fun _ _ _ => id

theorem Safe.of_all {x y : Run (List Value)}
    (follows : h.simulation.Follows c h.simulation.All x y) : h.Safe c h.AdmitsAll x y :=
  Agrees.safe follows fun _ _ _ => all_iff.mp

theorem Safe.of_steps {x y : Run Step} (follows : h.simulation.Follows c h.simulation.Steps x y) :
    h.Safe c h.AdmitsStep x y :=
  Agrees.safe follows fun _ _ _ => steps_iff.mp

end Safe

end Hidden

end LazyLisp
