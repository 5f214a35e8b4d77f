import LazyLisp.Proofs.ParameterLists
import LazyLisp.Proofs.Substitution
import LazyLisp.Proofs.Yielding

/-!
Binding arguments to parameters, and the choice among several parameter lists.

Whether a call fits is decided by the number of its arguments alone. A call that fits gets a new
frame with the parameters and nothing else, in which a later binding of a name takes the place of an
earlier one. Of several parameter lists the first that fits is taken, and then nothing can go wrong
with its binding.
-/

namespace LazyLisp

namespace Frame

def bindEach (bindings new : List (String × Value)) : List (String × Value) :=
  new.foldl (fun bound b => bind b.1 b.2 bound) bindings

variable {bindings new : List (String × Value)} {name : String} {v : Value}

theorem mem_names_bind {other : String} (bindings : List (String × Value)) :
    other ∈ (bind name v bindings).map (·.1) ↔ other = name ∨ other ∈ bindings.map (·.1) := by
  induction bindings with
  | nil => simp [bind]
  | cons b bindings ih => grind [bind]

theorem mem_names_bindEach :
    name ∈ (bindEach bindings new).map (·.1) ↔ name ∈ bindings.map (·.1) ∨ name ∈ new.map (·.1) := by
  induction new generalizing bindings with
  | nil => simp [bindEach]
  | cons b new ih =>
    have later : bindEach bindings (b :: new) = bindEach (bind b.1 b.2 bindings) new := rfl
    rw [later, ih, mem_names_bind, List.map_cons, List.mem_cons]
    tauto

theorem lookup_bindEach_of_not_mem (other : name ∉ new.map (·.1)) :
    (bindEach bindings new).lookup name = bindings.lookup name := by
  induction new generalizing bindings with
  | nil => rfl
  | cons b new ih =>
    rw [List.map_cons, List.mem_cons, not_or] at other
    have later : bindEach bindings (b :: new) = bindEach (bind b.1 b.2 bindings) new := rfl
    rw [later, ih other.2, lookup_bind, if_neg other.1]

theorem lookup_bindEach (distinct : (new.map (·.1)).Nodup) (member : (name, v) ∈ new) :
    (bindEach bindings new).lookup name = some v := by
  induction new generalizing bindings with
  | nil => cases member
  | cons b new ih =>
    have later : bindEach bindings (b :: new) = bindEach (bind b.1 b.2 bindings) new := rfl
    rw [List.map_cons, List.nodup_cons] at distinct
    rw [later]
    rcases List.mem_cons.mp member with rfl | member
    · rw [lookup_bindEach_of_not_mem distinct.1, lookup_bind, if_pos rfl]
    · exact ih distinct.2 member

end Frame

/-- Definitions in the youngest frame, of whatever names. -/
theorem forIn_defineEach {outer : Option FrameId} (bindings new : List (String × Value)) (s : Store) :
    forIn (m := Run) new PUnit.unit (fun b _ => do
      Run.define s.frames.size b.1 b.2
      pure (.yield PUnit.unit)) (s.pushFrame ⟨outer, bindings⟩) =
        .ok PUnit.unit (s.pushFrame ⟨outer, Frame.bindEach bindings new⟩) := by
  induction new generalizing bindings with
  | nil => rfl
  | cons b new ih =>
    have defined : Run.define s.frames.size b.1 b.2 (s.pushFrame ⟨outer, bindings⟩) =
        .ok () (s.pushFrame ⟨outer, Frame.bind b.1 b.2 bindings⟩) := by
      have last : (s.frames.push (⟨outer, bindings⟩ : Frame)).modify s.frames.size
          (·.define b.1 b.2) = s.frames.push ⟨outer, Frame.bind b.1 b.2 bindings⟩ :=
        modify_push _ _ _
      exact congrArg (fun frames => EStateM.Result.ok () { s with frames }) last
    rw [List.forIn_cons]
    simp only [bind_assoc, pure_bind]
    exact (Run.bind_of_ok defined).trans (ih _)

namespace Signature

variable {sig : Signature} {args : List Value}

/-- The bindings are those of the parameters. Where no name is given twice, each of the first names
has its argument and the last one the list of all that are left. -/
structure Binds (sig : Signature) (args : List Value) (bindings : List (String × Value)) : Prop where
  names : ∀ name, name ∈ bindings.map (·.1) ↔ name ∈ sig.names ++ sig.rest.toList
  first : (sig.names ++ sig.rest.toList).Nodup → ∀ (i : Nat) name, sig.names[i]? = some name →
    ∃ v, args[i]? = some v ∧ bindings.lookup name = some v
  rest : (sig.names ++ sig.rest.toList).Nodup → ∀ name ∈ sig.rest,
    ∃ v, bindings.lookup name = some v ∧ Spine v (args.drop sig.names.length) .nil

theorem length_le_of_accepts (fits : sig.accepts args.length = true) :
    sig.names.length ≤ args.length := by
  unfold accepts at fits
  split at fits
  · exact Nat.le_of_eq (by simpa using fits : args.length = sig.names.length).symm
  · simpa using fits

theorem bind_of_not_accepts (unfit : sig.accepts args.length = false) (outer : FrameId) (s : Store) :
    sig.bind args outer s = .error (.fault (.ofMessage Fault.Kind.arityError
      ("expecting " ++ sig.describe ++ " argument(s), got " ++ toString args.length))) s := by
  unfold bind
  simp only [unfit, Bool.not_false, if_true]
  rfl

/-- What is left of a signature's work once the first names have been bound. -/
theorem bind_of_accepts (fits : sig.accepts args.length = true) (outer : FrameId) (s : Store) :
    sig.bind args outer s = (do
      if let some rest := sig.rest then
        Run.define s.frames.size rest (← Run.list (args.drop sig.names.length))
      return s.frames.size : Run FrameId)
        (s.pushFrame ⟨some outer, Frame.bindEach [] (sig.names.zip args)⟩) := by
  have opened : Run.newFrame outer s = .ok s.frames.size (s.pushFrame ⟨some outer, []⟩) := rfl
  unfold bind
  simp only [fits, Bool.not_true, Bool.false_eq_true, if_false]
  refine (Run.bind_of_ok opened).trans ?_
  exact Run.bind_of_ok (forIn_defineEach [] (sig.names.zip args) s)

def pairs (sig : Signature) (args : List Value) (others : Value) : List (String × Value) :=
  sig.names.zip args ++ sig.rest.toList.map fun name => (name, others)

theorem map_fst_pairs (enough : sig.names.length ≤ args.length) (others : Value) :
    (sig.pairs args others).map (·.1) = sig.names ++ sig.rest.toList := by
  have firsts : (sig.names.zip args).map (·.1) = sig.names := List.map_fst_zip enough
  have last : (sig.rest.toList.map fun name => (name, others)).map (·.1) = sig.rest.toList := by
    cases sig.rest <;> rfl
  rw [pairs, List.map_append, firsts, last]

theorem binds_pairs (enough : sig.names.length ≤ args.length) {others : Value}
    (spine : Spine others (args.drop sig.names.length) .nil) :
    sig.Binds args (Frame.bindEach [] (sig.pairs args others)) := by
  have keys := map_fst_pairs enough others
  constructor
  · intro name
    rw [Frame.mem_names_bindEach, keys]
    simp
  · intro distinct i name nth
    have inside : i < sig.names.length := (List.getElem?_eq_some_iff.mp nth).1
    have held := List.getElem?_eq_getElem (Nat.lt_of_lt_of_le inside enough)
    refine ⟨_, held, Frame.lookup_bindEach (keys ▸ distinct) ?_⟩
    have member : (sig.names.zip args)[i]? = some (name, args[i]) :=
      List.getElem?_zip_eq_some.mpr ⟨nth, held⟩
    exact List.mem_append_left _ (List.mem_of_getElem? member)
  · intro distinct name held
    refine ⟨others, Frame.lookup_bindEach (keys ▸ distinct) ?_, spine⟩
    refine List.mem_append_right _ (List.mem_map.mpr ⟨name, ?_, rfl⟩)
    rw [Option.mem_def.mp held]
    exact List.mem_singleton_self name

/-- A call that fits gets a frame with its parameters, and a new list for what is left. -/
theorem exists_bind_of_accepts (fits : sig.accepts args.length = true) (outer : FrameId) (s : Store) :
    ∃ bindings marks, sig.Binds args bindings ∧ sig.bind args outer s = .ok s.frames.size
      { s.pushFrame ⟨some outer, bindings⟩ with nextMark := s.nextMark + marks } := by
  have enough := length_le_of_accepts fits
  have bound := bind_of_accepts fits outer s
  let opened := s.pushFrame ⟨some outer, Frame.bindEach [] (sig.names.zip args)⟩
  obtain ⟨others, spine, made⟩ := list_spine (args.drop sig.names.length) opened
  have binds := binds_pairs enough spine
  cases last : sig.rest with
  | none =>
    refine ⟨_, 0, binds, ?_⟩
    rw [bound, last, pairs, last, Option.toList_none, List.map_nil, List.append_nil]
    rfl
  | some rest =>
    refine ⟨_, (args.drop sig.names.length).length, binds, ?_⟩
    have youngest : opened.frames.modify s.frames.size (·.define rest others) =
        s.frames.push ⟨some outer, Frame.bindEach [] (sig.pairs args others)⟩ := by
      have all : Frame.bindEach [] (sig.pairs args others) =
          Frame.bind rest others (Frame.bindEach [] (sig.names.zip args)) := by
        rw [pairs, last]
        exact List.foldl_append
      rw [all]
      exact modify_push _ _ _
    rw [bound, last]
    refine (Run.bind_of_ok made).trans ?_
    exact congrArg (fun frames => EStateM.Result.ok s.frames.size
      { opened with frames, nextMark := opened.nextMark + (args.drop sig.names.length).length })
      youngest

end Signature

namespace Call

variable {m : Engine} {again : Primitive.Caller} {tail : Bool} {args : List Value} {frame : FrameId}
  {clauses : List Closure} {name doc : Option String} {ref : Nat} {s : Store}

theorem applyWith_of_first {front back : List Closure} {c : Closure}
    (held : s.procedures[ref]? = some (.cases clauses name doc))
    (split : clauses = front ++ c :: back)
    (others : ∀ d ∈ front, d.signature.accepts args.length = false)
    (fits : c.signature.accepts args.length = true) :
    ∃ bindings marks, c.signature.Binds args bindings ∧
      applyWith m again tail (.procedure ref) args frame s = m.inTail tail c.body s.frames.size c.name
        { s.pushFrame ⟨some c.frame, bindings⟩ with nextMark := s.nextMark + marks } := by
  obtain ⟨bindings, marks, binds, bound⟩ :=
    Signature.exists_bind_of_accepts fits c.frame s
  refine ⟨bindings, marks, binds, ?_⟩
  have first : clauses.find? (·.signature.accepts args.length) = some c := by
    rw [split]
    refine List.find?_eq_some_iff_append.mpr ⟨fits, front, back, rfl, ?_⟩
    exact fun d member => by rw [others d member]; rfl
  have selected : selectClause clauses name args.length s = .ok c s := by
    simp only [selectClause, first]
    rfl
  refine (Run.bind_of_ok (procedure_of_held held)).trans ?_
  exact (Run.bind_of_ok selected).trans (Run.bind_of_ok bound)

theorem applyWith_of_none (held : s.procedures[ref]? = some (.cases clauses name doc))
    (none : ∀ c ∈ clauses, c.signature.accepts args.length = false) :
    ∃ message, applyWith m again tail (.procedure ref) args frame s =
      .error (.fault (.ofMessage Fault.Kind.arityError message)) s := by
  have unfit : clauses.find? (·.signature.accepts args.length) = Option.none := by
    rw [List.find?_eq_none]
    exact fun c member => by rw [none c member]; decide
  have refused : ∃ message, selectClause clauses name args.length s =
      .error (.fault (.ofMessage Fault.Kind.arityError message)) s := by
    simp only [selectClause, unfit]
    exact ⟨_, rfl⟩
  obtain ⟨message, refused⟩ := refused
  refine ⟨message, ?_⟩
  exact (Run.bind_of_ok (procedure_of_held held)).trans (Run.bind_of_error refused)

end Call

/-- A value that is built of data has a text for a message, if its atoms have one. -/
theorem exists_inMessage_of_denotes (s : Store) (halves : Text.Halves) {v : Value} {d : Datum}
    (denotes : v.Denotes d) (hasText : d.HasText) :
    ∃ text, s.inMessage halves none v = .ok text := by
  cases denotes with
  | @atom a =>
    have written : a.hasText = true := hasText
    exact ⟨a.inMessage halves, if_pos written⟩
  | pair first rest => exact ⟨_, s.readable_of_denotes (.pair first rest) hasText⟩

/-- A parameter list is taken for the one signature that it spells, and is malformed if it spells
none. -/
theorem signature_eq_ok_iff (m : Engine) (s : Store) {p tail : Value} {items : List Value}
    (spine : Spine p items tail) (ends : tail.isPair = false) (sig : Signature) (s' : Store) :
    m.signature p s = .ok sig s' ↔ sig.datum.Spells p ∧ s' = s := by
  constructor
  · intro taken
    rcases signature_of_spine m spine ends with ⟨other, spelled, known⟩ | ⟨-, message, refused⟩
    · rw [known] at taken
      cases taken
      exact ⟨spelled, rfl⟩
    · rw [refused] at taken
      obtain ⟨text, _, -, failed⟩ := Run.of_bind_ok taken
      cases failed
  · rintro ⟨spelled, rfl⟩
    exact signature_of_spells m spelled s'

theorem exists_signature_eq_error (m : Engine) (s : Store) {p tail : Value} {items : List Value}
    (spine : Spine p items tail) (ends : tail.isPair = false)
    (none : ∀ sig : Signature, ¬ sig.datum.Spells p) :
    ∃ message, ∀ text, s.inMessage m.world.halves m.room p = .ok text → m.signature p s =
      .error (.fault (.ofMessage Fault.Kind.malformedForm (message ++ text))) s := by
  rcases signature_of_spine m spine ends with ⟨sig, spelled, -⟩ | ⟨-, message, refused⟩
  · exact absurd spelled (none sig)
  · refine ⟨message, fun text written => ?_⟩
    rw [refused]
    exact Template.failWith_of_text m _ message written

/-- Which values are parameter lists, how they are written, and how they are bound, by themselves
and as one of several. -/
theorem parameter_lists_agree :
    (∀ (m : Engine) (s : Store) (p tail : Value) (items : List Value), Spine p items tail →
      tail.isPair = false →
        (∀ sig s', m.signature p s = .ok sig s' ↔ sig.datum.Spells p ∧ s' = s) ∧
        ((∀ sig : Signature, ¬ sig.datum.Spells p) → ∃ message, ∀ text,
          s.inMessage m.world.halves m.room p = .ok text → m.signature p s =
            .error (.fault (.ofMessage Fault.Kind.malformedForm (message ++ text))) s) ∧
        (∀ d, p.Denotes d → d.HasText → ∃ text, s.inMessage m.world.halves none p = .ok text)) ∧
    (∀ sig : Signature, sig.IsReadable →
      readAll none sig.text.toList = .ok [sig.datum] ∧
      ∀ (m : Engine) (s : Store) v, sig.datum.Spells v → m.signature v s = .ok sig s) ∧
    (∀ (sig : Signature) (args : List Value) (outer : FrameId) (s : Store),
      (sig.accepts args.length = true → ∃ bindings marks, sig.Binds args bindings ∧
        sig.bind args outer s = .ok s.frames.size
          { s.pushFrame ⟨some outer, bindings⟩ with nextMark := s.nextMark + marks }) ∧
      (sig.accepts args.length = false → sig.bind args outer s = .error (.fault (.ofMessage
        Fault.Kind.arityError ("expecting " ++ sig.describe ++ " argument(s), got " ++
          toString args.length))) s)) ∧
    (∀ (m : Engine) (again : Primitive.Caller) (tail : Bool) (args : List Value) (frame : FrameId)
      (s : Store) (ref : Nat) (clauses : List Closure) (name doc : Option String),
      s.procedures[ref]? = some (.cases clauses name doc) →
        (∀ front c back, clauses = front ++ c :: back →
          (∀ d ∈ front, d.signature.accepts args.length = false) →
          c.signature.accepts args.length = true →
            ∃ bindings marks, c.signature.Binds args bindings ∧
              Call.applyWith m again tail (.procedure ref) args frame s =
                m.inTail tail c.body s.frames.size c.name { s.pushFrame ⟨some c.frame, bindings⟩ with
                  nextMark := s.nextMark + marks }) ∧
        ((∀ c ∈ clauses, c.signature.accepts args.length = false) → ∃ message,
          Call.applyWith m again tail (.procedure ref) args frame s =
            .error (.fault (.ofMessage Fault.Kind.arityError message)) s)) := by
  refine ⟨?_, ?_, ?_, ?_⟩
  · intro m s p tail items spine ends
    refine ⟨signature_eq_ok_iff m s spine ends, exists_signature_eq_error m s spine ends, ?_⟩
    exact fun d denotes hasText => exists_inMessage_of_denotes s _ denotes hasText
  · intro sig readable
    exact ⟨Signature.readAll_text readable, fun m s v spelled => signature_of_spells m spelled s⟩
  · intro sig args outer s
    constructor
    · exact fun fits => Signature.exists_bind_of_accepts fits outer s
    · exact fun unfit => Signature.bind_of_not_accepts unfit outer s
  · intro m again tail args frame s ref clauses name doc held
    constructor
    · exact fun front c back split others fits => Call.applyWith_of_first held split others fits
    · exact fun none => Call.applyWith_of_none held none

theorem Signature.eq_of_spells_atom {sig : Signature} {a : Atom}
    (spelled : sig.datum.Spells (.atom a)) : a = sig.rest.elim .nil .symbol := by
  obtain ⟨items, spine, -⟩ := Signature.spine_of_spells spelled
  obtain ⟨-, ends⟩ := spine.unique rfl .nil rfl
  exact (Value.atom.inj ends).symm

def overlapping : List Closure :=
  [⟨⟨["a"], some "rest"⟩, .symbol "rest", 0, none, none⟩,
    ⟨⟨["a", "b"], none⟩, .symbol "b", 0, none, none⟩]

def overlappingStore : Store := Store.empty.pushProcedure (.cases overlapping none none)

def openList : Value := .pair 0 (.symbol "a") (.symbol "rest")

theorem spine_openList : Spine openList [.symbol "a"] (.symbol "rest") := .cons .nil

/-- Of two clauses that fit the first is run, though it takes the second argument into a list. -/
theorem parameter_lists_agree_overlapping :
    let m := Engine.evaluating bareWorld 1 none
    let again := fun f args frame => Call.applyWithin m 1 none false f args frame
    m.signature openList Store.empty = .ok ⟨["a"], some "rest"⟩ Store.empty ∧
    (∃ message, m.signature (.atom (.char 'a')) Store.empty =
      .error (.fault (.ofMessage Fault.Kind.malformedForm message)) Store.empty) ∧
    readAll none "(a . rest)".toList = .ok [.pair (.symbol "a") (.symbol "rest")] ∧
    (∃ bindings marks, Signature.Binds ⟨["a"], some "rest"⟩ [.symbol "x", .symbol "y"] bindings ∧
      Call.applyWith m again true (.procedure 0) [.symbol "x", .symbol "y"] 0 overlappingStore =
        .ok (.tail (.symbol "rest") 1 none)
          { overlappingStore.pushFrame ⟨some 0, bindings⟩ with nextMark := marks }) ∧
    ∃ message, Call.applyWith m again true (.procedure 0) [] 0 overlappingStore =
      .error (.fault (.ofMessage Fault.Kind.arityError message)) overlappingStore := by
  intro m again
  obtain ⟨taken, written, -, called⟩ := parameter_lists_agree
  obtain ⟨known, -⟩ := taken m .empty openList _ _ spine_openList rfl
  obtain ⟨-, refused, texts⟩ := taken m .empty (.atom (.char 'a')) _ _ .nil rfl
  have spelled : (⟨["a"], some "rest"⟩ : Signature).datum.Spells openList :=
    @Signature.spells_datum openList ["a"] _ spine_openList (some "rest") rfl
  have readable : (⟨["a"], some "rest"⟩ : Signature).IsReadable := by
    intro name member
    obtain rfl | rfl : name = "a" ∨ name = "rest" := by simpa using member
    · decide +kernel
    · decide +kernel
  have noList (sig : Signature) : ¬ sig.datum.Spells (.atom (.char 'a')) := by
    intro spelled
    have ends := Signature.eq_of_spells_atom spelled
    cases rest : sig.rest <;> simp [rest] at ends
  have held : overlappingStore.procedures[0]? = some (.cases overlapping none none) := rfl
  obtain ⟨run, -⟩ := called m again true [.symbol "x", .symbol "y"] 0 overlappingStore 0 _ _ _ held
  obtain ⟨-, unfit⟩ := called m again true [] 0 overlappingStore 0 _ _ _ held
  refine ⟨(known _ _).mpr ⟨spelled, rfl⟩, ?_, (written _ readable).1, ?_, ?_⟩
  · obtain ⟨text, shown⟩ := texts (.atom (.char 'a')) (.atom _) rfl
    obtain ⟨message, refused⟩ := refused noList
    exact ⟨_, refused text shown⟩
  · obtain ⟨bindings, marks, binds, runs⟩ := run [] _ _ rfl (by simp) rfl
    exact ⟨bindings, _, binds, runs⟩
  · exact unfit (by decide)

/-- What has no text is refused without a fault that could be caught. -/
theorem signature_longNumber :
    let m := Engine.evaluating bareWorld 1 none
    (∀ sig : Signature, ¬ sig.datum.Spells (.atom (.int Template.longNumber))) ∧
    m.signature (.atom (.int Template.longNumber)) Store.empty =
      .error (.breakdown .tooManyDigits) Store.empty := by
  intro m
  have none (sig : Signature) : ¬ sig.datum.Spells (.atom (.int Template.longNumber)) := by
    intro spelled
    have ends := Signature.eq_of_spells_atom spelled
    cases rest : sig.rest <;> simp [rest] at ends
  refine ⟨none, ?_⟩
  have alone : Spine (.atom (.int Template.longNumber)) [] (.atom (.int Template.longNumber)) := .nil
  rcases signature_of_spine m alone rfl with
    ⟨sig, spelled, -⟩ | ⟨-, message, refused⟩
  · exact absurd spelled (none sig)
  · rw [refused]
    exact Run.bind_of_error (Template.inMessage_longNumber m Store.empty)

end LazyLisp
