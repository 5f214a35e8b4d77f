import LazyLisp.Proofs.JoinedText
import LazyLisp.Proofs.StoreEvolution
import LazyLisp.Proofs.TameRuns
import LazyLisp.Proofs.WholeTexts

/-!
Splitting a program over several evaluations.

The forms of two texts joined by a newline are evaluated as those of the first text and then those of
the second one. Reading ahead is no matter, since a text is read before its first form is evaluated
only in so far as this decides which forms there are; and what has been logged is no matter to
evaluation. The place of a read error counts from the last form that could be read, which is why a
second text that cannot be read at all is complained about further to the right.
-/

namespace LazyLisp

def ReadFailure.interrupt : ReadFailure → Interrupt
  | error e => .fault (.ofReadError e)
  | breakdown .nestedTooDeep => .overflow
  | breakdown b => .breakdown b

namespace Run

theorem readFailure_eq_throw {α : Type} (f : ReadFailure) :
    (readFailure f : Run α) = throw f.interrupt := by
  cases f with
  | error e => rfl
  | breakdown b => cases b <;> rfl

def evalAll (eval : Value → Run Value) : List Datum → Value → Run Value
  | [], v => pure v
  | d :: ds, _ => do evalAll eval ds (← eval (← ofDatum d))

def endForms (failure : Option ReadFailure) (v : Value) : Run Value :=
  match failure with
  | some failure => throw failure.interrupt
  | none => pure v

theorem fst_evalForms (room : Option Nat) (eval : Value → Run Value) (input : Input) :
    Prod.fst <$> evalForms room eval input =
      evalAll eval (input.forms room).1 .nil >>= endForms (input.forms room).2 := by
  have loop (ds : List Datum) (v : Value) :
      (forIn ds v fun d _ => do
        let r ← eval (← ofDatum d)
        pure PUnit.unit
        pure (ForInStep.yield r)) = evalAll eval ds v := by
    induction ds generalizing v with
    | nil => rfl
    | cons d ds ih =>
      rw [List.forIn_cons, evalAll]
      simp only [bind_assoc, pure_bind, ih]
  unfold evalForms
  generalize input.forms room = read
  obtain ⟨forms, failure⟩ := read
  rw [← loop, map_eq_pure_bind, bind_assoc]
  refine bind_congr fun v => ?_
  cases failure with
  | none => rfl
  | some f =>
    change readFailure f >>= _ = _
    rw [readFailure_eq_throw]
    rfl

theorem evalAll_append (eval : Value → Run Value) (ds es : List Datum) (v : Value) :
    evalAll eval (ds ++ es) v = evalAll eval ds v >>= evalAll eval es := by
  induction ds generalizing v with
  | nil => simp [evalAll]
  | cons d ds ih => simp only [List.cons_append, evalAll, ih, bind_assoc]

/-- The value in front of the forms is returned if there is none, and else forgotten. -/
theorem evalAll_from (eval : Value → Run Value) (ds : List Datum) (v : Value) (s : Store) :
    match evalAll eval ds .nil s with
    | .ok u t => ∃ r, evalAll eval ds v s = .ok r t ∧ (ds ≠ [] → r = u) ∧ (ds = [] → r = v)
    | .error e t => evalAll eval ds v s = .error e t := by
  cases ds with
  | nil => exact ⟨v, rfl, fun forms => absurd rfl forms, fun _ => rfl⟩
  | cons d ds =>
    rw [show evalAll eval (d :: ds) v = evalAll eval (d :: ds) .nil from rfl]
    cases evalAll eval (d :: ds) .nil s with
    | ok u t => exact ⟨u, rfl, fun _ => rfl, by simp⟩
    | error e t => rfl

end Run

/-- The interrupts of a text alone and of the text behind another one. If there is no read error in
the first form, they are the same. Else it is that error, and behind the other text it is found `k`
characters further to the right; if it is about an unexpected character, that may be another one. -/
inductive Interrupt.Behind (k : Nat) (text : List Char) : Interrupt → Interrupt → Prop where
  | same {e} : (∀ x, Input.firstForm none text ≠ .error (.error x)) → Behind k text e e
  | shifted {x y : ReadError} : Input.firstForm none text = .error (.error x) →
      ReadFailure.Shifted k (.error x) (.error y) →
      Behind k text (.fault (.ofReadError x)) (.fault (.ofReadError y))

/-- Reading the text does not run out of room. -/
def Roomy (limit : Option Nat) (text : List Char) : Prop :=
  ∀ name, ((Input.ofText name text).forms limit).2 ≠ some Input.tooDeep

theorem roomy_none (text : List Char) : Roomy none text := by
  intro name deep
  obtain ⟨ds, f, spells⟩ := Input.exists_spells text
  rw [spells.forms_eq name] at deep
  have failed : ∃ rest, Input.firstForm none rest = .error f := by
    clear deep
    induction spells with
    | done found => exact ⟨_, found⟩
    | next _ _ ih => exact ih
  obtain ⟨rest, found⟩ := failed
  split at deep
  · cases deep
  · cases deep
    cases Input.eq_tooManyDigits_of_firstForm found

/-- The texts can be joined: the first one can be read and does not end in the mark of a character
literal, which would take the newline for its character. -/
structure Joinable (limit : Option Nat) (a b : List Char) : Prop where
  readable : ∃ forms, readAll none a = .ok forms
  whole : ¬ EndsInMark a
  roomy : Roomy limit a ∧ Roomy limit b ∧ Roomy limit (a ++ '\n' :: b)

/-- The forms of two texts that are joined, as far as reading them within the limit gives them. -/
theorem Joinable.forms {limit : Option Nat} {a b : List Char} (joinable : Joinable limit a b) :
    ∃ ds es f g, (∀ name, (Input.ofText name a).forms limit = (ds, none)) ∧
      (∀ name, (Input.ofText name b).forms limit = (es, f)) ∧
      (∀ name, (Input.ofText name (a ++ '\n' :: b)).forms limit = (ds ++ es, g)) ∧
      (readAll none b = .ok [] ↔ es = [] ∧ f = none) ∧
      (es ≠ [] → ∀ x, Input.firstForm none b ≠ .error (.error x)) ∧
      (f = g ∧ (es = [] → f = none) ∨ ∃ x y, f = some x ∧ g = some y ∧ Input.firstForm none b = .error x ∧
        x.Shifted (Input.trailing a + 1) y) := by
  obtain ⟨⟨forms, read⟩, whole, roomyA, roomyB, roomy⟩ := joinable
  obtain ⟨ds, e, first⟩ := Input.exists_spells a
  obtain ⟨es, f, second⟩ := Input.exists_spells b
  obtain ⟨rfl, ended⟩ := first.readAll_eq_ok_iff.mp read
  obtain ⟨g, joined, shifted⟩ :=
    first.join ended (readAll_eq_ok_iff.mp read).1 whole second
  refine ⟨forms, es, if f.isEnd then none else some f, if g.isEnd then none else some g, ?_, ?_, ?_,
    ?_, ?_, ?_⟩
  · intro name
    rw [Input.forms_limit (roomyA name), first.forms_eq name, ended, if_pos rfl]
  · intro name
    rw [Input.forms_limit (roomyB name), second.forms_eq name]
  · intro name
    rw [Input.forms_limit (roomy name), joined.forms_eq name]
  · rw [second.readAll_eq_ok_iff]
    cases f.isEnd <;> simp [eq_comm]
  · intro some_form x
    cases second with
    | done => exact absurd rfl some_form
    | next found => simp [found]
  · cases second with
    | next => simp_all
    | done missing =>
      rw [if_pos rfl] at shifted
      rw [shifted.isEnd]
      cases f.isEnd with
      | true => exact .inl ⟨rfl, fun _ => rfl⟩
      | false => exact .inr ⟨f, g, rfl, rfl, missing, shifted⟩

theorem behind_of_shifted {k : Nat} {text : List Char} {x y : ReadFailure}
    (missing : Input.firstForm none text = .error x) (shifted : x.Shifted k y) :
    x.interrupt.Behind k text y.interrupt := by
  cases shifted with
  | strange => exact .shifted missing .strange
  | moved =>
    cases x with
    | error x => exact .shifted missing (.moved _)
    | breakdown b => exact .same fun x => by simp [missing]

/-- How the evaluation of two joined texts ends, given how that of the first one ended and that of
the second one goes on from there, with stores that are the same as far as they are compared. -/
def GoesOn (same : Store → Store → Prop) (a b : List Char)
    (first : EStateM.Result Interrupt Store Value)
    (second : Store → EStateM.Result Interrupt Store Value)
    (joined : EStateM.Result Interrupt Store Value) : Prop :=
  match first with
  | .error e t => ∃ t', joined = .error e t' ∧ same t t'
  | .ok v t => match second t with
    | .ok u t' => ∃ r t'', joined = .ok r t'' ∧ same t' t'' ∧
        (readAll none b ≠ .ok [] → r = u) ∧ (readAll none b = .ok [] → r = v)
    | .error e t' => ∃ e' t'', joined = .error e' t'' ∧ same t' t'' ∧
        e.Behind (Input.trailing a + 1) b e'

/-- Evaluating the forms of two texts in order, and those of the two texts joined. -/
theorem goesOn_evalForms {room : Option Nat} {a b : List Char} (joinable : Joinable room a b)
    (eval : Value → Run Value) (nameA nameB name : String) (s : Store) :
    GoesOn Eq a b ((Prod.fst <$> Run.evalForms room eval (.ofText nameA a)) s)
      (Prod.fst <$> Run.evalForms room eval (.ofText nameB b))
      ((Prod.fst <$> Run.evalForms room eval (.ofText name (a ++ '\n' :: b))) s) := by
  obtain ⟨ds, es, f, g, formsA, formsB, joined, empty, sound, failures⟩ := joinable.forms
  simp only [Run.fst_evalForms, formsA, formsB, joined, Run.evalAll_append, bind_assoc]
  unfold GoesOn
  cases first : Run.evalAll eval ds .nil s with
  | error e t =>
    rw [Run.bind_of_error first, Run.bind_of_error first]
    exact ⟨t, rfl, rfl⟩
  | ok v t =>
    rw [Run.bind_of_ok first, Run.bind_of_ok first]
    change match (Run.evalAll eval es .nil >>= Run.endForms f) t with
      | .ok u t' => _
      | .error e t' => _
    have second := Run.evalAll_from eval es v t
    cases alone : Run.evalAll eval es .nil t with
    | error e t' =>
      rw [alone] at second
      rw [Run.bind_of_error alone]
      refine ⟨e, t', Run.bind_of_error second, rfl, .same (sound ?_)⟩
      rintro rfl
      cases alone
    | ok u t' =>
      rw [alone] at second
      obtain ⟨r, behind, forms, noForms⟩ := second
      rw [Run.bind_of_ok alone, Run.bind_of_ok behind]
      rcases failures with ⟨rfl, none⟩ | ⟨x, y, rfl, rfl, missing, shifted⟩
      · cases f with
        | none =>
          refine ⟨r, t', rfl, rfl, fun some_form => forms ?_, fun none => noForms (empty.mp none).1⟩
          rintro rfl
          exact some_form (empty.mpr ⟨rfl, rfl⟩)
        | some f => exact ⟨f.interrupt, t', rfl, rfl, .same (sound fun empty => nomatch none empty)⟩
      · exact ⟨y.interrupt, t', rfl, rfl, behind_of_shifted missing shifted⟩

/-- The stores differ at most in their logs, and not at all if nothing is logged for debugging. -/
structure Store.SameButLog (l : Logging) (s t : Store) : Prop where
  rest : { s with err := "" } = { t with err := "" }
  log : l.enabled .debug = false → s = t

/-- The outcomes are the same except for the logs. -/
inductive Run.SameButLog {α : Type} (l : Logging) :
    EStateM.Result Interrupt Store α → EStateM.Result Interrupt Store α → Prop where
  | ok {v s t} : s.SameButLog l t → SameButLog l (.ok v s) (.ok v t)
  | error {e s t} : s.SameButLog l t → SameButLog l (.error e s) (.error e t)

namespace Store.SameButLog

variable {l : Logging} {s t u : Store}

theorem refl (l : Logging) (s : Store) : s.SameButLog l s := ⟨rfl, fun _ => rfl⟩

theorem symm (same : s.SameButLog l t) : t.SameButLog l s :=
  ⟨same.rest.symm, fun quiet => (same.log quiet).symm⟩

theorem trans (first : s.SameButLog l t) (second : t.SameButLog l u) : s.SameButLog l u :=
  ⟨first.rest.trans second.rest, fun quiet => (first.log quiet).trans (second.log quiet)⟩

theorem frames (same : s.SameButLog l t) : s.frames = t.frames :=
  (Store.mk.inj same.rest).1

end Store.SameButLog

theorem Run.SameButLog.trans {α : Type} {l : Logging}
    {x y z : EStateM.Result Interrupt Store α} (first : Run.SameButLog l x y)
    (second : Run.SameButLog l y z) : Run.SameButLog l x z := by
  cases first with
  | ok same =>
    cases second with
    | ok further => exact .ok (same.trans further)
  | error same =>
    cases second with
    | error further => exact .error (same.trans further)

/-- Tame computations do the same wherever the stores differ in their logs only. -/
theorem Tame.sameButLog {α : Type} {arithmetic : Bool} {x : Run α} (tame : Tame arithmetic x)
    {l : Logging} {s t : Store} (same : s.SameButLog l t) : Run.SameButLog l (x s) (x t) := by
  have logged (z : Store) : z = ({ z with err := "" } : Store).logged z.err := by
    simp [Store.logged]
  have first := tame.blind s.err { s with err := "" }
  have second := tame.blind t.err { t with err := "" }
  rw [← logged] at first second
  rw [← same.rest] at second
  have log (quiet : l.enabled .debug = false) (z : Store) : z.logged s.err = z.logged t.err := by
    rw [same.log quiet]
  rw [first, second]
  cases x { s with err := "" } with
  | ok v z => exact .ok ⟨rfl, fun quiet => log quiet z⟩
  | error e z => exact .error ⟨rfl, fun quiet => log quiet z⟩

/-- A message for debugging changes nothing but the log. -/
theorem exists_log_eq (l : Logging) (origin : String) (message : Unit → String) (s : Store) :
    ∃ t, Run.log l .debug origin message s = .ok () t ∧ s.SameButLog l t := by
  unfold Run.log
  split
  · next enabled => exact ⟨_, rfl, rfl, by simp [enabled]⟩
  · exact ⟨s, rfl, .refl l s⟩

/-- The same result behind a message for debugging. -/
theorem Run.SameButLog.noted {l : Logging} {x : Run (Value × Nat)} {s t : Store}
    (same : Run.SameButLog l (x s) (x t)) (origin : String) (message : Nat → Unit → String) :
    Run.SameButLog l ((Prod.fst <$> x) s) ((x >>= fun r => do
      Run.log l .debug origin (message r.2)
      return r.1) t) := by
  generalize first : x s = outcome, second : x t = other at same
  cases same with
  | @ok r s t same =>
    obtain ⟨u, logged, noted⟩ := exists_log_eq l origin (message r.2) t
    rw [Run.map_of_ok first, Run.bind_of_ok second, Run.bind_of_ok logged]
    exact .ok (same.trans noted)
  | error same =>
    rw [map_eq_pure_bind, Run.bind_of_error first, Run.bind_of_error second]
    exact .error same

def World.Holds (w : World) (path : Path) (text : List Char) : Prop :=
  ∃ found bytes, w.disk.resolve w.searchPath path = .ok (some (found, .ok bytes)) ∧
    Disk.textOf bytes = .ok text

def loadFrom (w : World) (fuel : Nat) (room : Option Nat) (path : Path) (shown : String)
    (frame : FrameId) : Run Value :=
  Load.file w room (evaluate w fuel room · · none) path shown frame

def evalGlobally (w : World) (fuel : Nat) (room : Option Nat) (name : String) (text : List Char) :
    Run (Value × Nat) :=
  Run.evalForms room (evaluate w fuel room · Store.globalFrame none) (.ofText name text)

theorem tame_evalGlobally (w : World) (fuel : Nat) (room : Option Nat) (name : String)
    (text : List Char) : Tame false (evalGlobally w fuel room name text) :=
  .evalForms room (fun _ => .evaluate _ _ _ _ _ _) _

/-- Loading a file evaluates its forms in the global frame, wherever it is loaded from, and else
only writes to the log. -/
theorem loadFrom_sameButLog {w : World} {path : Path} {text : List Char}
    (holds : w.Holds path text) (fuel : Nat) (room : Option Nat) (shown : String) :
    ∃ name, ∀ s frame, Hidden.nothing.Lawful s → frame < s.frames.size →
      Run.SameButLog w.logging ((Prod.fst <$> evalGlobally w fuel room name text) s)
        (loadFrom w fuel room path shown frame s) := by
  obtain ⟨found, bytes, resolved, held⟩ := holds
  refine ⟨found.toString, fun s frame lawful inside => ?_⟩
  obtain ⟨t, begun, noted⟩ := exists_log_eq w.logging Load.origin
    (fun _ => "loading " ++ found.toString) s
  have top : Run.topLevel frame t = .ok Store.globalFrame t := by
    change EStateM.Result.ok (Frame.topLevel t.frames frame) t = _
    rw [← noted.frames, lawful.topLevel inside]
    rfl
  have file : loadFrom w fuel room path shown frame =
      Load.text w room (evaluate w fuel room · · none) found.toString text frame := by
    simp [loadFrom, Load.file, Run.ofSystem, resolved, held]
  rw [file, Load.text, Run.bind_of_ok begun, Run.bind_of_ok top]
  exact ((tame_evalGlobally w fuel room found.toString text).sameButLog noted).noted Load.origin
    fun count _ => "loaded " ++ found.toString ++ ": " ++ toString count ++ " form(s)"

theorem later_loadFrom {s : Store} {frame : FrameId} (lawful : Hidden.nothing.Lawful s)
    (inside : frame < s.frames.size) (w : World) (fuel : Nat) (room : Option Nat) (path : Path)
    (shown : String) : Hidden.nothing.Later s (after (loadFrom w fuel room path shown frame s)) := by
  have safe : Hidden.nothing.Safe s Hidden.nothing.Admits
      (loadFrom w fuel room path shown frame) (loadFrom w fuel room path shown frame) :=
    .loadFile w fuel room inside path shown
  exact safe.later lawful.refl

theorem Session.eval_eq (w : World) (fuel : Nat) (code : String) :
    Session.eval w fuel code = Prod.fst <$> Run.evalForms w.room (fun form =>
      Session.catchOverflow (evaluate w fuel w.room form Store.globalFrame none)
        (Session.recursionFault "maximum recursion depth exceeded" (some form)))
      (.ofText "<string>" code.toList) :=
  (map_eq_pure_bind _ _).symm

theorem goesOn_eval {w : World} {a b : String} (joinable : Joinable w.room a.toList b.toList)
    (fuel : Nat) (s : Store) :
    GoesOn Eq a.toList b.toList (Session.eval w fuel a s) (Session.eval w fuel b)
      (Session.eval w fuel (a ++ "\n" ++ b) s) := by
  have text : (a ++ "\n" ++ b).toList = a.toList ++ '\n' :: b.toList := by simp
  simp only [Session.eval_eq, text]
  exact goesOn_evalForms joinable _ "<string>" "<string>" "<string>" s

section Noted

variable {l : Logging} {a b : List Char} {x x' z z' : EStateM.Result Interrupt Store Value}
  {y y' : Store → EStateM.Result Interrupt Store Value}

theorem GoesOn.sameButLog (goesOn : GoesOn Eq a b x y z) (first : Run.SameButLog l x x')
    (second : ∀ v t t', t.SameButLog l t' → x' = .ok v t' → Run.SameButLog l (y t) (y' t'))
    (joined : Run.SameButLog l z z') : GoesOn (Store.SameButLog l) a b x' y' z' := by
  unfold GoesOn at goesOn ⊢
  cases first with
  | @error e t t' same =>
    obtain ⟨_, rfl, rfl⟩ := goesOn
    cases joined with
    | @error _ _ u joined => exact ⟨u, rfl, same.symm.trans joined⟩
  | @ok v t t' same =>
    have second := second v t t' same rfl
    simp only at goesOn ⊢
    generalize y t = alone, y' t' = other at goesOn second
    cases second with
    | ok further =>
      obtain ⟨r, _, rfl, rfl, values⟩ := goesOn
      cases joined with
      | @ok _ _ u joined => exact ⟨r, u, rfl, further.symm.trans joined, values⟩
    | error further =>
      obtain ⟨e', _, rfl, rfl, behind⟩ := goesOn
      cases joined with
      | @error _ _ u joined => exact ⟨e', u, rfl, further.symm.trans joined, behind⟩

end Noted

theorem goesOn_load {w : World} {room : Option Nat} {a b : List Char}
    (joinable : Joinable room a b) {pathA pathB path : Path} (holdsA : w.Holds pathA a)
    (holdsB : w.Holds pathB b) (holds : w.Holds path (a ++ '\n' :: b)) {s : Store}
    (lawful : Hidden.nothing.Lawful s) {frame : FrameId} (inside : frame < s.frames.size)
    (fuel : Nat) (shownA shownB shown : String) :
    GoesOn (Store.SameButLog w.logging) a b (loadFrom w fuel room pathA shownA frame s)
      (loadFrom w fuel room pathB shownB frame) (loadFrom w fuel room path shown frame s) := by
  obtain ⟨nameA, first⟩ := loadFrom_sameButLog holdsA fuel room shownA
  obtain ⟨nameB, second⟩ := loadFrom_sameButLog holdsB fuel room shownB
  obtain ⟨name, joined⟩ := loadFrom_sameButLog holds fuel room shown
  have goesOn := goesOn_evalForms joinable (evaluate w fuel room · Store.globalFrame none)
    nameA nameB name s
  refine goesOn.sameButLog (first s frame lawful inside) ?_ (joined s frame lawful inside)
  intro v t t' same loaded
  have later := later_loadFrom lawful inside w fuel room pathA shownA
  rw [loaded] at later
  have further := second t' frame later.lawful (Nat.lt_of_lt_of_le inside later.wider.frames)
  exact ((tame_evalGlobally w fuel room nameB b).map.sameButLog same).trans further

/-- Splitting a program over several evaluations, or over several files loaded from any frame of a
lawful store, such as a session comes to (`Reachable.lawful`). -/
theorem eval_join (w : World) (a b : String) :
    (Joinable w.room a.toList b.toList → ∀ fuel s,
      GoesOn Eq a.toList b.toList (Session.eval w fuel a s) (Session.eval w fuel b)
        (Session.eval w fuel (a ++ "\n" ++ b) s)) ∧
    ∀ room pathA pathB path, Joinable room a.toList b.toList → w.Holds pathA a.toList →
      w.Holds pathB b.toList → w.Holds path (a ++ "\n" ++ b).toList →
      ∀ fuel shownA shownB shown s frame, Hidden.nothing.Lawful s → frame < s.frames.size →
        GoesOn (Store.SameButLog w.logging) a.toList b.toList
          (loadFrom w fuel room pathA shownA frame s) (loadFrom w fuel room pathB shownB frame)
          (loadFrom w fuel room path shown frame s) := by
  refine ⟨fun joinable fuel s => goesOn_eval joinable fuel s, ?_⟩
  intro room pathA pathB path joinable holdsA holdsB holds fuel shownA shownB shown s frame lawful
    inside
  have text : (a ++ "\n" ++ b).toList = a.toList ++ '\n' :: b.toList := by simp
  rw [text] at holds
  exact goesOn_load joinable holdsA holdsB holds lawful inside fuel shownA shownB shown

def splitWorld : World :=
  let file (text : String) := text.toUTF8.toList
  { bareWorld with disk := .ofTree (((Disk.Tree.empty.add "a" (file "(define x 1) ;one")).add "b"
      (file "(set! x 2) x)")).add "ab" (file "(define x 1) ;one\n(set! x 2) x)")) }

theorem eval_join_splitWorld :
    GoesOn Eq "(define x 1) ;one".toList "(set! x 2) x)".toList
      (Session.eval splitWorld 9 "(define x 1) ;one" bareStore)
      (Session.eval splitWorld 9 "(set! x 2) x)")
      (Session.eval splitWorld 9 ("(define x 1) ;one" ++ "\n" ++ "(set! x 2) x)") bareStore) ∧
    GoesOn (Store.SameButLog splitWorld.logging) "(define x 1) ;one".toList "(set! x 2) x)".toList
      (loadFrom splitWorld 9 none (.ofString "a") "a" Store.globalFrame bareStore)
      (loadFrom splitWorld 9 none (.ofString "b") "b" Store.globalFrame)
      (loadFrom splitWorld 9 none (.ofString "ab") "ab" Store.globalFrame bareStore) := by
  have joinable : Joinable none "(define x 1) ;one".toList "(set! x 2) x)".toList := by
    refine ⟨⟨_, by with_unfolding_all rfl⟩, ?_, roomy_none _, roomy_none _, roomy_none _⟩
    rw [EndsInMark]
    decide +kernel
  have lawful := (Reachable.start bareWorld 0 .unset .none "").lawful
  have join := eval_join splitWorld "(define x 1) ;one" "(set! x 2) x)"
  refine ⟨join.1 joinable 9 bareStore, ?_⟩
  refine join.2 none (.ofString "a") (.ofString "b") (.ofString "ab") joinable ?_ ?_ ?_ 9 "a" "b"
    "ab" bareStore Store.globalFrame lawful lawful.admitsGlobal.1
  · exact ⟨.ofString "a", _, rfl, by decide +kernel⟩
  · exact ⟨.ofString "b", _, rfl, by decide +kernel⟩
  · exact ⟨.ofString "ab", _, rfl, by decide +kernel⟩

/-- The error is not the same if the second text cannot be read at all. -/
theorem eval_join_elsewhere :
    ¬ ∀ (w : World) (fuel : Nat) (s t t' : Store) (a b : String) (v : Value) (e : Interrupt),
      Joinable w.room a.toList b.toList → Session.eval w fuel a s = .ok v t →
      Session.eval w fuel b t = .error e t' →
      ∃ t'', Session.eval w fuel (a ++ "\n" ++ b) s = .error e t'' := by
  intro same
  have joinable : Joinable none "1".toList ")".toList := by
    refine ⟨⟨_, by with_unfolding_all rfl⟩, ?_, roomy_none _, roomy_none _, roomy_none _⟩
    rw [EndsInMark]
    decide +kernel
  have first : Session.eval bareWorld 1 "1" .empty = .ok (.atom (.int 1)) .empty := by
    with_unfolding_all rfl
  have second : Session.eval bareWorld 1 ")" .empty =
      .error (.fault (.ofReadError ⟨.unexpectedClose, 0⟩)) .empty := by
    with_unfolding_all rfl
  have joined : Session.eval bareWorld 1 "1\n)" .empty =
      .error (.fault (.ofReadError ⟨.unexpectedClose, 1⟩)) .empty := by
    with_unfolding_all rfl
  obtain ⟨t, wrong⟩ :=
    same bareWorld 1 .empty .empty .empty "1" ")" _ _ joinable first second
  cases joined.symm.trans wrong

end LazyLisp
