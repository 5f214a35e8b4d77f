import LazyLisp.Proofs.Interruption

/-!
What interrupts a computation can end in, and what it does with its log.

A tame computation never looks at what has been logged, and of the breakdowns only those of an
integer with too many digits, of what the system refuses to read and of what it refuses to write end
it; inside a primitive arithmetic may also have no result. The operations on the store are tame.
-/

namespace LazyLisp

def Store.logged (text : String) (s : Store) : Store := { s with err := text ++ s.err }

def Run.logged {α : Type} (text : String) :
    EStateM.Result Interrupt Store α → EStateM.Result Interrupt Store α
  | .ok a s => .ok a (s.logged text)
  | .error e s => .error e (s.logged text)

/-- The interrupts that an evaluation can end in, or a primitive inside it, whose arithmetic may
have no result. -/
def Interrupt.Possible (arithmetic : Bool) : Interrupt → Prop
  | .breakdown .tooManyDigits | .breakdown .fileNotText => True
  | .breakdown .pathRefused | .breakdown .unencodable => True
  | .breakdown (.arithmetic _) => arithmetic = true
  | .breakdown _ => False
  | _ => True

theorem Interrupt.Possible.inside {a b : Bool} {e : Interrupt} (possible : e.Possible a)
    (inner : a = true → b = true) : e.Possible b := by
  cases e with
  | breakdown b =>
    cases b with
    | arithmetic e => exact inner possible
    | _ => exact possible
  | _ => trivial

/-- A computation that ends in no interrupt but those that are possible, and does not look at its
log. -/
structure Tame {α : Type} (arithmetic : Bool) (x : Run α) : Prop where
  ends : ∀ s e t, x s = .error e t → e.Possible arithmetic
  blind : ∀ text s, x (s.logged text) = Run.logged text (x s)

namespace Store

variable (text : String) (s : Store)

theorem write_logged : (s.logged text).write = s.write := by
  have writeWith : (s.logged text).writeWith = s.writeWith := by
    delta Store.writeWith
    rfl
  have within (hops : Nat) : (s.logged text).writeWithin hops = s.writeWithin hops := by
    induction hops with
    | zero => rfl
    | succ hops ih => rw [writeWithin, writeWithin, ih, writeWith]
  funext room readable v
  rw [write, write, within]
  rfl

theorem readable_logged : (s.logged text).readable = s.readable := by
  funext room v
  rw [readable, readable, write_logged]

theorem plain_logged : (s.logged text).plain = s.plain := by
  funext room v
  rw [plain, plain, write_logged]

theorem inMessage_logged : (s.logged text).inMessage = s.inMessage := by
  funext halves room v
  cases v <;> simp only [inMessage, readable_logged]

theorem summary_logged : (s.logged text).summary = s.summary := by
  funext room kind v
  match v with
  | none | some (.atom a) | some (.error ref) => rfl
  | some (.nan _) | some (.pair _ _ _) | some (.lazyPair _) | some (.procedure _)
  | some (.input _) => simp only [summary, readable_logged]

theorem faultText_logged : (s.logged text).faultText = s.faultText := by
  funext room f
  simp only [faultText, plain_logged]

theorem report_logged : (s.logged text).report = s.report := by
  have chain : (s.logged text).chain = s.chain := by
    with_unfolding_all rfl
  have traceLine : (s.logged text).traceLine = s.traceLine := by
    funext room entry
    rw [Store.traceLine, Store.traceLine, readable_logged]
  have lines : (s.logged text).reportLines = s.reportLines := by
    funext room f
    simp only [reportLines, traceLine, faultText_logged, readable_logged]
  funext room f
  rw [report, report, chain, lines]

end Store

namespace Tame

variable {α β : Type} {a : Bool} {x : Run α} {f : α → Run β}

theorem inside {b : Bool} (tame : Tame a x) (inner : a = true → b = true) : Tame b x where
  ends s e t failed := (tame.ends s e t failed).inside inner
  blind := tame.blind

theorem pure (v : α) : Tame a (pure v : Run α) where
  ends _ _ _ ended := by cases ended
  blind _ _ := rfl

theorem throw {e : Interrupt} (possible : e.Possible a) : Tame a (throw e : Run α) where
  ends _ _ _ ended := by
    cases ended
    exact possible
  blind _ _ := rfl

/-- The computation goes on from its result or from an interrupt, and the interrupts that it is not
to end in are handled. -/
theorem either {b : Bool} {handle : Interrupt → Run β} (tried : Tame b x)
    (rest : ∀ v, Tame a (f v)) (handled : ∀ e, e.Possible b → Tame a (handle e)) :
    Tame a (x.either f handle) where
  ends s e t ended := by
    unfold Run.either at ended
    cases first : x s with
    | ok v u =>
      rw [first] at ended
      exact (rest v).ends u e t ended
    | error d u =>
      rw [first] at ended
      exact (handled d (tried.ends s d u first)).ends u e t ended
  blind text s := by
    unfold Run.either
    rw [tried.blind]
    cases first : x s with
    | ok v u => exact (rest v).blind text u
    | error d u => exact (handled d (tried.ends s d u first)).blind text u

theorem bind (tame : Tame a x) (rest : ∀ v, Tame a (f v)) : Tame a (x >>= f) := by
  rw [Run.bind_eq_either]
  exact tame.either rest fun _ possible => .throw possible

theorem map {g : α → β} (tame : Tame a x) : Tame a (g <$> x) := by
  rw [map_eq_pure_bind]
  exact tame.bind fun _ => .pure _

theorem ite {c : Prop} [Decidable c] {y : Run α} (holds : Tame a x) (fails : Tame a y) :
    Tame a (if c then x else y) := by
  split
  · exact holds
  · exact fails

/-- A look at the store that does not see the log. -/
theorem look {f : Store → Run β} (unseen : ∀ text s, f (s.logged text) = f s)
    (rest : ∀ s, Tame a (f s)) : Tame a (get >>= f) where
  ends s e t ended := (rest s).ends s e t ended
  blind text s := by
    change f (s.logged text) (s.logged text) = Run.logged text (f s s)
    rw [unseen, (rest s).blind]

/-- A change of the store that leaves the log as it is. -/
theorem change {k : Store → α × Store}
    (apart : ∀ text s, k (s.logged text) = ((k s).1, (k s).2.logged text)) :
    Tame a (modifyGet k : Run α) where
  ends _ _ _ ended := by cases ended
  blind text s := by
    change EStateM.Result.ok (k (s.logged text)).1 (k (s.logged text)).2 = _
    rw [apart]
    rfl

theorem modify {k : Store → Store} (apart : ∀ text s, k (s.logged text) = (k s).logged text) :
    Tame a (modify k : Run Unit) :=
  .change fun text s => by rw [apart]

theorem held (found : Option α) : Tame a (Run.held found) := by
  cases found with
  | some v => exact .pure v
  | none => exact .throw trivial

theorem ofWritten (written : Except WriteFailure α) : Tame a (Run.ofWritten written) := by
  unfold Run.ofWritten
  split
  · exact .pure _
  all_goals exact .throw trivial

theorem freshMark : Tame a Run.freshMark := .change fun _ _ => rfl

theorem cons (car cdr : Value) : Tame a (Run.cons car cdr) := freshMark.bind fun _ => .pure _

theorem listReversed (items : List Value) (tail : Value) : Tame a (Run.listReversed items tail) :=
  .change fun _ _ => rfl

theorem list (items : List Value) : Tame a (Run.list items) := listReversed _ _

theorem ofDatum (d : Datum) : Tame a (Run.ofDatum d) := .change fun _ _ => rfl

theorem ofNumber (n : Number) : Tame a (Run.ofNumber n) := by
  unfold Run.ofNumber
  split
  · exact .pure _
  · exact .ite (freshMark.bind fun _ => .pure _) (.pure _)

theorem newFrame (outer : FrameId) : Tame a (Run.newFrame outer) := .change fun _ _ => rfl

theorem define (frame : FrameId) (name : String) (v : Value) : Tame a (Run.define frame name v) :=
  .modify fun _ _ => rfl

theorem find? (frame : FrameId) (name : String) : Tame a (Run.find? frame name) :=
  .look (fun _ _ => rfl) fun _ => .pure _

theorem topLevel (frame : FrameId) : Tame a (Run.topLevel frame) :=
  .look (fun _ _ => rfl) fun _ => .pure _

theorem newProcedure (p : Procedure) : Tame a (Run.newProcedure p) := .change fun _ _ => rfl

theorem procedure (ref : Nat) : Tame a (Run.procedure ref) := .look (fun _ _ => rfl) fun _ => held _

theorem nameProcedure (ref : Nat) (name : String) : Tame a (Run.nameProcedure ref name) :=
  .modify fun _ _ => rfl

theorem newLazyPair (p : LazyPair) : Tame a (Run.newLazyPair p) := .change fun _ _ => rfl

theorem lazyPair (ref : Nat) : Tame a (Run.lazyPair ref) := .look (fun _ _ => rfl) fun _ => held _

theorem settle (ref : Nat) (side : Side) (v : Value) : Tame a (Run.settle ref side v) :=
  .modify fun _ _ => rfl

theorem newError (f : Fault) : Tame a (Run.newError f) := .change fun _ _ => rfl

theorem errorFault (ref : Nat) : Tame a (Run.errorFault ref) :=
  .look (fun _ _ => rfl) fun _ => held _

theorem newInput (p : Input) : Tame a (Run.newInput p) := .change fun _ _ => rfl

theorem emit (text : String) : Tame a (Run.emit text) := .modify fun _ _ => rfl

theorem emitError (text : String) : Tame a (Run.emitError text) := by
  refine .modify fun front s => ?_
  simp only [Store.logged, String.append_assoc]

theorem gensym (start : String) : Tame a (Run.gensym start) := .change fun _ _ => rfl

end Tame

end LazyLisp
