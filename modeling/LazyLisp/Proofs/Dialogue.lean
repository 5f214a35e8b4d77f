import LazyLisp.Proofs.Catching
import LazyLisp.Proofs.Reading
import Mathlib.Logic.Relation

/-!
The dialogue with the user: read a form, evaluate it, show what came of it, and begin again.

A turn of the dialogue writes a prompt and reads once. What could not be read is complained about; a
form is evaluated once, at top level, and its value is shown, or the error that stopped it. The next
turn begins with the store that this one has left. The dialogue ends where a read finds the end of
the input.
-/

namespace LazyLisp

namespace Dialogue

open Datum

def prompt : String := "sloth> "

def request : Datum := list [symbol "read"]

def again : Datum := list [symbol "repl"]

def farewell : Datum :=
  list [symbol "begin", list [symbol "println"], list [symbol "println", .atom (.string "Goodbye.")],
    list [symbol "quote", symbol "goodbye"]]

def complaint : Datum :=
  list [symbol "begin",
    list [symbol "println", .atom (.string "read error: "),
      list [symbol "error-value", symbol "form"]],
    again]

def diagnostic : Datum :=
  list [symbol "begin",
    list [symbol "println", .atom (.string "uncaught error while evaluating "),
      list [symbol "repr", symbol "form"]],
    list [symbol "dump-traceback", symbol "result"]]

def resultLine : Datum := list [symbol "println", list [symbol "repr", symbol "result"]]

def reply : Datum :=
  list [symbol "if",
    list [symbol "and", list [symbol "error?", symbol "result"],
      list [symbol "not", list [symbol "null?", list [symbol "error-source", symbol "result"]]]],
    diagnostic, resultLine]

def response : Datum :=
  list [symbol "if", list [symbol "error?", symbol "form"],
    list [symbol "if",
      list [symbol "eq?", list [symbol "error-type", symbol "form"],
        list [symbol "quote", symbol "eof"]],
      farewell, complaint],
    list [symbol "let",
      list [list [symbol "result",
        list [symbol "catch-error", list [symbol "eval", symbol "form"]]]],
      reply, again]]

def ask : Datum := list [symbol "print", .atom (.string prompt)]

def exchange : Datum :=
  list [symbol "let", list [list [symbol "form", list [symbol "catch-error", request]]], response]

def turn : Datum := list [symbol "begin", ask, exchange]

def primitives : List Primitive :=
  [.print, .read, .isError, .same, .errorType, .printLine, .errorValue, .eval, .errorSource, .not,
    .isNull, .repr, .dumpTraceback]

def names : List String := "repl" :: standardInput :: primitives.map (·.name)

/-- The store holds the dialogue: `repl` and the primitives have their global names, and the input
is the standard input. -/
structure Ready (s : Store) (input : Nat) : Prop where
  loop : ∃ ref c, s.global? "repl" = some (.procedure ref) ∧
    s.procedures[ref]? = some (.closure c) ∧ c.Matches ⟨[], none⟩ turn Store.globalFrame
  primitives : ∀ p ∈ primitives, s.Names p
  input : s.global? standardInput = some (.input input)

theorem Ready.emit {s : Store} {input : Nat} (ready : Ready s input) (text : String) :
    Ready (s.emit text) input := ⟨ready.loop, ready.primitives, ready.input⟩

theorem Ready.kept {s t : Store} {input : Nat} (ready : Ready s input)
    (same : ∀ name ∈ names, t.global? name = s.global? name) (retains : s.Retains t) :
    Ready t input where
  loop := by
    obtain ⟨ref, c, bound, held, isMatch⟩ := ready.loop
    exact ⟨ref, c, (same _ (by simp [names])).trans bound, retains ref _ held, isMatch⟩
  primitives p member :=
    (ready.primitives p member).kept (same _ (.tail _ (.tail _ (List.mem_map_of_mem member)))) retains
  input := (same _ (by simp [names])).trans ready.input

theorem Ready.globalFrame_lt {s : Store} {input : Nat} (ready : Ready s input) :
    Store.globalFrame < s.frames.size := Store.globalFrame_lt_of_global? ready.input

theorem global?_of_allocates {s t : Store} (present : Store.globalFrame < s.frames.size)
    (allocates : Allocates s t) (name : String) : t.global? name = s.global? name := by
  have found := Array.getElem?_eq_getElem present
  rw [Store.global?, Store.global?, found, allocates.frames _ _ found]

theorem Ready.allocates {s t : Store} {input : Nat} (ready : Ready s input)
    (allocates : Allocates s t) : Ready t input :=
  ready.kept (fun name _ => global?_of_allocates ready.globalFrame_lt allocates name)
    allocates.procedures

def asking (s : Store) : Store := (s.pushFrame ⟨some Store.globalFrame, []⟩).emit prompt

def holding (s : Store) (call : FrameId) (form : Value) : Store :=
  s.pushFrame ⟨some call, [("form", form)]⟩

/-- What came of the form is bound inside the frame of the form; the body of that binding is a new
list. -/
def showing (s : Store) (outer : FrameId) (result : Value) : Store :=
  { s.pushFrame ⟨some outer, [("result", result)]⟩ with nextMark := s.nextMark + 3 }

/-- What came of the form is shown: an error that has left a form with its report, and anything else
as it is written. The standard output takes what is shown. -/
inductive Reply (w : World) (room : Option Nat) (form : Value) (s : Store) :
    Value → Store → Prop where
  | result {r text} :
      (∀ ref f, r = .error ref → s.errors[ref]? = some f → (f.source.getD .nil).isNil = true) →
      s.readable (lower 3 room) r = .ok text → w.takes text = true →
      Reply w room form s r (s.emit (text ++ "\n"))
  | diagnostic {ref f line report t} : s.errors[ref]? = some f →
      (f.source.getD .nil).isNil = false → s.readable (lower 4 room) form = .ok line →
      w.takes line = true → s.emit ("uncaught error while evaluating " ++ line ++ "\n") = t →
      t.report (lower 2 room) f = .ok report → w.takes report = true →
      Reply w room form s (.error ref) (t.emit (report ++ "\n"))

section Turns

variable (w : World) (room : Option Nat) (input : Nat)

/-- One turn: a read that fails and a complaint, or a form that is evaluated and a reply. Where the
read fails, the error has left the request as the code has it, whatever its marks. -/
inductive Turn : Store → Store → Prop where
  | unread {s t e expr f} :
      Run.readInput (lower 3 room) input (asking s) = .error (.fault (.ofReadError e)) t →
      e.issue ≠ .endOfInput → request.Spells expr →
      f = (Fault.ofReadError e).leave expr none w.traceLimit →
      Turn s ((holding (t.keep f) s.frames.size (.error t.errors.size)).emit
        ("read error: " ++ e.issue.message ++ "\n"))
  | evaluated {s t u z form r} :
      Run.readInput (lower 3 room) input (asking s) = .ok form t →
      Caught w (lower 2 room) form Store.globalFrame (holding t s.frames.size form) r u →
      Reply w room form (showing u t.frames.size r) r z → Turn s z

/-- Turns one after the other, each from the store that the one before it has left. -/
abbrev Turns : Store → Store → Prop := Relation.ReflTransGen (Turn w room input)

/-- The last turn: the read finds the end of the input. -/
inductive Farewell : Store → Store → Prop where
  | ended {s t e expr f} :
      Run.readInput (lower 3 room) input (asking s) = .error (.fault (.ofReadError e)) t →
      e.issue = .endOfInput → request.Spells expr →
      f = (Fault.ofReadError e).leave expr none w.traceLimit →
      Farewell s (((holding (t.keep f) s.frames.size (.error t.errors.size)).emit "\n").emit
        "Goodbye.\n")

/-- Where a turn begins, a form that is read comes to an end with a value or an error. Its evaluation
does not read the input and leaves the names of the dialogue alone. -/
def Evaluable (s : Store) : Prop :=
  ∀ form t, Run.readInput (lower 3 room) input (asking s) = .ok form t →
    ∃ r u, Caught w (lower 2 room) form Store.globalFrame (holding t s.frames.size form) r u ∧
      (∀ name ∈ names, u.global? name = t.global? name) ∧ u.inputs[input]? = t.inputs[input]?

/-- Where a turn begins, the read fails as reads do if at all, and what comes of a form has a text
to be shown with. The standard output takes these texts. -/
structure Legible (s : Store) : Prop where
  reads : ∀ i t, Run.readInput (lower 3 room) input (asking s) = .error i t →
    ∃ e, i = .fault (.ofReadError e) ∧ w.takes e.issue.message = true
  shows : ∀ form t r u, Run.readInput (lower 3 room) input (asking s) = .ok form t →
    Caught w (lower 2 room) form Store.globalFrame (holding t s.frames.size form) r u →
    ∃ z, Reply w room form (showing u t.frames.size r) r z

end Turns

section Code

variable {k : Nat} {w : World} {room : Option Nat} {input : Nat} {s : Store} {frame : FrameId}
  {form r : Value} (plain : w.WritesPlain)

theorem join_singleton (text : String) : String.join [text] = text := by
  simp [String.join]

theorem join_pair (first second : String) : String.join [first, second] = first ++ second := by
  simp [String.join]

theorem yields_leftForm (scope : Scope s frame [("result", r), ("form", form)])
    (ready : Ready s input) (fits : Fits (k + 6) room) (left : Bool)
    (error : ∀ ref, r = .error ref →
      ∃ f, s.errors[ref]? = some f ∧ (f.source.getD .nil).isNil = !left)
    (other : Primitive.isErrorValue r = false → left = false) {Q : Value → Store → Prop}
    (holds : Q (.ofBool left) s) :
    Yields w room (list [symbol "and", list [symbol "error?", symbol "result"],
      list [symbol "not", list [symbol "null?", list [symbol "error-source", symbol "result"]]]])
      frame s Q := by
  refine .conj fits ?_
  refine .named scope (ready.primitives .isError (by decide)) fits.lower rfl ?_
  refine .variable scope fits.lower.lower rfl ?_
  refine ⟨rfl, _, s, fun m again _ _ => Primitive.run_isError m again frame s r, ?_⟩
  rw [isTruthy_ofBool]
  cases isError : Primitive.isErrorValue r with
  | false =>
    rw [other isError] at holds
    exact holds
  | true =>
    obtain ⟨ref, rfl⟩ : ∃ ref, r = .error ref := by
      cases r <;> first | exact ⟨_, rfl⟩ | cases isError
    obtain ⟨f, held, source⟩ := error ref rfl
    rw [if_pos rfl]
    refine .named scope (ready.primitives .not (by decide)) fits rfl ?_
    refine .named scope (ready.primitives .isNull (by decide)) fits.lower rfl ?_
    refine .named scope (ready.primitives .errorSource (by decide)) fits.lower.lower rfl ?_
    refine .variable scope fits.lower.lower.lower rfl ?_
    refine ⟨rfl, _, s, fun m again _ _ => Primitive.run_errorSource m again frame s held, ?_⟩
    refine ⟨rfl, _, s, fun m again _ _ => Primitive.run_isNull m again frame s _, ?_⟩
    refine ⟨rfl, _, s, fun m again _ _ => Primitive.run_not m again frame s _, ?_⟩
    rw [isTruthy_ofBool, source, Bool.not_not]
    exact holds

section Shown

variable (scope : Scope s frame [("result", r), ("form", form)]) (ready : Ready s input)

include plain scope ready

theorem yields_resultLine (fits : Fits (k + 4) room) {text : String}
    (written : s.readable (lower 2 room) r = .ok text) (taken : w.takes text = true) :
    Yields w room resultLine frame s fun _ t => t = s.emit (text ++ "\n") := by
  refine .named scope (ready.primitives .printLine (by decide)) fits rfl ?_
  refine .named scope (ready.primitives .repr (by decide)) fits.lower rfl ?_
  refine .variable scope fits.lower.lower rfl ⟨rfl, .atom (.string text), s, ?_, ?_⟩
  · rw [← lower_lower 1 1 room] at written
    exact fun m again _ same => Primitive.run_repr m again frame s (same ▸ written)
  refine ⟨rfl, .nil, s.emit (text ++ "\n"), ?_, rfl⟩
  rintro m again rfl -
  have printed := Primitive.run_printLine m again frame s plain [text]
  rw [join_singleton] at printed
  exact printed taken

theorem yields_diagnostic (fits : Fits (k + 5) room) {line report : String}
    (written : s.readable (lower 3 room) form = .ok line) (lineTaken : w.takes line = true)
    {ref : Nat} {f : Fault} (isError : r = .error ref) (held : s.errors[ref]? = some f)
    (reported : (s.emit ("uncaught error while evaluating " ++ line ++ "\n")).report (lower 1 room)
      f = .ok report) (reportTaken : w.takes report = true) :
    Yields w room diagnostic frame s fun _ t =>
      t = (s.emit ("uncaught error while evaluating " ++ line ++ "\n")).emit (report ++ "\n") := by
  subst isError
  refine .sequence fits ?_
  refine .named scope (ready.primitives .printLine (by decide)) fits.lower rfl ?_
  refine .string fits.lower.lower ?_
  refine .named scope (ready.primitives .repr (by decide)) fits.lower.lower rfl ?_
  refine .variable scope fits.lower.lower.lower rfl ⟨rfl, .atom (.string line), s, ?_, ?_⟩
  · rw [← lower_lower 1 2 room, ← lower_lower 1 1 room] at written
    exact fun m again _ same => Primitive.run_repr m again frame s (same ▸ written)
  refine ⟨rfl, .nil, s.emit ("uncaught error while evaluating " ++ line ++ "\n"), ?_, ?_⟩
  · rintro m again rfl -
    have printed := Primitive.run_printLine m again frame s plain
      ["uncaught error while evaluating ", line]
    rw [join_pair, World.takes_append, plain.takes rfl, Bool.true_and] at printed
    exact printed lineTaken
  refine .named (scope.emit _) ((ready.emit _).primitives .dumpTraceback (by decide)) fits rfl ?_
  refine .variable (scope.emit _) fits.lower rfl ⟨rfl, .nil, _, ?_, rfl⟩
  rintro m again rfl same
  exact Primitive.run_dumpTraceback m again frame (s.emit _) held plain (same ▸ reported)
    reportTaken

theorem yields_reply (fits : Fits (k + 8) room) {z : Store} (shown : Reply w room form s r z) :
    Yields w (lower 1 room) reply frame s fun _ t => t = z := by
  have second : lower 1 (lower 1 room) = lower 2 room := lower_lower 1 1 room
  have third : lower 2 (lower 1 room) = lower 3 room := lower_lower 2 1 room
  have fourth : lower 3 (lower 1 room) = lower 4 room := lower_lower 3 1 room
  refine .cond fits.lower ?_
  cases shown with
  | @result _ text noForm written taken =>
    refine yields_leftForm scope ready fits.lower.lower false ?_ (fun _ => rfl) ?_
    · rintro ref rfl
      obtain ⟨f, held⟩ := Store.exists_of_readable written
      exact ⟨f, held, noForm ref f rfl held⟩
    rw [isTruthy_ofBool, if_neg (by simp)]
    exact yields_resultLine plain scope ready fits.lower (third ▸ written) taken
  | @diagnostic ref f line report t held source written lineTaken same reported reportTaken =>
    refine yields_leftForm scope ready fits.lower.lower true ?_ ?_ ?_
    · rintro _ ⟨⟩
      exact ⟨f, held, source⟩
    · rintro ⟨⟩
    rw [isTruthy_ofBool, if_pos rfl]
    subst same
    exact yields_diagnostic plain scope ready fits.lower (fourth ▸ written) lineTaken rfl held
      (second ▸ reported) reportTaken

end Shown

include plain in
theorem yields_farewell (scope : Scope s frame [("form", form)]) (ready : Ready s input)
    (fits : Fits (k + 4) room) :
    Yields w room farewell frame s fun v t =>
      v = .symbol "goodbye" ∧ t = (s.emit "\n").emit "Goodbye.\n" := by
  refine .sequence fits ?_
  refine .named scope (ready.primitives .printLine (by decide)) fits.lower rfl ?_
  refine ⟨rfl, .nil, s.emit "\n", ?_, ?_⟩
  · rintro m again rfl -
    exact Primitive.run_printLine m again frame s plain [] (plain.takes rfl)
  have named := (ready.emit "\n").primitives .printLine (by decide)
  refine .named (scope.emit "\n") named fits.lower rfl (.string fits.lower.lower ?_)
  refine ⟨rfl, .nil, (s.emit "\n").emit "Goodbye.\n", ?_, ?_⟩
  · rintro m again rfl -
    exact Primitive.run_printLine m again frame (s.emit "\n") plain ["Goodbye."]
      (plain.takes rfl)
  · exact Yields.quote fits ⟨rfl, rfl⟩

section Error

variable {ref : Nat} {f : Fault} (scope : Scope s frame [("form", .error ref)])
  (ready : Ready s input) (fits : Fits (k + 6) room) (held : s.errors[ref]? = some f)
  {Q : Value → Store → Prop}

include scope ready fits held

include plain in
theorem yields_complaint {message : String} (value : f.value = some (.string message))
    (taken : w.takes message = true)
    (rest : Yields w room again frame (s.emit ("read error: " ++ message ++ "\n")) Q) :
    Yields w room complaint frame s Q := by
  refine .sequence fits ?_
  refine .named scope (ready.primitives .printLine (by decide)) fits.lower rfl ?_
  refine .string fits.lower.lower ?_
  refine .named scope (ready.primitives .errorValue (by decide)) fits.lower.lower rfl ?_
  refine .variable scope fits.lower.lower.lower rfl ?_
  refine ⟨rfl, .atom (.string message), s, fun m again _ _ => ?_, ?_⟩
  · rw [Primitive.run_errorValue m again frame s held, value]
    rfl
  refine ⟨rfl, .nil, _, ?_, rest⟩
  rintro m again rfl -
  have printed := Primitive.run_printLine m again frame s plain
    ["read error: ", message]
  rw [join_pair, World.takes_append, plain.takes rfl, Bool.true_and] at printed
  exact printed taken

theorem yields_response_of_error
    (rest : Yields w room (if f.kind = Fault.Kind.endOfInput then farewell else complaint) frame s
      Q) : Yields w room response frame s Q := by
  change Yields w room (if f.kind = "eof" then farewell else complaint) frame s Q at rest
  refine .cond fits ?_
  refine .named scope (ready.primitives .isError (by decide)) fits.lower rfl ?_
  refine .variable scope fits.lower.lower rfl ?_
  have isError : Primitive.isErrorValue (.error ref) = true := rfl
  refine ⟨rfl, _, s, fun m again _ _ => Primitive.run_isError m again frame s _, ?_⟩
  rw [isTruthy_ofBool, if_pos isError]
  refine .cond fits ?_
  refine .named scope (ready.primitives .same (by decide)) fits.lower rfl ?_
  refine .named scope (ready.primitives .errorType (by decide)) fits.lower.lower rfl ?_
  refine .variable scope fits.lower.lower.lower rfl ?_
  refine ⟨rfl, _, s, fun m again _ _ => Primitive.run_errorType m again frame s held, ?_⟩
  refine Yields.quote fits.lower.lower ?_
  refine ⟨rfl, _, s, fun m again _ _ => Primitive.run_same m again frame s _ _, ?_⟩
  have same : (Value.symbol f.kind).isSame (.symbol "eof") = decide (f.kind = "eof") := by
    rw [Bool.eq_iff_iff]
    simp [Value.isSame, Atom.sameAs]
  rw [isTruthy_ofBool, same]
  by_cases ended : f.kind = "eof"
  · rw [if_pos ended] at rest
    simpa [ended] using rest
  · rw [if_neg ended] at rest
    simpa [ended] using rest

end Error

include plain in
/-- The call of `repl`: the prompt is written, and what comes of the read is responded to. -/
theorem yields_again {bindings : List (String × Value)} (scope : Scope s frame bindings)
    (free : bindings.lookup "repl" = none) (ready : Ready s input) (fits : Fits (k + 8) room)
    {Q : Value → Store → Prop}
    (next : ∀ expr, request.Spells expr → ∃ v t,
      Caught w (lower 2 room) expr s.frames.size (asking s) v t ∧
      Yields w room response t.frames.size (holding t s.frames.size v) Q) :
    Yields w room again frame s Q := by
  obtain ⟨ref, c, bound, held, isMatch⟩ := ready.loop
  obtain ⟨owner, found⟩ := scope.find?_of_free _ free bound
  refine .call fits rfl found ⟨ref, _, rfl, held, rfl⟩ ?_
  refine YieldsCall.closureTo fits held isMatch List.nodup_nil rfl ?_
  have enters := Enters.pushFrame s ready.globalFrame_lt []
  have scope := enters.scopeGlobal
  have ready := ready.allocates enters.allocates
  refine .sequence fits ?_
  refine .named scope (ready.primitives .print (by decide)) fits.lower rfl ?_
  refine .string fits.lower.lower ⟨rfl, .nil, asking s, ?_, ?_⟩
  · rintro m again rfl -
    have printed := Primitive.run_print m again s.frames.size
      (s.pushFrame ⟨some Store.globalFrame, []⟩) [prompt]
    rw [join_singleton] at printed
    exact printed (plain.takes rfl)
  refine Yields.bindingTo fits (.catchError fits.lower fun expr spelled => ?_)
  rw [lower_lower]
  exact next expr spelled

end Code

/-- The store holds the dialogue, and from the frame one meets the bindings, whatever is called
meanwhile. -/
structure Stands (h : Hidden) (s : Store) (frame : FrameId) (bindings : List (String × Value))
    (input : Nat) : Prop where
  lawful : h.Lawful s
  shields : h.Shields s frame bindings
  inside : frame < s.frames.size
  ready : Ready s input

namespace Stands

variable {h : Hidden} {s t : Store} {frame : FrameId} {bindings : List (String × Value)}
  {input : Nat}

theorem global (lawful : h.Lawful s) (ready : Ready s input) :
    Stands h s Store.globalFrame [] input :=
  ⟨lawful, .global h s, ready.globalFrame_lt, ready⟩

variable (stands : Stands h s frame bindings input)

include stands

theorem enters {i : FrameId} {new : List (String × Value)} (entered : Enters s frame new i t) :
    Stands (h.hide s t) t i (new ++ bindings) input :=
  ⟨stands.lawful.hide entered.allocates, stands.shields.enters entered, entered.inside,
    stands.ready.allocates entered.allocates⟩

theorem later (later : h.Later s t) (same : ∀ name ∈ names, t.global? name = s.global? name) :
    Stands h t frame bindings input :=
  ⟨later.lawful, stands.shields.onward later.onward,
    Nat.lt_of_lt_of_le stands.inside later.wider.frames,
    stands.ready.kept same later.grows.procedures⟩

theorem emit (text : String) : Stands h (s.emit text) frame bindings input :=
  stands.later (stands.lawful.emit text) fun _ _ => rfl

theorem reply {w : World} {room : Option Nat} {form r : Value} (shown : Reply w room form s r t) :
    Stands h t frame bindings input := by
  cases shown with
  | result => exact stands.emit _
  | diagnostic held source written lineTaken same => exact (same ▸ stands.emit _).emit _

theorem called : Stands (h.hide s (s.pushFrame ⟨some Store.globalFrame, []⟩)) (asking s)
    s.frames.size [] input := by
  have present := stands.ready.globalFrame_lt
  have entered := (Stands.global stands.lawful stands.ready).enters (.pushFrame s present [])
  exact entered.emit prompt

theorem after_read (room : Option Nat) :
    Stands h (after (Run.readInput room input s)) frame bindings input := by
  refine stands.later ((Hidden.Safe.readInput room input).later stands.lawful.refl) ?_
  intro name _
  have frames := congrArg Store.frames (after_readInput room input s)
  exact congrArg (fun frames : Array Frame => frames[Store.globalFrame]?.bind (·.get? name)) frames

theorem read {room : Option Nat} {form : Value} (read : Run.readInput room input s = .ok form t) :
    Stands h t frame bindings input := by
  have after := stands.after_read room
  rwa [read] at after

theorem unread {room : Option Nat} {f : Fault}
    (unread : Run.readInput room input s = .error (.fault f) t) :
    Stands h t frame bindings input ∧ h.AdmitsFault f t := by
  have after := stands.after_read room
  have fine := (Hidden.Safe.readInput room input s stands.lawful.refl).2
  rw [unread] at after fine
  exact ⟨after, fine.2⟩

theorem keep {f : Fault} (known : h.AdmitsFault f s) : Stands h (s.keep f) frame bindings input :=
  stands.later (stands.lawful.pushError known) fun _ _ => rfl

theorem held (v : Value) : Stands (h.hide s (holding s frame v)) (holding s frame v)
    s.frames.size (("form", v) :: bindings) input :=
  stands.enters (.pushFrame s stands.inside [("form", v)])

theorem caught {w : World} {room : Option Nat} {form r : Value} {u : Store}
    (known : h.Admits form s) (caught : Caught w room form Store.globalFrame s r u)
    (same : ∀ name ∈ names, u.global? name = s.global? name) :
    Stands (h.hide u (showing u frame r)) (showing u frame r) u.frames.size
      (("result", r) :: bindings) input := by
  have stands := stands.later (stands.lawful.caught known stands.lawful.admitsGlobal caught) same
  have entered := Enters.pushFrame u stands.inside [("result", r)]
  have entered : Enters u frame [("result", r)] u.frames.size (showing u frame r) :=
    { entered with allocates := entered.allocates.trans (.mark _ 3) }
  exact stands.enters entered

end Stands

theorem Reply.inputs {w : World} {room : Option Nat} {form r : Value} {s t : Store}
    (shown : Reply w room form s r t) : t.inputs = s.inputs := by
  cases shown with
  | result => rfl
  | diagnostic held source written lineTaken same => exact same ▸ rfl

theorem isErrorValue_of_spells {d : Datum} {v : Value} (spelled : d.Spells v) :
    Primitive.isErrorValue v = false := by
  cases spelled <;> rfl

theorem kind_leave (f : Fault) (form : Value) (name : Option String) (limit : Int) :
    (f.leave form name limit).kind = f.kind := by
  unfold Fault.leave
  dsimp only
  split <;> rfl

theorem value_leave (f : Fault) (form : Value) (name : Option String) (limit : Int) :
    (f.leave form name limit).value = f.value := by
  unfold Fault.leave
  dsimp only
  split <;> rfl

section Turns

variable {k : Nat} {w : World} {room : Option Nat} {input : Nat} {h : Hidden} {s : Store}
  {frame : FrameId} {Q : Value → Store → Prop} (plain : w.WritesPlain)

include plain in
/-- What has been read is evaluated, what comes of it is shown, and the dialogue goes on. -/
theorem yields_response_of_form {form : Value} (stands : Stands h s frame [("form", form)] input)
    (fits : Fits (k + 8) room) (data : Primitive.isErrorValue form = false)
    (known : h.Admits form s) {r : Value} {u z : Store}
    (caught : Caught w (lower 2 room) form Store.globalFrame s r u)
    (same : ∀ name ∈ names, u.global? name = s.global? name)
    (shown : Reply w room form (showing u frame r) r z)
    (rest : ∀ h', Stands h' z u.frames.size [("result", r), ("form", form)] input →
      Yields w room again u.frames.size z Q) : Yields w room response frame s Q := by
  have ready := stands.ready
  have scope := stands.shields.scope
  refine .cond fits ?_
  refine .named scope (ready.primitives .isError (by decide)) fits.lower rfl ?_
  refine .variable scope fits.lower.lower rfl ?_
  refine ⟨rfl, _, s, fun m again _ _ => Primitive.run_isError m again frame s _, ?_⟩
  rw [isTruthy_ofBool, data, if_neg (by simp)]
  refine Yields.bindingBoth fits (.catchError fits.lower fun expr spelled => ?_)
  refine ⟨r, u, ?_, ?_⟩
  · rw [lower_lower]
    have fits := fits.lower.lower
    rw [lower_lower] at fits
    exact .eval scope stands.lawful stands.inside (ready.primitives .eval (by decide)) fits rfl rfl
      spelled caught
  · have stands := stands.caught known caught same
    refine (yields_reply plain stands.shields.scope stands.ready fits shown).mono ?_
    rintro _ _ rfl
    exact rest _ (stands.reply shown)

include plain in
/-- What could not be read is complained about, unless that was the end of the input. -/
theorem yields_response_of_readError {t : Store} {call : FrameId} (stands : Stands h t call [] input)
    (fits : Fits (k + 6) room) {e : ReadError} {f : Fault} (known : h.AdmitsFault f t)
    (kind : f.kind = (Fault.ofReadError e).kind) (value : f.value = some (.string e.issue.message))
    (taken : w.takes e.issue.message = true)
    (ended : e.issue = .endOfInput → Q (.symbol "goodbye")
      (((holding (t.keep f) call (.error t.errors.size)).emit "\n").emit "Goodbye.\n"))
    (goesOn : e.issue ≠ .endOfInput → ∀ h' z, z = (holding (t.keep f) call
        (.error t.errors.size)).emit ("read error: " ++ e.issue.message ++ "\n") →
      Stands h' z t.frames.size [("form", .error t.errors.size)] input →
      Yields w room again t.frames.size z Q) :
    Yields w room response t.frames.size (holding (t.keep f) call (.error t.errors.size)) Q := by
  have held := (stands.keep known).held (.error t.errors.size)
  have scope := held.shields.scope
  have found : (holding (t.keep f) call (.error t.errors.size)).errors[t.errors.size]? = some f :=
    Array.getElem?_push_size
  refine yields_response_of_error scope held.ready fits found ?_
  by_cases isEnd : e.issue = .endOfInput
  · rw [if_pos (kind.trans ((kind_ofReadError e).mpr isEnd))]
    refine (yields_farewell plain scope held.ready fits).mono ?_
    rintro _ _ ⟨rfl, rfl⟩
    exact ended isEnd
  · rw [if_neg fun eof => isEnd ((kind_ofReadError e).mp (kind.symm.trans eof))]
    refine yields_complaint plain scope held.ready fits found value taken ?_
    exact goesOn isEnd _ _ rfl (held.emit _)

/-- What is caught of the request is what has been read, or the error of the read. -/
theorem caught_request {bindings : List (String × Value)}
    (stands : Stands h s frame bindings input) (fits : Fits (k + 5) room) {expr : Value}
    (spelled : request.Spells expr) (w : World) :
    (∀ form t, Run.readInput (lower 3 room) input (asking s) = .ok form t →
      Caught w (lower 2 room) expr s.frames.size (asking s) form t) ∧
    ∀ f t, Run.readInput (lower 3 room) input (asking s) = .error (.fault f) t →
      Caught w (lower 2 room) expr s.frames.size (asking s) (.error t.errors.size)
        (t.keep (f.leave expr none w.traceLimit)) := by
  have asked := stands.called
  have scope := asked.shields.scope
  have named := asked.ready.primitives .read (by decide)
  have bound := asked.ready.input
  have fits := fits.lower.lower
  rw [lower_lower] at fits
  have third : lower 1 (lower 2 room) = lower 3 room := lower_lower 1 2 room
  rw [← third]
  exact ⟨fun form t read => .value (endsIn_read scope named fits rfl bound rfl spelled w read),
    fun f t read => .fault (endsIn_read_fault scope named fits rfl bound rfl spelled w read)⟩

include plain in
theorem yields_turn {bindings : List (String × Value)} (stands : Stands h s frame bindings input)
    (free : bindings.lookup "repl" = none) (fits : Fits (k + 8) room)
    (evaluable : Evaluable w room input s) (legible : Legible w room input s)
    (turn : ∀ h' z frame' bindings', Turn w room input s z → Shrinks input s z →
      Stands h' z frame' bindings' input → bindings'.lookup "repl" = none →
      Yields w room again frame' z Q)
    (ended : ∀ z, Farewell w room input s z → Q (.symbol "goodbye") z) :
    Yields w room again frame s Q := by
  refine yields_again plain stands.shields.scope free stands.ready fits fun expr spelled => ?_
  cases read : Run.readInput (lower 3 room) input (asking s) with
  | ok form t =>
    have after := stands.called.read read
    obtain ⟨r, u, caught, same, untouched⟩ := evaluable form t read
    obtain ⟨z, shown⟩ := legible.shows form t r u read caught
    obtain ⟨⟨p, q, before, left, less⟩, d, mark, rfl⟩ := shrinks_of_ok read
    have data := Datum.spells_ofDatum d mark
    have shrinks : Shrinks input s z :=
      ⟨p, q, before, by rw [shown.inputs]; exact untouched.trans left, less⟩
    have kept (name : String) (member : name ∈ names) := (same name member).trans
      (global?_of_allocates after.ready.globalFrame_lt
        (.pushFrame t after.inside [("form", (Value.ofDatum mark d).1)]) name).symm
    refine ⟨_, t, (caught_request stands fits spelled w).1 _ t read, ?_⟩
    refine yields_response_of_form plain (after.held _) fits (isErrorValue_of_spells data)
      (Hidden.admits_of_spells data) caught kept shown fun h' next => ?_
    exact turn h' z _ _ (.evaluated read caught shown) shrinks next rfl
  | error i t =>
    obtain ⟨e, rfl, taken⟩ := legible.reads i t read
    obtain ⟨after, known⟩ := stands.called.unread read
    have known := known.leave (Hidden.admits_of_spells spelled) none w.traceLimit
    refine ⟨_, _, (caught_request stands fits spelled w).2 _ t read, ?_⟩
    refine yields_response_of_readError plain after fits known (kind_leave _ _ _ _)
      (value_leave _ _ _ _) taken (fun isEnd => ended _ (.ended read isEnd spelled rfl)) ?_
    rintro goesOn h' _ rfl next
    obtain ⟨p, q, before, left, less⟩ := shrinks_of_error goesOn read
    exact turn h' _ _ _ (.unread read goesOn spelled rfl) ⟨p, q, before, left, less⟩ next rfl

def Over (w : World) (room : Option Nat) (input : Nat) (s : Store) (v : Value) (z : Store) : Prop :=
  v = .symbol "goodbye" ∧
    ∃ t, Turns w room input s t ∧ Farewell w room input t z

include plain in
/-- By induction on what is left of the input, of which every turn takes some. -/
theorem yields_dialogue {bindings : List (String × Value)} (fits : Fits (k + 8) room)
    (stands : Stands h s frame bindings input) (free : bindings.lookup "repl" = none)
    (evaluable : ∀ t, Turns w room input s t → Evaluable w room input t)
    (legible : ∀ t, Turns w room input s t → Legible w room input t) :
    Yields w room again frame s (Over w room input s) := by
  induction s using (wellFounded_shrinks input).induction generalizing h frame bindings with
  | _ s ih =>
    refine yields_turn plain stands free fits (evaluable s .refl) (legible s .refl) ?_ ?_
    · intro h' z frame' bindings' turned shrinks stands free
      have further := ih z shrinks stands free (fun t turns => evaluable t (turns.head turned))
        fun t turns => legible t (turns.head turned)
      refine further.mono ?_
      rintro v u ⟨rfl, t, turns, ended⟩
      exact ⟨rfl, t, turns.head turned, ended⟩
    · exact fun z ended => ⟨rfl, s, .refl, ended⟩

end Turns

end Dialogue

end LazyLisp
