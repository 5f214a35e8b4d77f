import LazyLisp.Store

/-!
Values as text.

Readable text is what the reader takes back; plain text is what `print` shows. Printing never forces
a lazy pair: a half that is still pending is shown as delayed.

The walk follows the value itself. Where it meets a reference into the store it hops. A path that
hops on one level of nesting more often than the store has objects to hop to comes back to one of
them, and goes on like this until the limit for nesting stops it, or without end.
-/

namespace LazyLisp

inductive WriteFailure where
  | tooDeep
  | tooManyDigits
  | endless
  deriving Repr, DecidableEq

def descend : Option Nat → Option (Option Nat)
  | none => some none
  | some 0 => none
  | some (n + 1) => some (some n)

namespace Store

abbrev Written := Except WriteFailure String

/-- Write a value. `soFar` is none for a value by itself, and the text of the items passed for the
rest of a list. -/
abbrev Writer := (readable : Bool) → (room : Option Nat) → (soFar : Option String) → Value → Written

def delayed : String := "#<delayed>"

def quotationMark? : String → Option String
  | "quote" => some "'"
  | "quasiquote" => some "`"
  | "unquote" => some ","
  | "unquote-splicing" => some ",@"
  | _ => none

/-- The abbreviation for a list of the given halves: its first item names a quotation, and one more
item follows in an eager pair. -/
def abbreviation? : Value → Value → Option String
  | .symbol name, .pair _ _ .nil => quotationMark? name
  | _, _ => none

def writeAtom (readable : Bool) (a : Atom) : Written :=
  if a.hasText then .ok (a.write readable) else .error .tooManyDigits

/-- The text of a value that is no pair, given its own text and the items in front of it. -/
def closeList (soFar : Option String) (text : String) : String :=
  match soFar with
  | none => text
  | some items => items ++ " . " ++ text ++ ")"

def addItem (soFar : Option String) (text : String) : String :=
  match soFar with
  | none => "(" ++ text
  | some items => items ++ " " ++ text

/-- The abbreviation of a lazy pair, and what it stands in front of. -/
def quotation? (p : LazyPair) : Option (String × Value) :=
  match p.car, p.cdr with
  | .ready head, .ready (.pair mark item tail) =>
    (abbreviation? head (.pair mark item tail)).map (·, item)
  | _, _ => none

/-- Write the first half of a lazy pair by a hop. -/
def writeHead (hop : Writer) (readable : Bool) (room : Option Nat) : Slot → Written
  | .ready v => hop readable room none v
  | .pending _ _ => .ok delayed

/-- Write the second half of a lazy pair by a hop, behind the items so far. -/
def writeTail (hop : Writer) (readable : Bool) (room : Option Nat) (items : String) :
    Slot → Written
  | .ready v => hop readable room (some items) v
  | .pending _ _ => .ok (closeList (some items) delayed)

def writeLazy (hop : Writer) (readable : Bool) (room : Option Nat) (soFar : Option String)
    (p : LazyPair) : Written :=
  match soFar, quotation? p with
  | none, some (mark, item) => (mark ++ ·) <$> hop readable room none item
  | soFar, _ => do
    let item ← writeHead hop readable room p.car
    writeTail hop readable room (addItem soFar item) p.cdr

/-- Write a value, with `hop` for what the store holds. -/
def writeWith (s : Store) (hop : Writer) (readable : Bool) (room : Option Nat) :
    (soFar : Option String) → Value → Written
  | soFar, .pair _ car cdr =>
    match soFar with
    | some _ => do
      let item ← writeWith s hop readable room none car
      writeWith s hop readable room (some (addItem soFar item)) cdr
    | none =>
      match descend room with
      | none => .error .tooDeep
      | some room =>
        match abbreviation? car cdr, cdr with
        | some mark, .pair _ item _ => (mark ++ ·) <$> writeWith s hop readable room none item
        | _, cdr => do
          let item ← writeWith s hop readable room none car
          writeWith s hop readable room (some (addItem none item)) cdr
  | some items, .nil => .ok (items ++ ")")
  | soFar, .atom a => closeList soFar <$> writeAtom readable a
  | soFar, .nan _ => .ok (closeList soFar "nan")
  | soFar, .lazyPair ref =>
    match s.lazyPairs[ref]?, (if soFar.isNone then descend room else some room) with
    | some p, some room => writeLazy hop readable room soFar p
    | _, _ => .error .tooDeep
  | soFar, .procedure ref =>
    .ok (closeList soFar ((s.procedures[ref]?.map Procedure.text).getD "#<procedure>"))
  | soFar, .input ref =>
    .ok (closeList soFar ((s.inputs[ref]?.map Input.text).getD "#<input-port>"))
  | soFar, .error ref =>
    match s.errors[ref]?, descend room with
    | some f, some room => do
      let payload ← match f.value with
        | some v => hop true room none v
        | none => .ok "#<void>"
      return closeList soFar ("#<error " ++ f.kind ++ ": " ++ payload ++ ">")
    | _, _ => .error .tooDeep

/-- Write a value with at most that many hops on each path. -/
def writeWithin (s : Store) : (hops : Nat) → Writer
  | 0 => fun _ _ _ _ => .error .endless
  | hops + 1 => s.writeWith (s.writeWithin hops)

/-- Enough hops for a path that does not come back to where it was: on each level, one for every
object that the store holds. -/
def enoughHops (s : Store) (room : Option Nat) : Nat :=
  (room.getD 0 + 1) * (s.lazyPairs.size + s.errors.size) + 1

def write (s : Store) (room : Option Nat) (readable : Bool) (v : Value) : Written :=
  s.writeWithin (s.enoughHops room) readable room none v

def readable (s : Store) (room : Option Nat) (v : Value) : Written := s.write room true v

def plain (s : Store) (room : Option Nat) (v : Value) : Written := s.write room false v

def inMessage (s : Store) (halves : Text.Halves) (room : Option Nat) : Value → Written
  | .atom a => if a.hasText then .ok (a.inMessage halves) else .error .tooManyDigits
  | v => s.readable room v

/-- What a fault of this kind and value says in one line. -/
def summary (s : Store) (room : Option Nat) (kind : String) : Option Value → Written
  | none => .ok (kind ++ ": None")
  | some (.atom a) => (kind ++ ": " ++ ·) <$> writeAtom false a
  | some (.error ref) => .ok (kind ++ ": " ++ ((s.errors[ref]?.map Fault.summary).getD ""))
  | some v => (kind ++ ": " ++ ·) <$> s.readable room v

/-- The bindings of a frame in their order, and whether another frame stands around it. -/
def frameText (s : Store) (halves : Text.Halves) (room : Option Nat) (f : Frame) : Written := do
  let bindings ← f.bindings.mapM fun (name, v) =>
    return name ++ ": " ++ (← s.inMessage halves room v)
  let outer := if f.outer.isSome then " -> ..." else ""
  return "\x7b" ++ ", ".intercalate bindings ++ "\x7d" ++ outer

/-- A frame in one line: how much it binds and how many frames stand around it. -/
def frameSummary (s : Store) (i : FrameId) : String :=
  let count := (s.frames[i]?.map (·.bindings.length)).getD 0
  "<Environment " ++ toString count ++ " bindings, depth " ++ toString (Frame.depth s.frames i) ++
    ">"

def readableDatum (room : Option Nat) (d : Datum) : Written :=
  empty.readable room (Value.ofDatum 0 d).1

def plainDatum (room : Option Nat) (d : Datum) : Written :=
  empty.plain room (Value.ofDatum 0 d).1

end Store

end LazyLisp
