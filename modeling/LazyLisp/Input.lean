import LazyLisp.Datum.Parser

/-!
Inputs. An input reads one form at a time from lines of text and takes a further line only while
the text at hand holds no form or only the beginning of one. A read that fails drops the text at
hand, so that the next one starts afresh.
-/

namespace LazyLisp

structure Input where
  name : String
  /-- Text taken from the lines and not yet consumed. -/
  buffer : List Char
  /-- Lines not yet taken. -/
  pending : List (List Char)
  /-- Whether a line was asked for after the last one. -/
  exhausted : Bool

namespace Input

def ofLines (name : String) (lines : List (List Char)) : Input := ⟨name, [], lines, false⟩

def ofText (name : String) (text : List Char) : Input := ofLines name (Text.splitLines text)

def text (p : Input) : String := "#<input-port " ++ p.name ++ ">"

/-- The first form of a text, with the number of characters it takes. -/
def firstForm (limit : Option Nat) (buffer : List Char) : Except ReadFailure (Datum × Nat) :=
  let lexed := lex buffer
  let check (stop : Nat) (result : Except ReadFailure (Datum × Nat)) :=
    if lexed.exceeds limit stop then .error (.breakdown .nestedTooDeep) else result
  if lexed.tokens.isEmpty && lexed.failure.isNone then
    .error (.error ⟨.endOfInput, buffer.length⟩)
  else match parseForm lexed with
    | .form d stop => check stop (.ok (d, stop))
    | .failed failure stop => check stop (.error failure)

/-- Leave an input after a read that takes no further line. -/
def finish (p : Input) (buffer : List Char) (pending : List (List Char)) :
    Except ReadFailure (Datum × Nat) → Except ReadFailure Datum × Input
  | .ok (d, stop) => (.ok d, { p with buffer := buffer.drop stop, pending })
  | .error (.error e) =>
    (.error (.error e),
      { p with buffer := [], pending, exhausted := p.exhausted || e.issue.wantsMore })
  | .error (.breakdown b) => (.error (.breakdown b), { p with buffer, pending })

/-- Whether a further line may change an outcome. -/
def wantsMore : Except ReadFailure (Datum × Nat) → Bool
  | .ok _ => false
  | .error failure => failure.wantsMore

/-- Read a form, given the text at hand and the lines left. -/
def readFrom (limit : Option Nat) (p : Input) (buffer : List Char) :
    List (List Char) → Except ReadFailure Datum × Input
  | [] => p.finish buffer [] (firstForm limit buffer)
  | line :: rest =>
    let outcome := firstForm limit buffer
    if wantsMore outcome then readFrom limit p (buffer ++ line) rest
    else p.finish buffer (line :: rest) outcome

def read (limit : Option Nat) (p : Input) : Except ReadFailure Datum × Input :=
  readFrom limit p p.buffer p.pending

/-- The number of characters that an input still holds. -/
def size (p : Input) : Nat := p.buffer.length + p.pending.flatten.length

/-- Read form after form, at most `fuel` of them. -/
def formsWithin (limit : Option Nat) (done : Array Datum) :
    (fuel : Nat) → Input → List Datum × Option ReadFailure
  | 0, _ => (done.toList, none)
  | fuel + 1, p =>
    match p.read limit with
    | (.ok d, p) => formsWithin limit (done.push d) fuel p
    | (.error (.error ⟨.endOfInput, _⟩), _) => (done.toList, none)
    | (.error failure, _) => (done.toList, some failure)

/-- All forms that an input gives up to its end or to the first failure. Every form takes at least
one character, which bounds their number. -/
def forms (limit : Option Nat) (p : Input) : List Datum × Option ReadFailure :=
  formsWithin limit #[] (p.size + 1) p

end Input

end LazyLisp
