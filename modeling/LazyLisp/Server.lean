import LazyLisp.Json.Parser
import LazyLisp.Session

/-!
The evaluation service: requests and answers are JSON objects, one a line, and all requests share
one session.
-/

namespace LazyLisp

inductive Response where
  /-- The readable text of a value. -/
  | result (text : String)
  | fault (kind message report : String)
  /-- The request makes no sense. -/
  | refused (message : String)

namespace Response

def toJson : Response → Json
  | result text => .object [("ok", .bool true), ("result", .string text)]
  | fault kind message report =>
    .object [("ok", .bool false), ("error", .string kind), ("message", .string message),
      ("traceback", .string report)]
  | refused message =>
    .object [("ok", .bool false), ("error", .string "bad-request"), ("message", .string message)]

end Response

namespace Server

/-- Evaluate a text and answer with the value of its last form or with the fault. -/
def eval (w : World) (fuel : Nat) (code : String) : Run Response :=
  Run.catchFault
    (do
      let v ← Session.eval w fuel code
      return .result (← Run.ofWritten ((← get).readable w.room v)))
    fun f => do
      let s ← get
      Run.ofWritten (do return .fault f.kind (← s.faultText w.room f) (← s.report w.room f))

/-- Answer a request: the only command is to evaluate. -/
def answer (w : World) (fuel : Nat) (request : Json) : Run Response :=
  match request.field? "cmd" with
  | some (.string "eval") =>
    match request.field? "code" with
    | none => eval w fuel ""
    | some (.string code) => eval w fuel code
    | some _ => throw (.breakdown .codeNotText)
  | command => return .refused ("Unknown cmd: " ++ (command.getD .null).describe w.halves)

def answerLine (w : World) (fuel : Nat) (line : List UInt8) : Run Response :=
  match Text.decode line with
  | .error e => return .refused ("Invalid request: " ++ e.message)
  | .ok text =>
    match Json.parse w.halves w.room text with
    | .error (.issue issue pos) => return .refused ("Invalid request: " ++ issue.message text pos)
    | .error .tooManyDigits => throw (.breakdown .tooManyDigits)
    | .error .nestedTooDeep => throw .overflow
    | .ok (.object fields) => answer w fuel (.object fields)
    | .ok _ => return .refused "Request must be a JSON object"

def isBlankByte (b : UInt8) : Bool := b == 0x20 || (0x09 ≤ b && b ≤ 0x0D)

def trimBytes (bytes : List UInt8) : List UInt8 :=
  ((bytes.dropWhile isBlankByte).reverse.dropWhile isBlankByte).reverse

/-- Cut bytes after every newline: the lines that have ended, without the newlines, and what follows
the last of them. `soFar` is the current line in reverse. -/
def cutLinesFrom (soFar : List UInt8) : List UInt8 → List (List UInt8) × List UInt8
  | [] => ([], soFar.reverse)
  | b :: rest =>
    if b == 0x0A then
      let (lines, last) := cutLinesFrom [] rest
      (soFar.reverse :: lines, last)
    else cutLinesFrom (b :: soFar) rest

def cutLines (bytes : List UInt8) : List (List UInt8) × List UInt8 := cutLinesFrom [] bytes

/-- What a connection has been sent, the interruption that stopped it, if any, and the store that is
left. -/
structure Served where
  sent : List String
  ending : Option Interrupt
  store : Store

def Served.after (texts : List String) (r : Served) : Served := { r with sent := texts ++ r.sent }

/-- Answer lines in order up to the first interruption. Blank lines have no answer. -/
def answerLines (w : World) (fuel : Nat) : List (List UInt8) → Store → Served
  | [], s => ⟨[], none, s⟩
  | line :: rest, s =>
    if (trimBytes line).isEmpty then answerLines w fuel rest s
    else match answerLine w fuel (trimBytes line) s with
      | .error e s => ⟨[], some e, s⟩
      | .ok response s =>
        (answerLines w fuel rest s).after [response.toJson.render w.halves ++ "\n"]

/-- Serve a connection that delivers chunk after chunk; `buffer` holds the beginning of a line. An
empty chunk ends the stream, and a line that has not ended by then is dropped. -/
def serveFrom (w : World) (fuel : Nat) (buffer : List UInt8) :
    List (List UInt8) → Store → Served
  | [], s => ⟨[], none, s⟩
  | chunk :: rest, s =>
    if chunk.isEmpty then ⟨[], none, s⟩
    else
      let (lines, buffer) := cutLines (buffer ++ chunk)
      let served := answerLines w fuel lines s
      match served.ending with
      | some _ => served
      | none => (serveFrom w fuel buffer rest served.store).after served.sent

def serve (w : World) (fuel : Nat) (chunks : List (List UInt8)) (s : Store) : Served :=
  serveFrom w fuel [] chunks s

end Server

end LazyLisp
