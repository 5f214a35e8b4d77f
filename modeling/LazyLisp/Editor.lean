import LazyLisp.Json
import LazyLisp.Outline

/-!
The service for editors: the documents that are open, each with its outline, and what an editor asks
about them. Every change of a document publishes what is wrong with it now.
-/

namespace LazyLisp

structure Document where
  text : List Char
  outline : Outline

/-- A stretch of characters on one line. -/
structure Span where
  start : Position
  width : Nat

def Span.stop (s : Span) : Position := { s.start with column := s.start.column + s.width }

structure Diagnostic where
  span : Span
  message : String

/-- The diagnostics that hold for a document from now on. -/
structure Publication where
  uri : String
  diagnostics : List Diagnostic

/-- What a name in a list of completions stands for. -/
inductive CompletionKind where
  | function
  | value

/-- The number of a kind among the completion kinds of the editor protocol. -/
def CompletionKind.code : CompletionKind → Nat
  | function => 3
  | value => 6

structure Completion where
  label : String
  kind : CompletionKind
  detail : Option String

structure DocumentSymbol where
  definition : Definition
  span : Span

structure Editor where
  documents : List (String × Document)

namespace Editor

def empty : Editor := ⟨[]⟩

/-- What the service offers: documents are sent as a whole, and completion is triggered by an
opening parenthesis. -/
def capabilities : Json :=
  .object [("textDocumentSync", .int 1), ("hoverProvider", .bool true),
    ("completionProvider", .object [("resolveProvider", .bool false),
      ("triggerCharacters", .array [.string "("])]),
    ("documentSymbolProvider", .bool true)]

def severity : Nat := 1

/-- The name under which diagnostics are published. -/
def source : String := "sloth-ls"

def find? (e : Editor) (uri : String) : Option Document := e.documents.lookup uri

def diagnosticsOf (o : Outline) : List Diagnostic :=
  o.problems.map fun p => ⟨⟨p.place, 1⟩, "read-error: " ++ p.message⟩

def update (limit : Option Nat) (e : Editor) (uri : String) (text : List Char) :
    Except Breakdown (Editor × List Publication) := do
  let outline ← Outline.ofText limit text
  let others := e.documents.filter (·.1 != uri)
  return (⟨(uri, ⟨text, outline⟩) :: others⟩, [⟨uri, diagnosticsOf outline⟩])

/-- A document changes to the last of the given texts; without any it stays as it is, and one that
is not open is empty. -/
def change (limit : Option Nat) (e : Editor) (uri : String) (texts : List (List Char)) :
    Except Breakdown (Editor × List Publication) :=
  let current := ((e.find? uri).map (·.text)).getD []
  e.update limit uri (texts.getLast?.getD current)

def close (e : Editor) (uri : String) : Editor × List Publication :=
  (⟨e.documents.filter (·.1 != uri)⟩, [⟨uri, []⟩])

def hover (e : Editor) (uri : String) (line column : Int) : Except Breakdown (Option String) := do
  match e.find? uri with
  | none => return none
  | some d =>
    match ← Text.wordAt d.text line column with
    | none => return none
    | some word => return d.outline.hover word

def completionsOf (o : Outline) : List Completion :=
  Primitive.all.map (fun p => ⟨p.name, .function, some p.summary⟩) ++
    o.definitions.map fun d =>
      ⟨d.name, if d.kind == .value then .value else .function, d.doc⟩

/-- The names to complete with: the primitives, then what the document defines. -/
def completions (e : Editor) (uri : String) : List Completion :=
  match e.find? uri with
  | some d => completionsOf d.outline
  | none => []

def symbols (e : Editor) (uri : String) : Option (List DocumentSymbol) :=
  (e.find? uri).map fun d =>
    d.outline.definitions.map fun d => ⟨d, ⟨d.place, d.name.length⟩⟩

def uris (e : Editor) : List String := (e.documents.map (·.1)).mergeSort (· ≤ ·)

end Editor

end LazyLisp
