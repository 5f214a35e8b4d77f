import LazyLisp.Decimal.Notation
import LazyLisp.Text.Uppercase
import LazyLisp.World

/-!
Settings: what the environment variables of a run ask for. A setting is a text until it is asked
for; only then can it turn out to be no integer or no level.
-/

namespace LazyLisp

structure Settings where
  /-- The texts of the variables that are set, by name. -/
  texts : List (String × String)

namespace Settings

def names : List String :=
  ["SLOTH_PATH", "SLOTH_PRELUDE_PATH", "SLOTH_TRACEBACK_LIMIT", "SLOTH_RECURSION_LIMIT",
    "SLOTH_LOG_LEVEL"]

def unset : Settings := ⟨[]⟩

def get? (s : Settings) (name : String) : Option String := s.texts.lookup name

/-- The integer that a text denotes: a sign and digits, with single underscores between digits. -/
def integer? (text : List Char) : Option Int := do
  let (negative, body) := Decimal.splitSign (text.map Decimal.plainChar)
  let digits ← Decimal.dropUnderscores ' ' body
  if digits.isEmpty || !digits.all Char.isDigit || maxDigits < digits.length then failure
  let n : Int := Text.digitsValue digits
  return if negative then -n else n

/-- An integer setting. A variable that is blank counts as not set. -/
def integer (s : Settings) (name : String) (standard : Int) : Except Breakdown Int :=
  let text := Text.trim ((s.get? name).getD "").toList
  if text.isEmpty then .ok standard
  else match integer? text with
    | some n => .ok n
    | none => .error .settingNotInteger

/-- A list of paths, divided by colons. Blank entries are dropped; an empty variable counts as not
set. -/
def paths? (s : Settings) (name : String) : Option (List Path) := do
  let text ← s.get? name
  if text.isEmpty then failure
  let entries := (text.toList.splitOn ':').map Text.trim
  return (entries.filter (!·.isEmpty)).map (.ofString ∘ String.ofList)

/-- The most forms that the trace of a fault holds. -/
def traceLimit (s : Settings) : Except Breakdown Int := s.integer "SLOTH_TRACEBACK_LIMIT" 64

def recursionLimit (s : Settings) : Except Breakdown Int := s.integer "SLOTH_RECURSION_LIMIT" 10000

def logLevel (s : Settings) : String :=
  match s.get? "SLOTH_LOG_LEVEL" with
  | some name => Text.uppercase name
  | none => LogLevel.warning.name

/-- The directories in which files are looked for. -/
def searchPath (s : Settings) : List Path := (s.paths? "SLOTH_PATH").getD []

/-- Where the prelude is to be found. -/
inductive PreludePlace where
  /-- The prelude of the language. -/
  | standard
  | directory (path : Path)

/-- The first entry of the prelude path, or the directory of a file that stands there. -/
def preludePlace (s : Settings) (disk : Disk) : Except Breakdown PreludePlace :=
  match s.paths? "SLOTH_PRELUDE_PATH" with
  | none => .ok .standard
  | some [] => .error .noPreludePath
  | some (path :: _) => do
    return .directory (if ← disk.isDirectory path then path else path.parent)

end Settings

end LazyLisp
