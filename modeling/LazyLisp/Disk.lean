import LazyLisp.Disk.Path
import LazyLisp.Text.Utf8
import LazyLisp.Breakdown

/-!
The files that a program can load: what each path leads to, as far as the system says it, and how a
file is found in a list of directories.
-/

namespace LazyLisp

/-- The bytes of a file, or the reason why it cannot be read. -/
abbrev Contents := Except String (List UInt8)

inductive Place where
  | file (contents : Contents)
  | directory
  /-- Something that is neither a file nor a directory. -/
  | device
  | nothing
  /-- The system does not say: a name is too long, or a directory on the way may not be searched. -/
  | refused

structure Disk where
  look : Path → Place

namespace Disk

/-- The contents of the file at a path, if there is a file. -/
def file? (disk : Disk) (path : Path) : Except Breakdown (Option Contents) :=
  match disk.look path with
  | .file contents => .ok (some contents)
  | .directory | .device | .nothing => .ok none
  | .refused => .error .pathRefused

def isDirectory (disk : Disk) (path : Path) : Except Breakdown Bool :=
  match disk.look path with
  | .directory => .ok true
  | .file _ | .device | .nothing => .ok false
  | .refused => .error .pathRefused

def isPresent (disk : Disk) (path : Path) : Except Breakdown Bool :=
  match disk.look path with
  | .file _ | .directory | .device => .ok true
  | .nothing => .ok false
  | .refused => .error .pathRefused

/-- The first of the paths that leads to a file, and the contents of that file. -/
def findFile? (disk : Disk) : List Path → Except Breakdown (Option (Path × Contents))
  | [] => .ok none
  | path :: rest => do
    match ← disk.file? path with
    | some contents => return some (path, contents)
    | none => findFile? disk rest

/-- The paths under which a file is looked for: the path itself, and a relative one also as it is
seen from each directory of `searchPath`. -/
def candidates (searchPath : List Path) (path : Path) : List Path :=
  path :: if path.isAbsolute then [] else searchPath.map (·.join path)

def resolve (disk : Disk) (searchPath : List Path) (path : Path) :
    Except Breakdown (Option (Path × Contents)) :=
  disk.findFile? (candidates searchPath path)

theorem eq_pathRefused_of_file? {disk : Disk} {path : Path} {b : Breakdown}
    (refused : disk.file? path = .error b) : b = .pathRefused := by
  unfold file? at refused
  split at refused <;> cases refused
  rfl

theorem eq_pathRefused_of_findFile? {disk : Disk} {paths : List Path} {b : Breakdown}
    (refused : disk.findFile? paths = .error b) : b = .pathRefused := by
  induction paths with
  | nil => cases refused
  | cons path rest ih =>
    rw [findFile?] at refused
    cases looked : disk.file? path with
    | error d =>
      rw [looked] at refused
      cases refused
      exact eq_pathRefused_of_file? looked
    | ok found =>
      rw [looked] at refused
      cases found with
      | some contents => cases refused
      | none => exact ih refused

/-- Only the system can say no to a search for a file. -/
theorem eq_pathRefused_of_resolve {disk : Disk} {searchPath : List Path} {path : Path}
    {b : Breakdown} (refused : disk.resolve searchPath path = .error b) : b = .pathRefused :=
  eq_pathRefused_of_findFile? refused

/-- The text of file contents, with unified line ends. -/
def textOf (bytes : List UInt8) : Except Breakdown (List Char) :=
  match Text.decode bytes with
  | .ok text => .ok (Text.unifyNewlines text)
  | .error _ => .error .fileNotText

theorem eq_fileNotText_of_textOf {bytes : List UInt8} {b : Breakdown}
    (refused : textOf bytes = .error b) : b = .fileNotText := by
  unfold textOf at refused
  split at refused <;> cases refused
  rfl

end Disk

end LazyLisp
