/-!
Paths: the root they start from and the names along the way. Empty names and single dots are
dropped when a path is read; two dots are kept, since they depend on the directories passed.
-/

namespace LazyLisp

structure Path where
  /-- Empty for a relative path, and one or exactly two slashes for an absolute one. -/
  root : String
  parts : List String
  deriving Repr, DecidableEq

namespace Path

def leadingSlashes (text : List Char) : Nat := (text.takeWhile (· == '/')).length

def ofString (text : String) : Path :=
  let root := match leadingSlashes text.toList with
    | 0 => ""
    | 2 => "//"
    | _ => "/"
  let parts := (text.toList.splitOn '/').map String.ofList
  ⟨root, parts.filter fun part => part != "" && part != "."⟩

def toString (p : Path) : String :=
  if p.root.isEmpty && p.parts.isEmpty then "."
  else p.root ++ "/".intercalate p.parts

def isAbsolute (p : Path) : Bool := !p.root.isEmpty

def join (p q : Path) : Path := if q.isAbsolute then q else ⟨p.root, p.parts ++ q.parts⟩

def parent (p : Path) : Path := ⟨p.root, p.parts.dropLast⟩

end Path

end LazyLisp
