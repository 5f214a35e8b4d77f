import LazyLisp.Disk

/-!
Files below the current directory, as a finite set. Directories exist as far as files lie in them,
and nothing is known of what lies outside.
-/

namespace LazyLisp

structure Disk.Tree where
  /-- The names that lead to a file, and its bytes. -/
  files : List (List String × List UInt8)

namespace Disk.Tree

def empty : Tree := ⟨[]⟩

def add (tree : Tree) (path : String) (bytes : List UInt8) : Tree :=
  ⟨tree.files ++ [((Path.ofString path).parts, bytes)]⟩

def isDirectory (tree : Tree) (parts : List String) : Bool :=
  parts.isEmpty || tree.files.any fun (path, _) => parts.isPrefixOf path && parts != path

def nameLimit : Nat := 255

/-- The most bytes that a path may have, with the one that ends it. -/
def pathLimit : Nat := 4096

/-- What names lead to from the directory `here`. Every name passed on the way must be a directory,
and the way must not leave the current directory. -/
def walk (tree : Tree) (here : List String) : List String → Place
  | [] =>
    if tree.isDirectory here then .directory
    else match tree.files.lookup here with
      | some bytes => .file (.ok bytes)
      | none => .nothing
  | part :: rest =>
    if !tree.isDirectory here then .nothing
    else if nameLimit < part.utf8ByteSize then .refused
    else if part == ".." then
      if here.isEmpty then .nothing else tree.walk here.dropLast rest
    else tree.walk (here ++ [part]) rest

/-- What a path leads to. No path holds the character that ends a path. -/
def look (tree : Tree) (path : Path) : Place :=
  if path.toString.toList.contains (Char.ofNat 0) then .nothing
  else if pathLimit ≤ path.toString.utf8ByteSize then .refused
  else if path.isAbsolute then
    match path.parts with
    | [] => .directory
    | part :: _ => if nameLimit < part.utf8ByteSize then .refused else .nothing
  else tree.walk [] path.parts

end Disk.Tree

def Disk.ofTree (tree : Disk.Tree) : Disk := ⟨tree.look⟩

end LazyLisp
