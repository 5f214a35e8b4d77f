import LazyLisp.CommandLine
import LazyLisp.Disk.Tree

/-!
The program: it takes the settings, the files below the current directory and, if they are asked
for, the lines of the standard input, runs the command line on them and writes what came out.
-/

namespace LazyLisp.Program

def settings : IO Settings := do
  let found ← Settings.names.filterMapM fun name => do
    return (← IO.getEnv name).map fun text => (name, text)
  return ⟨found⟩

/-- The files below a directory; `inside` is the path that leads there. -/
partial def addFiles (tree : Disk.Tree) (directory inside : String) : IO Disk.Tree := do
  let mut tree := tree
  for entry in ← (← IO.FS.realPath directory).readDir do
    let path := entry.path
    let name := inside ++ entry.fileName
    if ← path.isDir then
      tree ← addFiles tree path.toString (name ++ "/")
    else
      tree := tree.add name (← IO.FS.readBinFile path).toList
  return tree

/-- All that can be read from a stream. -/
partial def readAll (stream : IO.FS.Stream) (soFar : String) : IO String := do
  let line ← stream.getLine
  if line.isEmpty then return soFar else readAll stream (soFar ++ line)

/-- Whether a run asked for input that was not there. -/
def wantedInput : CommandLine.Outcome → Bool
  | .exited _ _ => false
  | .finished _ s | .interrupted _ s => s.inputs[0]?.any (·.exhausted)

/-- Write what came out of a run and say with which code it ends. -/
def finish : CommandLine.Outcome → IO UInt32
  | .exited code out => do
    IO.print out
    return code.toUInt32
  | .finished code s => do
    IO.print s.out
    IO.eprint s.err
    return code.toUInt32
  | .interrupted _ s => do
    IO.print s.out
    IO.eprint s.err
    IO.eprintln "sloth: cannot go on"
    return 1

end LazyLisp.Program

open LazyLisp Program in
/-- Run without input first; only a run that asks for input has to wait for it. -/
def main (args : List String) : IO UInt32 := do
  let settings ← settings
  let disk := Disk.ofTree (← addFiles .empty "." "")
  let run (input : String) := CommandLine.execute settings disk input Session.ampleFuel args
  let outcome := run ""
  if wantedInput outcome then
    finish (run (← readAll (← IO.getStdin) ""))
  else finish outcome
