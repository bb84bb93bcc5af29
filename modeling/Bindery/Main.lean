import Bindery.CommandLine

/-!
The program: it runs the command line over the files it asks for, writes what changed, and prints.
-/

namespace Bindery.Main

/-- A path as the file system takes it. -/
def entryOf (path : String) : IO.FS.DirEntry := ⟨"/", path⟩

/-- The places on the way to a path, the nearest to the root first. -/
def way (path : Path) : List Place :=
  let place := FileTree.placeOf path.normalize
  (List.range place.length).map fun n => place.take (n + 1)

def pathOf (place : Place) : String := "/" ++ "/".intercalate place

/-- Adds what the file system holds on the way to a path. -/
def lookUp (tree : FileTree) (path : Path) : IO FileTree :=
  (way path).foldlM (fun tree place => do
    let name := (entryOf (pathOf place)).path
    if ← name.isDir then return tree.addDirectory place
    else if ← name.pathExists then
      return tree.put place (.ofBytes (← IO.FS.readBinFile name).toList)
    else return tree) tree

/-- Runs the command line until nothing is asked for that was not looked up. -/
partial def settle (args : List String) (cwd : Path) (tree : FileTree) (known : List Path) :
    IO (FileTree × CommandLine.Exit) := do
  let exit := CommandLine.run args tree cwd
  let new := exit.asked.filter (!known.contains ·)
  if new.isEmpty then return (tree, exit)
  else settle args cwd (← new.foldlM lookUp tree) (known ++ new)

def bytes : Content → ByteArray
  | .text s => s.toUTF8
  | .binary bytes => ⟨bytes.toArray⟩

/-- Writes the files of a tree that are new or changed. -/
def save (before after : FileTree) : IO Unit := do
  for place in after.directories.reverse do
    unless before.hasDirectory place do IO.FS.createDirAll (pathOf place)
  for (place, content) in after.files do
    unless before.content? place == some content do
      IO.FS.writeBinFile (pathOf place) (bytes content)

/-- Hundredths of a second, as seconds. -/
def seconds (hundredths : Nat) : String :=
  let rest := toString (hundredths % 100)
  s!"{hundredths / 100}." ++ (if rest.length < 2 then "0" ++ rest else rest)

end Bindery.Main

open Bindery in
def main (args : List String) : IO UInt32 := do
  let start ← IO.monoMsNow
  let cwd : Path := ⟨(← IO.currentDir).toString⟩
  let (before, exit) ← Main.settle args cwd (← Main.lookUp {} cwd) []
  Main.save before exit.tree
  IO.print exit.output
  match CommandLine.Args.read args with
  | .error .misuse => IO.eprintln "usage: sitcom [OPTIONS] [ENTRY]"
  | .error _ => pure ()
  | .ok _ =>
    let taken := ((← IO.monoMsNow) - start + 5) / 10
    IO.println ("Done in " ++ Main.seconds taken ++ "s")
  return exit.code.toUInt32
