import JvmOptimizer.CommandLine

/-!
# The program

The outer layer: it takes the files that a command names into a `FileSystem`,
runs the command on it, and writes what has changed.
-/

namespace JvmOptimizer.Main

/-- The text of a location. -/
def pathText (location : List String) : String := "/" ++ String.intercalate "/" location

/-- Add a directory at a location. -/
def addDirectory (location : List String) (fs : FileSystem) : FileSystem :=
  { fs with root := ((Place.ofRoot fs.root).makeAll location).1.root }

/-- Add a file at a location. -/
def addFile (location : List String) (contents : Bytes) (fs : FileSystem) : FileSystem :=
  let (place, _) := (Place.ofRoot fs.root).makeAll location.dropLast
  { fs with root := (place.put (location.getLast?.getD "") (.file contents)).root }

/-- Take in what is at a location, with everything below it if `deep`. What
cannot be read is left out. -/
partial def load (deep : Bool) (location : List String) (fs : FileSystem) : IO FileSystem := do
  try
    let path ← IO.FS.realPath (pathText location)
    if ← path.isDir then
      let mut fs := addDirectory location fs
      if deep then
        for entry in ← path.readDir do
          fs ← load deep (location ++ [entry.fileName]) fs
      return fs
    else
      let contents ← IO.FS.readBinFile path
      return addFile location contents.toList fs
  catch _ => return fs

/-- The locations that a path leads to on its way, if all of it is there. -/
def waypoints (fs : FileSystem) (path : Path) : List (List String) :=
  let step := fun (location : List String) (segment : String) =>
    if segment = ".." then location.dropLast
    else if Path.isName segment then location ++ [segment]
    else location
  let start := if path.absolute then [] else fs.workingDirectory
  (List.range (path.segments.length + 1)).map fun n => (path.segments.take n).foldl step start

/-- Take in what a path leads to and everything on the way. -/
def loadPath (fs : FileSystem) (path : Path) : IO FileSystem := do
  let way := waypoints fs path
  let fs ← way.foldlM (fun fs location => load false location fs) fs
  load true (way.getLast?.getD []) fs

/-- The paths that a command works on. -/
def paths : CommandLine.Command → List Path
  | .tree _ input output => [input, output]
  | .file _ input output => [input, output]
  | .dump input => [input]

/-- The files that the arguments name. -/
def snapshot (args : List String) : IO FileSystem := do
  let here := Path.ofText (← IO.currentDir).toString
  let fs : FileSystem := { workingDirectory := here.components }
  let fs := addDirectory fs.workingDirectory fs
  match CommandLine.parse args with
  | .error _ => return fs
  | .ok c => (paths c).foldlM loadPath fs

/-- Is this what stands at a location? A directory is given without contents. -/
def isUnchanged (before : FileSystem) (location : List String) (contents : Option Bytes) : Bool :=
  match before.root.get? location, contents with
  | some (.directory _), none => true
  | some (.file old), some new => old = new
  | _, _ => false

/-- Write what differs between two file systems, directories first. -/
def commit (before after : FileSystem) : IO Unit := do
  let changed := after.root.descendants.filter fun (location, contents) =>
    !isUnchanged before location contents
  for (location, contents) in changed.mergeSort fun a b => a.1.length ≤ b.1.length do
    match contents with
    | none => IO.FS.createDirAll (pathText location)
    | some contents => IO.FS.writeBinFile (pathText location) ⟨contents.toArray⟩

end JvmOptimizer.Main

open JvmOptimizer in
/-- Run the program on the files that it is called for. -/
def main (args : List String) : IO UInt32 := do
  let before ← Main.snapshot args
  let (outcome, after) := CommandLine.run args before
  Main.commit before after
  IO.print outcome.stdout
  IO.eprint outcome.stderr
  return outcome.exitCode
