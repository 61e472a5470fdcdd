import JvmOptimizer.FileSystem.Directory
import JvmOptimizer.FileSystem.Path

/-!
# File systems

The commands work on files, and do so on a value: every operation gives the file
system afterwards. The outer layer reads the files that a command may need into
such a value and writes back what the command changed.

A path is followed one segment after the other. Each segment but the last has to
lead to a directory; `.` stays there and `..` goes up. A path that ends in a
slash, `.` or `..` leads to a directory or nowhere.
-/

namespace JvmOptimizer

/-! ### Following segments -/

namespace Place

/-- The place that a segment leads to. -/
def enter? (segment : String) (p : Place) : Option Place :=
  if !Path.isComponent segment then
    some p
  else if segment = ".." then
    some p.up
  else
    match p.here.find? segment with
    | some (.directory inside) => some (p.down segment inside)
    | _ => none

/-- The place that several segments lead to. -/
def follow? (segments : List String) (p : Place) : Option Place :=
  segments.foldlM (fun p segment => p.enter? segment) p

/-- The place that a segment leads to, made if there is nothing of that name. -/
def make? (segment : String) (p : Place) : Option Place :=
  match p.enter? segment with
  | some next => some next
  | none =>
      if (p.here.find? segment).isNone && Path.isNewName segment then
        some (p.down segment .empty)
      else
        none

/-- The place that several segments lead to, with everything on the way made if
it is missing, and whether the last segment was reached. -/
def makeAll (p : Place) : (segments : List String) → Place × Bool
  | [] => (p, true)
  | segment :: rest =>
      match p.make? segment with
      | some next => next.makeAll rest
      | none => (p, false)

end Place

/-! ### Operations -/

/-- All files and directories. -/
structure FileSystem where
  root : Directory := .empty
  /-- The names from the root to the directory where relative paths start. -/
  workingDirectory : List String := []

namespace FileSystem

variable (fs : FileSystem)

/-- The place where a path starts. -/
def start? (p : Path) : Option Place :=
  (Place.ofRoot fs.root).follow? (if p.absolute then [] else fs.workingDirectory)

/-- The place that segments of a usable path lead to. -/
def place? (p : Path) (segments : List String) : Option Place := do
  if p.isUsable then
    (← fs.start? p).follow? segments
  else
    none

/-- What a path leads to. -/
def find? (p : Path) : Option FileEntry :=
  match p.name? with
  | some name => do (← fs.place? p p.segments.dropLast).here.find? name
  | none => do return .directory (← fs.place? p p.segments).here

/-- The names from the root to what a path leads to. -/
def locate? (p : Path) : Option (List String) :=
  match p.name? with
  | some name => do
      let place ← fs.place? p p.segments.dropLast
      if (place.here.find? name).isSome then some (place.location ++ [name]) else none
  | none => do return (← fs.place? p p.segments).location

/-- The contents of the file that a path leads to. -/
def contents? (p : Path) : Option Bytes :=
  match fs.find? p with
  | some (.file contents) => some contents
  | _ => none

/-- The directory that a path leads to. -/
def directory? (p : Path) : Option Directory :=
  match fs.find? p with
  | some (.directory inside) => some inside
  | _ => none

/-- Write a file, in a directory that is there. -/
def write? (p : Path) (contents : Bytes) : Option FileSystem := do
  let name ← p.name?
  let place ← fs.place? p p.segments.dropLast
  match place.here.find? name with
  | some (.directory _) => none
  | _ =>
      if Path.isNewName name then
        some { fs with root := (place.put name (.file contents)).root }
      else
        none

/-- Make the directory that a path leads to, with those on the way, and say
whether it is there now. What was made on a way that turns out to be blocked
stays. A directory that is named with a dot behind it is not made, only those on
the way to it. -/
def makeDirectories (p : Path) : Bool × FileSystem :=
  if p.isEmpty then
    (true, fs)
  else if !p.isUsable then
    (false, fs)
  else
    match fs.start? p with
    | none => (false, fs)
    | some start =>
        let made := if p.endsInDot then p.stem.dropLast else p.stem
        let (place, reached) := start.makeAll made
        let found := (place.follow? (p.stem.drop made.length)).isSome
        (reached && found, { fs with root := place.root })

end FileSystem

end JvmOptimizer
