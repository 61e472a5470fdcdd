import JvmOptimizer.ClassFile.Rewrite
import JvmOptimizer.FileSystem.Basic

/-!
# Optimizing files

One class file, or every class file of a directory tree. A tree is walked depth
first, the names of a directory in ascending order, and everything in it appears
at the same place below the output directory: optimized, if it is a class file
that can be, and otherwise as it is.

The names in a directory are taken before anything is written for it, and each
file is read when its turn comes.
-/

namespace JvmOptimizer

/-- Why files could not be processed. -/
inductive Failure
  /-- A file or directory could not be read or written. -/
  | io
  /-- A class file is malformed. -/
  | format (error : FormatError)
  /-- What was asked for makes no sense. -/
  | config (message : String)
  /-- A directory could not be listed. -/
  | walk
  /-- Something failed for this file. -/
  | file (path : Path) (cause : Failure)

/-- The text of a failure. -/
def Failure.message : Failure → String
  | io => "IO error"
  | format error => s!"Invalid class file: {error.message}"
  | config message => s!"Configuration error: {message}"
  | walk => "Cannot walk input tree"
  | file path cause => s!"{path.text}: {cause.message}"

/-- Fail if the settings are not valid. -/
def Settings.check (s : Settings) : Except Failure Unit :=
  if s.isValid then .ok () else .error (.config s.complaint)

/-- Optimize the bytes of a class file. They stay as they are if no method
changed. -/
def optimizeBytes (settings : Settings) (bytes : Bytes) :
    Except Failure (Bytes × ClassReport) := do
  settings.check
  match ClassFile.parse bytes with
  | .error e => throw (.format e)
  | .ok c =>
      let (optimized, report) := c.optimize settings
      return (if 0 < report.changed then optimized.toBytes else bytes, report)

/-- Work on files. A failure keeps what was written before. -/
abbrev FileTask := ExceptT Failure (StateM FileSystem)

namespace FileTask

/-- Name the file for which a task fails. -/
def inFile {α : Type} (path : Path) (task : FileTask α) : FileTask α :=
  tryCatch task fun cause => throw (.file path cause)

/-- Read a file. -/
def read (path : Path) : FileTask Bytes := do
  match (← get).contents? path with
  | some contents => return contents
  | none => throw .io

/-- Write a file. -/
def write (path : Path) (contents : Bytes) : FileTask Unit := do
  match (← get).write? path contents with
  | some fs => set fs
  | none => throw .io

/-- Make a directory, with those that it lies in. -/
def makeDirectories (path : Path) : FileTask Unit := do
  let (made, fs) := (← get).makeDirectories path
  set fs
  if !made then
    throw .io

/-- Make the directory that a path lies in. -/
def makeParent (path : Path) : FileTask Unit :=
  match path.parent? with
  | some parent => makeDirectories parent
  | none => return

/-- Copy a file. A file copied onto itself is emptied. -/
def copy (source target : Path) : FileTask Unit := do
  makeParent target
  inFile source do
    let contents ← read source
    let fs ← get
    write target (if fs.locate? source = fs.locate? target then [] else contents)

end FileTask

open FileTask

/-- Optimize one class file. -/
def optimizeFile (settings : Settings) (input output : Path) : FileTask ClassReport := do
  ofExcept settings.check
  inFile input do
    let (bytes, report) ← ofExcept (optimizeBytes settings (← read input))
    makeParent output
    write output bytes
    return report

/-! ### Trees -/

/-- What happened to the class files of a tree. -/
structure BatchReport where
  /-- Files with rewritten methods. -/
  optimized : Nat := 0
  /-- Files left as they are. -/
  copied : Nat := 0
  /-- Files that could not be processed, and were copied. -/
  failed : Nat := 0
  /-- Methods rewritten in all files. -/
  methodsChanged : Nat := 0
  deriving DecidableEq

/-- Is this the name of a class file? A name needs something in front of its
ending. -/
def isClassName (name : String) : Bool := name.endsWith ".class" && name ≠ ".class"

/-- Process a file of a tree. -/
def processFile (settings : Settings) (name : String) (source target : Path)
    (report : BatchReport) : FileTask BatchReport := do
  if !isClassName name then
    copy source target
    return report
  if settings.isExcluded name then
    copy source target
    return { report with copied := report.copied + 1 }
  match ← tryCatch (some <$> optimizeFile settings source target) fun _ => pure none with
  | some c =>
      if 0 < c.changed then
        return { report with
          optimized := report.optimized + 1
          methodsChanged := report.methodsChanged + c.changed }
      else
        return { report with copied := report.copied + 1 }
  | none =>
      copy source target
      return { report with failed := report.failed + 1 }

/-- Process a directory of a tree, down to `depth` levels. -/
def processDirectory (settings : Settings) :
    (depth : Nat) → (source target : Path) → BatchReport → FileTask BatchReport
  | 0, _, _, _ => throw .walk
  | depth + 1, source, target, report => do
      let directory := (← get).directory? source
      makeDirectories target
      match directory with
      | none => throw .walk
      | some directory =>
          directory.names.foldlM (fun report (name, isDirectory) =>
            if isDirectory then
              processDirectory settings depth (source.child name) (target.child name) report
            else
              processFile settings name (source.child name) (target.child name) report) report

/-- Optimize every class file below a directory into another one, which must not
lie below the first. If it does so all the same, by a way that its components do
not show, the walk may come to directories that it has made itself; it ends at
the latest where paths become too long, so their length bounds its depth. -/
def optimizeTree (settings : Settings) (input output : Path) : FileTask BatchReport := do
  ofExcept settings.check
  if ((← get).directory? input).isNone then
    throw (.config s!"{input.text} is not a directory")
  if output.startsWith input then
    throw (.config "output directory must not be inside the input directory")
  processDirectory settings Path.maxBytes input (output.child "") {}

end JvmOptimizer
