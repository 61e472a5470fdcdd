import JvmOptimizer.Batch
import JvmOptimizer.Dump

/-!
# The command line

```text
[-v | -q] optimize -i DIR -o DIR [--exclude NAME]... [PASSES]
[-v | -q] file IN OUT [PASSES]
[-v | -q] dump FILE
--version

PASSES: --no-fold, --no-dead-stores, --target-version VERSION (45 to 50)
```

Arguments are read from left to right. A word that starts with a dash is an
option and never a value, except behind `--`; `--name=value` and `-xvalue` write
an option and its value in one word, and flags of one letter may be joined. The
words of a command come behind its name. An option may be given once, and
`--exclude` any number of times. Of `-v` and `-q` only one may be given in front
of the command and one behind it; they have no bearing on what is written.
-/

namespace JvmOptimizer.CommandLine

/-! ### Options -/

/-- The options. -/
inductive Key
  | verbose
  | quiet
  | help
  | version
  | input
  | output
  | exclude
  | noFold
  | noDeadStores
  | targetVersion
  deriving DecidableEq

namespace Key

/-- The name of an option behind two dashes. -/
def long : Key → String
  | verbose => "verbose"
  | quiet => "quiet"
  | help => "help"
  | version => "version"
  | input => "input"
  | output => "output"
  | exclude => "exclude"
  | noFold => "no-fold"
  | noDeadStores => "no-dead-stores"
  | targetVersion => "target-version"

/-- The letter of an option behind one dash. -/
def short? : Key → Option Char
  | verbose => some 'v'
  | quiet => some 'q'
  | help => some 'h'
  | version => some 'V'
  | input => some 'i'
  | output => some 'o'
  | _ => none

/-- Does the option have a value? -/
def takesValue : Key → Bool
  | input | output | exclude | targetVersion => true
  | _ => false

/-- May the option be given more than once? -/
def isRepeatable (k : Key) : Bool := k == exclude

end Key

/-- Why no command is run. -/
inductive Stop
  /-- The arguments are wrong. -/
  | usage
  | help
  | version
  deriving DecidableEq

/-- What a command or the program itself accepts. -/
structure Grammar where
  /-- Its options. -/
  keys : List Key
  /-- The most words that it takes besides options. -/
  words : Nat

/-- The options and words found so far. -/
structure Found where
  /-- Options with their values, latest first; a flag has none. -/
  options : List (Key × String) := []
  /-- Other words, latest first. -/
  words : List String := []

/-- A whole number, as digits with or without a sign. -/
def integer? (text : String) : Option Int :=
  let digits? := fun (cs : List Char) =>
    if cs.isEmpty || !cs.all Char.isDigit then none else (String.ofList cs).toNat?
  match text.toList with
  | '-' :: cs => (digits? cs).map fun n => -(n : Int)
  | '+' :: cs => (digits? cs).map fun n => (n : Int)
  | cs => (digits? cs).map fun n => (n : Int)

/-- The version that the option names. -/
def targetVersion? (text : String) : Option UInt16 := do
  let n ← integer? text
  if 45 ≤ n ∧ n ≤ 50 then some (UInt16.ofNat n.toNat) else none

/-- Is the value one that the option takes? -/
def Key.accepts (k : Key) (value : String) : Bool :=
  match k with
  | input | output => value ≠ ""
  | targetVersion => (targetVersion? value).isSome
  | _ => true

namespace Found

/-- Is an option given? -/
def has (f : Found) (k : Key) : Bool := f.options.any (·.1 == k)

/-- The value of an option. -/
def value? (f : Found) (k : Key) : Option String := f.options.lookup k

/-- Take in an option. Help and version are answered on the spot. -/
def addOption (k : Key) (value : String) (f : Found) : Except Stop Found :=
  match k with
  | .help => .error .help
  | .version => .error .version
  | k =>
      if (f.has k && !k.isRepeatable) || !k.accepts value then
        .error .usage
      else
        .ok { f with options := (k, value) :: f.options }

/-- Take in another word. All of them are paths, which are not empty. -/
def addWord (g : Grammar) (word : String) (f : Found) : Except Stop Found :=
  if word = "" || g.words ≤ f.words.length then
    .error .usage
  else
    .ok { f with words := word :: f.words }

end Found

/-! ### Reading the words -/

/-- What one word says. -/
inductive Reading
  /-- All is said. -/
  | done (found : Found)
  /-- The value of the option is the next word. -/
  | needsValue (key : Key) (found : Found)

/-- Is the word an option, or the mark behind which none follow? -/
def isOption (word : String) : Bool := word.startsWith "-" && word ≠ "-"

/-- Read the letters behind a single dash. The first option with a value takes
the rest of the word, without a leading `=`. -/
def readLetters (g : Grammar) (f : Found) : List Char → Except Stop Reading
  | [] => .ok (.done f)
  | c :: rest =>
      match g.keys.find? fun k => k.short? = some c with
      | none => .error .usage
      | some k =>
          if k.takesValue then
            match rest with
            | [] => .ok (.needsValue k f)
            | '=' :: value => .done <$> f.addOption k (String.ofList value)
            | value => .done <$> f.addOption k (String.ofList value)
          else
            match f.addOption k "" with
            | .error e => .error e
            | .ok f => readLetters g f rest

/-- Read a name behind two dashes. -/
def readName (g : Grammar) (f : Found) (body : List Char) : Except Stop Reading :=
  let name := body.takeWhile (· ≠ '=')
  let value := (body.dropWhile (· ≠ '=')).tail
  let attached := body.contains '='
  match g.keys.find? fun k => k.long.toList = name with
  | none => .error .usage
  | some k =>
      if k.takesValue then
        if attached then
          .done <$> f.addOption k (String.ofList value)
        else
          .ok (.needsValue k f)
      else if attached then
        .error .usage
      else
        .done <$> f.addOption k ""

/-- Read an option. -/
def readOption (g : Grammar) (f : Found) (word : String) : Except Stop Reading :=
  match word.toList with
  | '-' :: '-' :: name => readName g f name
  | _ :: letters => readLetters g f letters
  | [] => .error .usage

/-- Read all words. -/
def readWords (g : Grammar) (f : Found) : List String → Except Stop Found
  | [] => .ok f
  | word :: rest =>
      if word = "--" then
        rest.foldlM (fun f word => f.addWord g word) f
      else if isOption word then
        match readOption g f word, rest with
        | .error e, _ => .error e
        | .ok (.done f), rest => readWords g f rest
        | .ok (.needsValue _ _), [] => .error .usage
        | .ok (.needsValue k f), value :: rest =>
            if isOption value then
              .error .usage
            else
              match f.addOption k value with
              | .error e => .error e
              | .ok f => readWords g f rest
      else
        match f.addWord g word with
        | .error e => .error e
        | .ok f => readWords g f rest

/-- The options of the program and the words from the command's name on. -/
def readGlobals (g : Grammar) (f : Found) : List String → Except Stop (Found × List String)
  | [] => .error .usage
  | word :: rest =>
      if word = "--" then
        .error .usage
      else if isOption word then
        match readOption g f word with
        | .error e => .error e
        | .ok (.needsValue _ _) => .error .usage
        | .ok (.done f) => readGlobals g f rest
      else
        .ok (f, word :: rest)

/-! ### Commands -/

/-- A command with what it works on. -/
inductive Command
  /-- Optimize a directory tree into another directory. -/
  | tree (settings : Settings) (input output : Path)
  /-- Optimize a class file into another file. -/
  | file (settings : Settings) (input output : Path)
  /-- Print the instructions of a class file. -/
  | dump (input : Path)

/-- The options that every command takes. -/
def commonKeys : List Key := [.verbose, .quiet, .help]

/-- The options that choose passes. -/
def passKeys : List Key := [.noFold, .noDeadStores, .targetVersion]

/-- What the program takes in front of a command. -/
def programGrammar : Grammar := ⟨.version :: commonKeys, 0⟩

/-- What the `optimize` command takes. -/
def treeGrammar : Grammar := ⟨[.input, .output, .exclude] ++ passKeys ++ commonKeys, 0⟩

/-- What the `file` command takes. -/
def fileGrammar : Grammar := ⟨passKeys ++ commonKeys, 2⟩

/-- What the `dump` command takes. -/
def dumpGrammar : Grammar := ⟨commonKeys, 1⟩

namespace Found

/-- The settings that the options ask for. -/
def settings (f : Found) : Settings :=
  let defaults : Settings := {}
  { foldConstants := !f.has .noFold
    removeDeadStores := !f.has .noDeadStores
    targetVersion := ((f.value? .targetVersion).bind targetVersion?).getD defaults.targetVersion
    exclude := ((f.options.filter (·.1 == .exclude)).map (·.2)).reverse }

/-- The program is not to be verbose and quiet at once. -/
def check (f : Found) : Except Stop Unit :=
  if f.has .verbose && f.has .quiet then .error .usage else .ok ()

end Found

/-- Read the words of a command. -/
def readCommand (g : Grammar) (words : List String) (make : Found → Option Command) :
    Except Stop Command := do
  let f ← readWords g {} words
  f.check
  match make f with
  | some command => return command
  | none => throw .usage

/-- The tree that `optimize` works on. -/
def treeCommand? (f : Found) : Option Command := do
  let input ← f.value? .input
  let output ← f.value? .output
  return .tree f.settings (.ofText input) (.ofText output)

/-- The files that `file` works on. -/
def fileCommand? (f : Found) : Option Command :=
  match f.words with
  | [output, input] => some (.file f.settings (.ofText input) (.ofText output))
  | _ => none

/-- The file that `dump` works on. -/
def dumpCommand? (f : Found) : Option Command :=
  match f.words with
  | [input] => some (.dump (.ofText input))
  | _ => none

/-- The command of the given words. -/
def command : List String → Except Stop Command
  | "optimize" :: words => readCommand treeGrammar words treeCommand?
  | "file" :: words => readCommand fileGrammar words fileCommand?
  | "dump" :: words => readCommand dumpGrammar words dumpCommand?
  | ["help"] => .error .help
  | ["help", name] =>
      .error (if name ∈ ["optimize", "file", "dump", "help"] then .help else .usage)
  | _ => .error .usage

/-- The command that the arguments ask for. -/
def parse (args : List String) : Except Stop Command := do
  let (globals, words) ← readGlobals programGrammar {} args
  let c ← command words
  globals.check
  return c

/-! ### Running -/

/-- What a run leaves behind besides files. -/
structure Outcome where
  exitCode : UInt32
  /-- What is printed. -/
  stdout : String := ""
  /-- What is said about a failure. -/
  stderr : String := ""

namespace Outcome

/-- A run that printed something and then failed. -/
def failed (printed : String) (f : Failure) : Outcome := ⟨1, printed, s!"Error: {f.message}\n"⟩

/-- The run of a command that prints a line for its result. -/
def ofResult {α : Type} (line : α → String) : Except Failure α → Outcome
  | .ok a => ⟨0, line a, ""⟩
  | .error f => failed "" f

end Outcome

/-- The line for a tree. -/
def treeLine (r : BatchReport) : String :=
  s!"{r.optimized} optimized, {r.copied} copied, {r.failed} failed " ++
    s!"({r.methodsChanged} methods changed)\n"

/-- The line for a file. -/
def fileLine (input : Path) (r : ClassReport) : String :=
  let lowered := match r.loweredFrom with
    | some v => s!", version lowered from {v.toNat}"
    | none => ""
  s!"{input.text}: {r.changed} of {r.methods} methods changed{lowered}\n"

/-- The listing of a file, and what kept it from being complete. -/
def dumpFile (input : Path) : FileTask (String × Option FormatError) := do
  match ClassFile.parse (← FileTask.read input) with
  | .ok c => return c.dump
  | .error e => throw (.format e)

/-- The run that prints a listing. -/
def dumpOutcome : Except Failure (String × Option FormatError) → Outcome
  | .ok (text, none) => ⟨0, text, ""⟩
  | .ok (text, some e) => .failed text (.format e)
  | .error f => .failed "" f

/-- Run a command. -/
def Command.run (c : Command) (fs : FileSystem) : Outcome × FileSystem :=
  match c with
  | .tree settings input output =>
      let (result, fs) := optimizeTree settings input output fs
      (.ofResult treeLine result, fs)
  | .file settings input output =>
      let (result, fs) := optimizeFile settings input output fs
      (.ofResult (fileLine input) result, fs)
  | .dump input =>
      let (result, fs) := dumpFile input fs
      (dumpOutcome result, fs)

/-- How the program is called. -/
def usage : String :=
  "Constant folding and dead code removal for JVM class files\n\n" ++
  "Usage: classfold [OPTIONS] <COMMAND>\n\n" ++
  "Commands:\n" ++
  "  optimize  Optimize every class file under a directory\n" ++
  "  file      Optimize a single class file\n" ++
  "  dump      Print the decoded instructions of every method\n" ++
  "  help      Print this message\n\n" ++
  "Options:\n" ++
  "  -v, --verbose  Ask for more messages\n" ++
  "  -q, --quiet    Ask for fewer messages\n" ++
  "  -h, --help     Print help\n" ++
  "  -V, --version  Print version\n"

/-- Run the program. -/
def run (args : List String) (fs : FileSystem) : Outcome × FileSystem :=
  match parse args with
  | .ok c => c.run fs
  | .error .usage => (⟨2, "", usage⟩, fs)
  | .error .help => (⟨0, usage, ""⟩, fs)
  | .error .version => (⟨0, "classfold 0.1.0\n", ""⟩, fs)

end JvmOptimizer.CommandLine
