/-!
# Paths

A path is read in two ways. Taken **as text**, it is a list of components, and
one path lies below another if its components go on where the other's end.
Taken **as directions**, it is followed segment by segment through the
directories of a file system (`FileSystem.find?`), where `..` leads up from
wherever the segments before it have led.

The two differ: `x/../y` has three components, leads to the same place as `y`,
and leads nowhere if there is no directory `x`.
-/

namespace JvmOptimizer

/-- A path as it was written. -/
structure Path where
  /-- Does the path start at the root? -/
  absolute : Bool
  /-- The parts between slashes, those that are empty included. -/
  segments : List String
  deriving DecidableEq

namespace Path

/-! ### Text -/

/-- The parts between slashes of a text. -/
def split (text : String) : List String := if text = "" then [] else text.splitOn "/"

/-- The path of a text. -/
def ofText (text : String) : Path :=
  match text.toList with
  | '/' :: rest => ⟨true, split (String.ofList rest)⟩
  | _ => ⟨false, split text⟩

variable (p : Path)

/-- The text of a path. -/
def text : String := (if p.absolute then "/" else "") ++ String.intercalate "/" p.segments

/-- The number of bytes of the text. -/
def byteSize : Nat := p.text.utf8ByteSize

/-- Is the path the empty text? -/
def isEmpty : Bool := !p.absolute && p.segments.isEmpty

/-! ### Limits -/

/-- The most bytes that the text of a path may have. -/
def maxBytes : Nat := 4095

/-- The most bytes that the name of a file or directory may have. -/
def maxNameBytes : Nat := 255

/-- Can the path be followed at all? -/
def isUsable : Bool :=
  !p.isEmpty && p.byteSize ≤ maxBytes && p.segments.all fun s => !s.toList.contains '\x00'

/-- Does a segment name a file or directory, rather than lead up or nowhere? -/
def isName (segment : String) : Bool := segment ≠ "" && segment ≠ "." && segment ≠ ".."

/-- May a new file or directory have this name? -/
def isNewName (segment : String) : Bool :=
  isName segment && segment.utf8ByteSize ≤ maxNameBytes

/-- The name that the path ends in. -/
def name? : Option String := p.segments.getLast?.filter isName

/-! ### Components -/

/-- Is a segment a component wherever it stands? A single dot is one only at the
very start. -/
def isComponent (segment : String) : Bool := segment ≠ "" && segment ≠ "."

/-- Does the path start with a dot that counts as a component? -/
def startsWithDot : Bool := !p.absolute && p.segments.head? = some "."

/-- The components of the path behind the root. -/
def components : List String :=
  (if p.startsWithDot then ["."] else []) ++ p.segments.filter isComponent

/-- Is the path another one or below it, going by components? -/
def startsWith (root : Path) : Bool :=
  p.absolute == root.absolute && root.components.isPrefixOf p.components

/-- Segments up to the last component. -/
def trim (segments : List String) : List String :=
  (segments.reverse.dropWhile fun s => !isComponent s).reverse

/-- The segments up to the last component of the path. -/
def stem : List String := trim p.segments

/-- Is the last segment that is not empty a single dot? -/
def endsInDot : Bool := (p.segments.filter (· ≠ "")).getLast? = some "."

/-- The path without its last component. -/
def parent? : Option Path :=
  match p.stem with
  | [] => if p.startsWithDot then some ⟨false, []⟩ else none
  | stem =>
      let above := trim stem.dropLast
      some ⟨p.absolute, if above.isEmpty && p.startsWithDot then ["."] else above⟩

/-- The path to a name below. An empty name only adds a slash. -/
def child (name : String) : Path :=
  if p.segments.getLast? = some "" then
    { p with segments := p.segments.dropLast ++ [name] }
  else
    { p with segments := p.segments ++ [name] }

end Path

end JvmOptimizer
