import JvmOptimizer.Bytes

/-!
# Directories

The contents of a directory, with those of the directories in it. What is where
is said by `Directory.get?`, which follows a list of names; the order in which a
directory lists its entries has no meaning.

A `Place` is a directory together with the way that led to it, so that one can
go on from it in any direction and put new things into it. Going up again, or to
the root, carries along what was put in.
-/

namespace JvmOptimizer

/-- What a directory holds, one entry after the other. -/
inductive Directory
  | empty
  | file (name : String) (contents : Bytes) (rest : Directory)
  | folder (name : String) (inside rest : Directory)
  deriving DecidableEq

/-- What a name can stand for. -/
inductive FileEntry
  | file (contents : Bytes)
  | directory (inside : Directory)
  deriving DecidableEq

namespace Directory

/-! ### Entries -/

/-- The entry of a name. -/
def find? (name : String) : Directory → Option FileEntry
  | empty => none
  | file n contents rest => if n = name then some (.file contents) else rest.find? name
  | folder n inside rest => if n = name then some (.directory inside) else rest.find? name

/-- The directory without a name. -/
def erase (name : String) : Directory → Directory
  | empty => empty
  | file n contents rest =>
      if n = name then rest.erase name else file n contents (rest.erase name)
  | folder n inside rest =>
      if n = name then rest.erase name else folder n inside (rest.erase name)

/-- The directory with an entry of this name. -/
def put (name : String) (e : FileEntry) (d : Directory) : Directory :=
  match e with
  | .file contents => file name contents (d.erase name)
  | .directory inside => folder name inside (d.erase name)

theorem find?_erase_of_ne {name other : String} (h : other ≠ name) (d : Directory) :
    (d.erase name).find? other = d.find? other := by
  induction d with
  | empty => rfl
  | file n contents rest ih =>
      by_cases hn : n = name
      · simp [erase, find?, hn, h.symm, ih]
      · simp [erase, find?, hn, ih]
  | folder n inside rest _ ih =>
      by_cases hn : n = name
      · simp [erase, find?, hn, h.symm, ih]
      · simp [erase, find?, hn, ih]

@[simp] theorem find?_put_self (name : String) (e : FileEntry) (d : Directory) :
    (d.put name e).find? name = some e := by
  cases e <;> simp [put, find?]

theorem find?_put_of_ne {name other : String} (h : other ≠ name) (e : FileEntry)
    (d : Directory) : (d.put name e).find? other = d.find? other := by
  cases e <;> simp [put, find?, h.symm, find?_erase_of_ne h]

/-- The names in the directory in ascending order, each with whether it is a
directory itself. -/
def names (d : Directory) : List (String × Bool) :=
  (go d).mergeSort fun a b => a.1 ≤ b.1
where
  /-- The names in the order of the entries. -/
  go : Directory → List (String × Bool)
    | empty => []
    | file name _ rest => (name, false) :: go rest
    | folder name _ rest => (name, true) :: go rest

/-! ### Everything below -/

/-- What the names lead to, one inside the other. -/
def get? (d : Directory) : List String → Option FileEntry
  | [] => some (.directory d)
  | name :: rest =>
      match d.find? name with
      | none => none
      | some (.directory inside) => inside.get? rest
      | some (.file contents) => if rest = [] then some (.file contents) else none

/-- Everything below the directory, with the names that lead to it; a directory
has no contents. -/
def descendants : Directory → List (List String × Option Bytes)
  | empty => []
  | file name contents rest => ([name], some contents) :: rest.descendants
  | folder name inside rest =>
      ([name], none) :: inside.descendants.map (fun (names, contents) => (name :: names, contents))
        ++ rest.descendants

/-- Everything below the directory by its path from there, in ascending order; a
directory ends in a slash. -/
def listing (d : Directory) : List (String × Option Bytes) :=
  let lines := d.descendants.map fun (names, contents) =>
    (String.intercalate "/" names ++ (if contents.isSome then "" else "/"), contents)
  lines.mergeSort fun a b => a.1 ≤ b.1

end Directory

/-! ### Places -/

/-- A directory and the way that led to it. -/
structure Place where
  /-- The directory. -/
  here : Directory
  /-- The directories around it, the nearest first, each with the name that was
  followed from it. -/
  above : List (String × Directory)

namespace Place

/-- The root of a tree. -/
def ofRoot (root : Directory) : Place := ⟨root, []⟩

/-- The names that led to the place. -/
def location (p : Place) : List String := (p.above.map (·.1)).reverse

/-- The place with an entry of this name. -/
def put (name : String) (e : FileEntry) (p : Place) : Place :=
  { p with here := p.here.put name e }

/-- The directory around the place. The root is in itself. -/
def up (p : Place) : Place :=
  match p.above with
  | [] => p
  | (name, around) :: above => ⟨around.put name (.directory p.here), above⟩

/-- The whole tree. -/
def root (p : Place) : Directory :=
  p.above.foldl (fun here (name, around) => around.put name (.directory here)) p.here

/-- The place in a directory of the place. -/
def down (name : String) (inside : Directory) (p : Place) : Place :=
  ⟨inside, (name, p.here) :: p.above⟩

end Place

end JvmOptimizer
