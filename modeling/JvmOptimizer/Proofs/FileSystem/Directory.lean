import Mathlib.Data.List.Nodup
import JvmOptimizer.FileSystem.Basic

/-!
# Directories as maps

From outside, a directory is a map: lists of names lead to files and directories
(`Directory.view`). Two directories with one view differ at most in the order of
their entries, which no operation keeps and none depends on. So operations are
described by what they do to the view, and a file is changed where the view is.

A directory of a file system is `Proper`: it has no name twice, and none that a path
could not end in. Its files can then be counted (`Directory.files`), each being there
once.
-/

namespace JvmOptimizer

/-- What names lead to: a file with its contents, or a directory. -/
inductive FileKind
  | file (contents : Bytes)
  | directory
  deriving DecidableEq

/-- The entry without what is below it. -/
def FileEntry.kind : FileEntry → FileKind
  | .file contents => .file contents
  | .directory _ => .directory

namespace Directory

/-! ### The view -/

/-- The directory as a map. -/
def view (d : Directory) (way : List String) : Option FileKind :=
  (d.get? way).map FileEntry.kind

end Directory

/-- The entry as a map. Nothing is below a file. -/
def FileEntry.view : FileEntry → List String → Option FileKind
  | .directory inside, way => inside.view way
  | .file contents, [] => some (.file contents)
  | .file _, _ :: _ => none

@[simp] theorem FileEntry.view_nil (e : FileEntry) : e.view [] = some e.kind := by
  cases e <;> rfl

namespace Directory

variable {d inside : Directory} {e : FileEntry} {name other : String} {way : List String}
  {contents : Bytes}

/-- Seeing a file at the end of a way and getting it are the same. -/
theorem view_eq_file_iff : d.view way = some (.file contents) ↔
    d.get? way = some (.file contents) := by
  unfold view
  rcases d.get? way with _ | _ | _ <;> simp [FileEntry.kind]

@[simp] theorem view_nil (d : Directory) : d.view [] = some .directory := rfl

@[simp] theorem view_empty_cons : empty.view (name :: way) = none := rfl

theorem view_cons (d : Directory) (name : String) (way : List String) :
    d.view (name :: way) = (d.find? name).bind (·.view way) := by
  unfold view
  rw [get?]
  rcases d.find? name with _ | contents | inside
  · rfl
  · cases way <;> rfl
  · rfl

theorem view_put_self (d : Directory) (name : String) (e : FileEntry) (way : List String) :
    (d.put name e).view (name :: way) = e.view way := by
  simp [view_cons]

/-- Putting an entry changes what is seen under its own name only. -/
theorem view_put_of_ne (h : other ≠ name) (d : Directory) (e : FileEntry) (way : List String) :
    (d.put name e).view (other :: way) = d.view (other :: way) := by
  simp only [view_cons, find?_put_of_ne h]

/-- Nothing is below a file. -/
theorem view_append_of_file {rest : List String} (h : d.view way = some (.file contents))
    (hrest : rest ≠ []) : d.view (way ++ rest) = none := by
  induction way generalizing d with
  | nil => cases h
  | cons name way ih =>
      rw [view_cons] at h
      rw [List.cons_append, view_cons]
      rcases hfind : d.find? name with _ | c | inside
      · rfl
      · rw [hfind] at h
        cases way with
        | nil =>
            obtain ⟨other, rest, rfl⟩ := List.exists_cons_of_ne_nil hrest
            rfl
        | cons => cases h
      · rw [hfind] at h
        exact ih h

/-- Putting in what is there changes nothing. -/
theorem view_put_of_find? (h : d.find? name = some e) : (d.put name e).view = d.view := by
  funext way
  cases way with
  | nil => rfl
  | cons other way =>
      by_cases hother : other = name
      · rw [hother, view_put_self, view_cons, h, Option.bind_some]
      · exact view_put_of_ne hother ..

/-! ### Proper directories -/

/-- Each name is there once and can end a path. -/
def Proper : Directory → Prop
  | empty => True
  | file name _ rest => Path.isName name ∧ rest.find? name = none ∧ rest.Proper
  | folder name inside rest =>
      Path.isName name ∧ rest.find? name = none ∧ inside.Proper ∧ rest.Proper

instance decidableProper : (d : Directory) → Decidable d.Proper
  | empty => isTrue trivial
  | file _ _ rest =>
      have := decidableProper rest
      inferInstanceAs (Decidable (_ ∧ _ ∧ _))
  | folder _ inside rest =>
      have := decidableProper inside
      have := decidableProper rest
      inferInstanceAs (Decidable (_ ∧ _ ∧ _ ∧ _))

end Directory

/-- An entry that a proper directory may have. -/
def FileEntry.Proper : FileEntry → Prop
  | .file _ => True
  | .directory inside => inside.Proper

namespace Directory

variable {d inside : Directory} {e : FileEntry} {name other : String} {way : List String}
  {contents : Bytes}

theorem Proper.of_find? (h : d.Proper) (hfind : d.find? name = some e) :
    Path.isName name ∧ e.Proper := by
  induction d with
  | empty => cases hfind
  | file n contents rest ih =>
      obtain ⟨hn, -, hrest⟩ := h
      rw [find?] at hfind
      split at hfind
      · rename_i heq
        cases hfind
        exact ⟨heq ▸ hn, trivial⟩
      · exact ih hrest hfind
  | folder n inside rest _ ih =>
      obtain ⟨hn, -, hinside, hrest⟩ := h
      rw [find?] at hfind
      split at hfind
      · rename_i heq
        cases hfind
        exact ⟨heq ▸ hn, hinside⟩
      · exact ih hrest hfind

theorem find?_erase_self (d : Directory) (name : String) : (d.erase name).find? name = none := by
  induction d with
  | empty => rfl
  | file n contents rest ih =>
      by_cases hn : n = name <;> simp [erase, find?, hn, ih]
  | folder n inside rest _ ih =>
      by_cases hn : n = name <;> simp [erase, find?, hn, ih]

theorem find?_erase_eq_none (h : d.find? other = none) : (d.erase name).find? other = none := by
  by_cases hother : other = name
  · rw [hother, find?_erase_self]
  · rw [find?_erase_of_ne hother, h]

theorem Proper.erase (h : d.Proper) (name : String) : (d.erase name).Proper := by
  induction d with
  | empty => trivial
  | file n contents rest ih =>
      obtain ⟨hn, hfree, hrest⟩ := h
      rw [Directory.erase]
      split
      · exact ih hrest
      · exact ⟨hn, find?_erase_eq_none hfree, ih hrest⟩
  | folder n inside rest _ ih =>
      obtain ⟨hn, hfree, hinside, hrest⟩ := h
      rw [Directory.erase]
      split
      · exact ih hrest
      · exact ⟨hn, find?_erase_eq_none hfree, hinside, ih hrest⟩

theorem proper_put_iff : (d.put name e).Proper ↔
    Path.isName name ∧ (d.erase name).Proper ∧ e.Proper := by
  cases e with
  | file contents => simp [put, Proper, FileEntry.Proper, find?_erase_self]
  | directory inside =>
      simp only [put, Proper, FileEntry.Proper, find?_erase_self, true_and]
      rw [and_comm (a := inside.Proper)]

/-! ### Names -/

theorem mem_go_iff (d : Directory) :
    name ∈ (names.go d).map Prod.fst ↔ d.find? name ≠ none := by
  induction d with
  | empty => simp [names.go, find?]
  | file n contents rest ih =>
      by_cases hn : n = name
      · simp [names.go, find?, hn]
      · simpa [names.go, find?, hn, Ne.symm hn] using ih
  | folder n inside rest _ ih =>
      by_cases hn : n = name
      · simp [names.go, find?, hn]
      · simpa [names.go, find?, hn, Ne.symm hn] using ih

theorem mem_names_iff (d : Directory) : name ∈ d.names.map Prod.fst ↔ d.find? name ≠ none := by
  rw [← mem_go_iff]
  exact ((List.mergeSort_perm _ _).map Prod.fst).mem_iff

/-- A proper directory lists what it has. -/
theorem Proper.find?_of_mem_go (h : d.Proper) {isDirectory : Bool}
    (hmem : (name, isDirectory) ∈ names.go d) :
    ∃ e, d.find? name = some e ∧ (isDirectory = true ↔ e.kind = .directory) := by
  induction d with
  | empty => cases hmem
  | file n contents rest ih =>
      obtain ⟨-, hfree, hrest⟩ := h
      rcases List.mem_cons.1 hmem with heq | hmem
      · cases heq
        exact ⟨.file contents, by simp [find?], by simp [FileEntry.kind]⟩
      · have hne : n ≠ name := by
          rintro rfl
          exact (mem_go_iff rest).1 (List.mem_map_of_mem hmem) hfree
        simpa [find?, hne] using ih hrest hmem
  | folder n inside rest _ ih =>
      obtain ⟨-, hfree, -, hrest⟩ := h
      rcases List.mem_cons.1 hmem with heq | hmem
      · cases heq
        exact ⟨.directory inside, by simp [find?], by simp [FileEntry.kind]⟩
      · have hne : n ≠ name := by
          rintro rfl
          exact (mem_go_iff rest).1 (List.mem_map_of_mem hmem) hfree
        simpa [find?, hne] using ih hrest hmem

/-- What is listed under a name is found there, and the listing says rightly
whether it is a directory. -/
theorem Proper.find?_of_mem_names (h : d.Proper) {isDirectory : Bool}
    (hmem : (name, isDirectory) ∈ d.names) :
    ∃ e, d.find? name = some e ∧ (isDirectory = true ↔ e.kind = .directory) :=
  h.find?_of_mem_go (List.mem_mergeSort.1 hmem)

theorem Proper.nodup_names (h : d.Proper) : (d.names.map Prod.fst).Nodup := by
  have hgo : ((names.go d).map Prod.fst).Nodup := by
    induction d with
    | empty => exact List.nodup_nil
    | file n contents rest ih =>
        obtain ⟨-, hfree, hrest⟩ := h
        exact List.nodup_cons.2 ⟨fun hmem => (mem_go_iff rest).1 hmem hfree, ih hrest⟩
    | folder n inside rest _ ih =>
        obtain ⟨-, hfree, -, hrest⟩ := h
        exact List.nodup_cons.2 ⟨fun hmem => (mem_go_iff rest).1 hmem hfree, ih hrest⟩
  exact ((List.mergeSort_perm _ _).map Prod.fst).nodup_iff.2 hgo

/-! ### Files -/

/-- The files below the directory, with the names that lead to them. -/
def files (d : Directory) : List (List String × Bytes) :=
  d.descendants.filterMap fun entry => entry.2.map (entry.1, ·)

@[simp] theorem files_empty : empty.files = [] := rfl

@[simp] theorem files_file (name : String) (contents : Bytes) (rest : Directory) :
    (file name contents rest).files = ([name], contents) :: rest.files := rfl

@[simp] theorem files_folder (name : String) (inside rest : Directory) :
    (folder name inside rest).files =
      inside.files.map (Prod.map (name :: ·) id) ++ rest.files := by
  simp only [files, descendants, List.cons_append, List.filterMap_cons, Option.map_none,
    List.filterMap_append, List.filterMap_map, List.map_filterMap]
  congr 2
  funext entry
  rcases entry with ⟨way, _ | contents⟩ <;> rfl

theorem view_cons_eq_none (h : d.find? name = none) (way : List String) :
    d.view (name :: way) = none := by
  rw [view_cons, h, Option.bind_none]

/-- The files of a proper directory are those of its view. -/
theorem Proper.mem_files (h : d.Proper) :
    (way, contents) ∈ d.files ↔ d.view way = some (.file contents) := by
  induction d generalizing way with
  | empty => cases way <;> simp
  | file n c rest ih =>
      obtain ⟨-, hfree, hrest⟩ := h
      cases way with
      | nil => simp [ih hrest]
      | cons name way =>
          by_cases hn : n = name
          · subst hn
            have hview : (file n c rest).view (n :: way) = (FileEntry.file c).view way := by
              simp [view_cons, find?]
            rw [files_file, List.mem_cons, ih hrest, view_cons_eq_none hfree, hview]
            cases way <;> simp [FileEntry.view, eq_comm]
          · have hview : (file n c rest).view (name :: way) = rest.view (name :: way) := by
              simp [view_cons, find?, hn]
            simp [hview, ih hrest, Ne.symm hn]
  | folder n inside rest ihinside ih =>
      obtain ⟨-, hfree, hinside, hrest⟩ := h
      cases way with
      | nil => simp [ih hrest]
      | cons name way =>
          by_cases hn : n = name
          · subst hn
            have hview : (folder n inside rest).view (n :: way) = inside.view way := by
              simp [view_cons, find?, FileEntry.view]
            simp [hview, ihinside hinside, ih hrest, view_cons_eq_none hfree]
          · have hview : (folder n inside rest).view (name :: way) = rest.view (name :: way) := by
              simp [view_cons, find?, hn]
            simp [hview, ih hrest, hn]

/-- No two files of a proper directory have the same way. -/
theorem Proper.nodup_files (h : d.Proper) : (d.files.map Prod.fst).Nodup := by
  -- Nothing in the rest of a listing starts with the name before it.
  have hfiles : ∀ {rest : Directory} {n : String} {way : List String}, rest.Proper →
      rest.find? n = none → n :: way ∉ rest.files.map Prod.fst := by
    intro rest n way hrest hfree hmem
    obtain ⟨⟨w, contents⟩, hmem, hw⟩ := List.mem_map.1 hmem
    have hview := hrest.mem_files.1 hmem
    rw [show w = n :: way from hw, view_cons_eq_none hfree] at hview
    cases hview
  induction d with
  | empty => exact List.nodup_nil
  | file n contents rest ih =>
      obtain ⟨-, hfree, hrest⟩ := h
      exact List.nodup_cons.2 ⟨hfiles hrest hfree, ih hrest⟩
  | folder n inside rest ihinside ih =>
      obtain ⟨-, hfree, hinside, hrest⟩ := h
      rw [files_folder, List.map_append, List.map_map]
      refine List.nodup_append.2 ⟨?_, ih hrest, ?_⟩
      · have hmap : Prod.fst ∘ Prod.map (n :: ·) id =
            (n :: ·) ∘ (Prod.fst : List String × Bytes → List String) := rfl
        rw [hmap, ← List.map_map]
        exact (ihinside hinside).map (List.cons_injective)
      · intro a ha b hb heq
        obtain ⟨entry, -, rfl⟩ := List.mem_map.1 ha
        exact hfiles hrest hfree (heq ▸ hb)

end Directory

end JvmOptimizer
