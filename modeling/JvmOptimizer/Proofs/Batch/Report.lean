import Mathlib.Algebra.BigOperators.Group.List.Basic
import Mathlib.Algebra.GroupWithZero.Nat
import JvmOptimizer.Batch

/-!
# Reports on trees

What is due to a single file of a tree follows from its name and its contents: what its
mirror contains, and how it counts. The report on a tree is the sum over its files
(`BatchReport.ofFiles`), so it does not depend on the order in which they are visited.
-/

namespace JvmOptimizer

/-! ### What is due to a file -/

/-- The last of the names that lead to a file. -/
def fileName (way : List String) : String := way.getLast?.getD ""

namespace Settings

variable (s : Settings) (name : String) (contents : Bytes)

/-- Is a file of this name to be optimized? -/
def covers : Bool := isClassName name && !s.isExcluded name

/-- What optimizing a file gives, if it is to be optimized and can be. -/
def attempt? : Option (Bytes × ClassReport) :=
  if s.covers name then (optimizeBytes s contents).toOption else none

/-- What the mirror of a file contains. -/
def mirror : Bytes := ((s.attempt? name contents).map (·.1)).getD contents

/-- How many methods of a file are rewritten. -/
def changes : Nat := ((s.attempt? name contents).map (·.2.changed)).getD 0

/-- Is the file to be optimized and cannot be? -/
def fails : Bool := s.covers name && (s.attempt? name contents).isNone

variable {s name contents}

theorem isClassName_of_covers (h : s.covers name) : isClassName name := by
  simp only [covers, Bool.and_eq_true] at h
  exact h.1

/-- A file that the settings leave out is not even read as a class. -/
theorem attempt?_of_not_covers (h : s.covers name = false) : s.attempt? name contents = none := by
  simp [attempt?, h]

theorem attempt?_of_ok {result : Bytes × ClassReport} (hcovers : s.covers name)
    (h : optimizeBytes s contents = .ok result) : s.attempt? name contents = some result := by
  simp [attempt?, hcovers, h, Except.toOption]

/-- A class that cannot be optimized gives no result; the caller then falls back
to the contents it was given. -/
theorem attempt?_of_error {cause : Failure} (hcovers : s.covers name)
    (h : optimizeBytes s contents = .error cause) : s.attempt? name contents = none := by
  simp [attempt?, hcovers, h, Except.toOption]

/-- Where there is no result, the copy in the output has the bytes of the input.
-/
theorem mirror_of_none (h : s.attempt? name contents = none) :
    s.mirror name contents = contents := by
  simp [mirror, h]

theorem mirror_of_some {result : Bytes × ClassReport} (h : s.attempt? name contents = some result) :
    s.mirror name contents = result.1 := by
  simp [mirror, h]

end Settings

namespace BatchReport

instance : Zero BatchReport := ⟨{}⟩

instance : Add BatchReport where
  add a b :=
    { optimized := a.optimized + b.optimized
      copied := a.copied + b.copied
      failed := a.failed + b.failed
      methodsChanged := a.methodsChanged + b.methodsChanged }

variable {a b : BatchReport}

theorem add_def (a b : BatchReport) : a + b =
    ⟨a.optimized + b.optimized, a.copied + b.copied, a.failed + b.failed,
      a.methodsChanged + b.methodsChanged⟩ := rfl

theorem zero_def : (0 : BatchReport) = ⟨0, 0, 0, 0⟩ := rfl

instance : AddCommMonoid BatchReport where
  add_assoc a b c := by simp only [add_def, Nat.add_assoc]
  zero_add a := by simp only [add_def, zero_def, Nat.zero_add]
  add_zero a := by simp only [add_def, zero_def, Nat.add_zero]
  add_comm a b := by simp only [add_def, Nat.add_comm]
  nsmul := nsmulRec

/-- The report on one file. -/
def ofFile (s : Settings) (name : String) (contents : Bytes) : BatchReport where
  optimized := if 0 < s.changes name contents then 1 else 0
  copied := if isClassName name && !s.fails name contents && s.changes name contents = 0
    then 1 else 0
  failed := if s.fails name contents then 1 else 0
  methodsChanged := s.changes name contents

variable {s : Settings} {files : List (List String × Bytes)} {name : String}
  {contents bytes : Bytes}

/-- What is left out counts as copied, but only if its name is that of a class:
other files are not counted at all. -/
theorem ofFile_of_not_covers (h : s.covers name = false) :
    ofFile s name contents = { copied := if isClassName name then 1 else 0 } := by
  simp [ofFile, Settings.changes, Settings.fails, Settings.attempt?_of_not_covers h, h]

/-- A class that was optimized counts as such only if a method changed. Otherwise
it counts as copied, although it was written anew. -/
theorem ofFile_of_ok {result : Bytes × ClassReport} (hcovers : s.covers name)
    (h : optimizeBytes s contents = .ok result) : ofFile s name contents =
      if 0 < result.2.changed then { optimized := 1, methodsChanged := result.2.changed }
      else { copied := 1 } := by
  have hclass := Settings.isClassName_of_covers hcovers
  rcases Nat.eq_zero_or_pos result.2.changed with hchanged | hchanged
  · simp [ofFile, Settings.changes, Settings.fails, Settings.attempt?_of_ok hcovers h, hclass,
      hchanged]
  · simp [ofFile, Settings.changes, Settings.fails, Settings.attempt?_of_ok hcovers h, hchanged,
      Nat.ne_of_gt hchanged]

theorem ofFile_of_error {cause : Failure} (hcovers : s.covers name)
    (h : optimizeBytes s contents = .error cause) : ofFile s name contents = { failed := 1 } := by
  simp [ofFile, Settings.changes, Settings.fails, Settings.attempt?_of_error hcovers h, hcovers]

/-- A class file is optimized, copied or has failed. -/
theorem total_ofFile (s : Settings) (name : String) (contents : Bytes) :
    (ofFile s name contents).optimized + (ofFile s name contents).copied +
      (ofFile s name contents).failed = if isClassName name then 1 else 0 := by
  by_cases hcovers : s.covers name
  · rw [if_pos (Settings.isClassName_of_covers hcovers)]
    rcases h : optimizeBytes s contents with cause | result
    · simp [ofFile_of_error hcovers h]
    · rw [ofFile_of_ok hcovers h]
      split <;> rfl
  · simp [ofFile_of_not_covers (Bool.eq_false_iff.2 hcovers)]

/-- The report on several files, each given with the names that lead to it. -/
def ofFiles (s : Settings) (files : List (List String × Bytes)) : BatchReport :=
  (files.map fun file => ofFile s (fileName file.1) file.2).sum

theorem ofFiles_cons (file : List String × Bytes) : ofFiles s (file :: files) =
    ofFile s (fileName file.1) file.2 + ofFiles s files := List.sum_cons

/-- Reports of disjoint groups of files add up. This is what joins the report of
one directory entry to that of the entries before it. -/
theorem ofFiles_filter_or {P Q : List String × Bytes → Bool}
    (h : ∀ file ∈ files, P file = true → Q file = false) :
    ofFiles s (files.filter fun file => P file || Q file) =
      ofFiles s (files.filter P) + ofFiles s (files.filter Q) := by
  induction files with
  | nil => rfl
  | cons file files ih =>
      rw [List.forall_mem_cons] at h
      have ih := ih h.2
      rcases hP : P file with _ | _ <;> rcases hQ : Q file with _ | _
      · simp [hP, hQ, ih]
      · simp [hP, hQ, ih, ofFiles_cons, add_left_comm]
      · simp [hP, hQ, ih, ofFiles_cons, add_assoc]
      · rw [h.1 hP] at hQ
        cases hQ

/-- One file is reported on where its names are selected. -/
theorem ofFiles_filter_eq (hnodup : (files.map Prod.fst).Nodup) {file : List String × Bytes}
    (hfile : file ∈ files) : ofFiles s (files.filter fun other => other.1 == file.1) =
      ofFile s (fileName file.1) file.2 := by
  have hfilter : (files.filter fun other => other.1 == file.1) = [file] := by
    induction files with
    | nil => cases hfile
    | cons other files ih =>
        obtain ⟨hother, hnodup⟩ := List.nodup_cons.1 hnodup
        rcases List.mem_cons.1 hfile with rfl | hfile
        · rw [List.filter_cons, if_pos (beq_self_eq_true _), List.filter_eq_nil_iff.2]
          intro x hx heq
          exact hother (eq_of_beq heq ▸ List.mem_map_of_mem hx)
        · rw [List.filter_cons_of_neg, ih hnodup hfile]
          intro heq
          exact hother (eq_of_beq heq ▸ List.mem_map_of_mem hfile)
  rw [hfilter]
  exact add_zero _

/-- Every class file is counted once, as optimized, copied or failed. -/
theorem total_ofFiles (s : Settings) (files : List (List String × Bytes)) :
    (ofFiles s files).optimized + (ofFiles s files).copied + (ofFiles s files).failed =
      files.countP fun file => isClassName (fileName file.1) := by
  induction files with
  | nil => rfl
  | cons file files ih =>
      rw [ofFiles_cons, List.countP_cons, ← ih, ← total_ofFile s (fileName file.1) file.2]
      simp only [add_def]
      omega

/-- The classes counted as optimized are those with a changed method. -/
theorem optimized_ofFiles (s : Settings) (files : List (List String × Bytes)) :
    (ofFiles s files).optimized =
      files.countP fun file => 0 < s.changes (fileName file.1) file.2 := by
  induction files with
  | nil => rfl
  | cons file files ih =>
      rw [ofFiles_cons, List.countP_cons, ← ih, Nat.add_comm]
      simp [add_def, ofFile]

theorem failed_ofFiles (s : Settings) (files : List (List String × Bytes)) :
    (ofFiles s files).failed = files.countP fun file => s.fails (fileName file.1) file.2 := by
  induction files with
  | nil => rfl
  | cons file files ih =>
      rw [ofFiles_cons, List.countP_cons, ← ih, Nat.add_comm]
      simp [add_def, ofFile]

/-- The changed methods of all classes are counted together. -/
theorem methodsChanged_ofFiles (s : Settings) (files : List (List String × Bytes)) :
    (ofFiles s files).methodsChanged =
      (files.map fun file => s.changes (fileName file.1) file.2).sum := by
  induction files with
  | nil => rfl
  | cons file files ih =>
      rw [ofFiles_cons, List.map_cons, List.sum_cons, ← ih]
      rfl

end BatchReport

end JvmOptimizer
