import JvmOptimizer.Batch
import JvmOptimizer.Proofs.FileSystem.Operations
import JvmOptimizer.Proofs.Steps

/-!
# Tasks on single files

What copying and optimizing one file do to the file system, if they succeed: a file is
written at the location of the target, directories may appear, and nothing else
changes.

Optimizing may also fail and be followed by a copy. If that copy succeeds, it was the
class file that could not be optimized (`optimizeBytes_eq_error_of_copy`): whatever
keeps the result from being written keeps the copy from being written, too.
-/

namespace JvmOptimizer

open Steps FileSystem

variable {fs fs' fs₁ : FileSystem} {p source target : Path} {contents bytes : Bytes}
  {settings : Settings} {e : Failure} {written : List String → Prop}

namespace FileTask

/-! ### Reading, writing and making directories -/

theorem read_of_some (h : fs.contents? p = some contents) :
    read p fs = (.ok contents, fs) := by
  simp only [read, bind_apply, get_apply, h]
  rfl

theorem read_of_none (h : fs.contents? p = none) : read p fs = (.error .io, fs) := by
  simp only [read, bind_apply, get_apply, h]
  rfl

/-- Reading leaves the file system as it is. -/
theorem read_eq_ok (h : read p fs = (.ok contents, fs')) :
    fs.contents? p = some contents ∧ fs = fs' := by
  rcases hread : fs.contents? p with _ | c
  · rw [read_of_none hread] at h
    cases h
  · rw [read_of_some hread] at h
    cases h
    exact ⟨rfl, rfl⟩

theorem write_of_some (h : fs.write? p contents = some fs') :
    write p contents fs = (.ok (), fs') := by
  simp only [write, bind_apply, get_apply, h]
  rfl

theorem write_of_none (h : fs.write? p contents = none) :
    write p contents fs = (.error .io, fs) := by
  simp only [write, bind_apply, get_apply, h]
  rfl

theorem write_eq_ok (h : write p contents fs = (.ok (), fs')) :
    fs.write? p contents = some fs' := by
  rcases hwrite : fs.write? p contents with _ | c
  · rw [write_of_none hwrite] at h
    cases h
  · rw [write_of_some hwrite] at h
    cases h
    rfl

/-- Making directories keeps those that were made even where it fails in the end.
-/
theorem makeDirectories_apply (p : Path) (fs : FileSystem) : makeDirectories p fs =
    (if (fs.makeDirectories p).1 then .ok () else .error .io, (fs.makeDirectories p).2) := by
  simp only [makeDirectories, bind_apply, get_apply]
  rcases fs.makeDirectories p with ⟨_ | _, fs'⟩ <;> rfl

/-- Making directories writes no file, so any set of files may be given as the one
that was written. -/
theorem keeps_makeDirectories (written : List String → Prop) (p : Path) (fs : FileSystem) :
    fs.Keeps written (makeDirectories p fs).2 := by
  rw [makeDirectories_apply]
  exact FileSystem.keeps_makeDirectories ..

/-- The directory that a file is going to lie in is made, unless its path has
none. -/
theorem makeParent_cases (p : Path) :
    makeParent p = pure () ∨ ∃ parent, makeParent p = makeDirectories parent := by
  unfold makeParent
  split
  · exact .inr ⟨_, rfl⟩
  · exact .inl rfl

theorem keeps_makeParent (written : List String → Prop) (p : Path) (fs : FileSystem) :
    fs.Keeps written (makeParent p fs).2 := by
  rcases makeParent_cases p with heq | ⟨parent, heq⟩
  · rw [heq]
    exact Keeps.refl ..
  · rw [heq]
    exact keeps_makeDirectories ..

/-- The parent of a path is made in the same way a second time. -/
theorem makeParent_again (p : Path) (fs : FileSystem) :
    (makeParent p (makeParent p fs).2).1 = (makeParent p fs).1 ∧
      (makeParent p (makeParent p fs).2).2.root.view = (makeParent p fs).2.root.view := by
  rcases makeParent_cases p with heq | ⟨parent, heq⟩
  · rw [heq]
    exact ⟨rfl, rfl⟩
  · obtain ⟨hmade, hview⟩ := FileSystem.makeDirectories_again fs parent
    simp only [heq, makeDirectories_apply, hmade, hview, and_self]

theorem inFile_eq_ok {α : Type} {task : FileTask α} {a : α}
    (h : inFile p task fs = (.ok a, fs')) : task fs = (.ok a, fs') := by
  rcases htask : task fs with ⟨cause | b, fs₁⟩
  · rw [inFile, tryCatch_of_error htask] at h
    cases h
  · rw [inFile, tryCatch_of_ok htask] at h
    exact h

/-- Naming the file in an error changes the error only, never what was done before
it. -/
theorem inFile_eq_error {α : Type} {task : FileTask α}
    (h : inFile p task fs = (.error e, fs')) : ∃ cause, task fs = (.error cause, fs') := by
  rcases htask : task fs with ⟨cause | b, fs₁⟩
  · rw [inFile, tryCatch_of_error htask] at h
    cases h
    exact ⟨cause, rfl⟩
  · rw [inFile, tryCatch_of_ok htask] at h
    cases h

/-! ### Copying -/

/-- A file is written at one location, and read from there in the end. -/
theorem keeps_of_write?_of_makeParent (hparent : makeParent target fs = (.ok (), fs₁))
    (hwrite : fs₁.write? target contents = some fs') :
    fs.Keeps (· = fs.location target) fs' ∧
      fs'.root.view (fs.location target) = some (.file contents) := by
  have hkeeps := keeps_makeParent (· = fs.location target) target fs
  rw [hparent] at hkeeps
  have hwritten := keeps_of_write? hwrite
  rw [hkeeps.location] at hwritten
  refine ⟨hkeeps.trans hwritten, ?_⟩
  rw [(write?_spec hwrite).2.1, hkeeps.location, Function.update_self]

/-- What copying does in turn: the parent is made, the source is read, the target
is written. A file that is copied onto itself is emptied before it is read. -/
theorem copy_eq_ok (h : copy source target fs = (.ok (), fs')) : ∃ fs₁ contents,
    makeParent target fs = (.ok (), fs₁) ∧ fs₁.contents? source = some contents ∧
      fs₁.write? target
        (if fs₁.locate? source = fs₁.locate? target then [] else contents) = some fs' := by
  obtain ⟨⟨⟩, fs₁, hparent, h⟩ := bind_eq_ok.1 h
  obtain ⟨contents, _, hread, h⟩ := bind_eq_ok.1 (inFile_eq_ok h)
  obtain ⟨hcontents, rfl⟩ := read_eq_ok hread
  obtain ⟨_, _, hget, h⟩ := bind_eq_ok.1 h
  cases hget
  exact ⟨fs₁, contents, hparent, hcontents, write_eq_ok h⟩

/-- A copy of a file to another location has its contents. -/
theorem copy_spec (hfile : fs.root.view (fs.location source) = some (.file contents))
    (hne : fs.location source ≠ fs.location target)
    (h : copy source target fs = (.ok (), fs')) :
    fs.Keeps (· = fs.location target) fs' ∧
      fs'.root.view (fs.location target) = some (.file contents) := by
  obtain ⟨fs₁, c, hparent, hread, hwrite⟩ := copy_eq_ok h
  have hkeeps := keeps_makeParent (fun _ => False) target fs
  rw [hparent] at hkeeps
  have hc : c = contents := by
    have hview := (contents?_eq_some_iff.1 hread).2
    rw [hkeeps.location, hkeeps.file id, hfile] at hview
    cases hview
    rfl
  have hlocate : fs₁.locate? source ≠ fs₁.locate? target := by
    rw [locate?_of_contents? hread]
    intro heq
    have hlocation := locate?_eq_location heq.symm
    rw [hkeeps.location, hkeeps.location] at hlocation
    exact hne hlocation
  rw [if_neg hlocate, hc] at hwrite
  exact keeps_of_write?_of_makeParent hparent hwrite

end FileTask

open FileTask

/-! ### Optimizing -/

/-- What optimizing a file does in turn. The source is read before the parent of
the target is made, so a class that cannot be optimized leaves no directory
behind. -/
theorem optimizeFile_eq_ok {report : ClassReport}
    (h : optimizeFile settings source target fs = (.ok report, fs')) : ∃ contents bytes fs₁,
    fs.contents? source = some contents ∧ optimizeBytes settings contents = .ok (bytes, report) ∧
      makeParent target fs = (.ok (), fs₁) ∧ fs₁.write? target bytes = some fs' := by
  obtain ⟨⟨⟩, _, hcheck, h⟩ := bind_eq_ok.1 h
  obtain ⟨-, rfl⟩ := ofExcept_eq_ok.1 hcheck
  obtain ⟨contents, _, hread, h⟩ := bind_eq_ok.1 (inFile_eq_ok h)
  obtain ⟨hcontents, rfl⟩ := read_eq_ok hread
  obtain ⟨⟨bytes, r⟩, _, hbytes, h⟩ := bind_eq_ok.1 h
  obtain ⟨hresult, rfl⟩ := ofExcept_eq_ok.1 hbytes
  obtain ⟨⟨⟩, fs₁, hparent, h⟩ := bind_eq_ok.1 h
  obtain ⟨⟨⟩, _, hwrite, h⟩ := bind_eq_ok.1 h
  cases h
  exact ⟨contents, bytes, fs₁, hcontents, hresult, hparent, write_eq_ok hwrite⟩

/-- Why a file cannot be optimized with valid settings: it is not there, it is no
class file, or there is no place for the result. -/
theorem optimizeFile_eq_error (hvalid : settings.check = .ok ())
    (h : optimizeFile settings source target fs = (.error e, fs')) :
    (fs.contents? source = none ∧ fs' = fs) ∨
    (∃ contents cause, fs.contents? source = some contents ∧
      optimizeBytes settings contents = .error cause ∧ fs' = fs) ∨
    (∃ cause, makeParent target fs = (.error cause, fs')) ∨
    (∃ bytes, makeParent target fs = (.ok (), fs') ∧ fs'.write? target bytes = none) := by
  -- The settings are valid, so the first thing that can fail is reading the source.
  rcases bind_eq_error.1 h with hcheck | ⟨⟨⟩, _, hcheck, h⟩
  · rw [(ofExcept_eq_error hcheck).1] at hvalid
    cases hvalid
  obtain ⟨-, rfl⟩ := ofExcept_eq_ok.1 hcheck
  obtain ⟨cause, h⟩ := inFile_eq_error h
  rcases hread : fs.contents? source with _ | contents
  · refine .inl ⟨rfl, ?_⟩
    rw [bind_apply, read_of_none hread] at h
    cases h
    rfl
  rw [bind_apply, read_of_some hread] at h
  rcases bind_eq_error.1 h with hbytes | ⟨⟨bytes, r⟩, _, hbytes, h⟩
  · obtain ⟨hresult, rfl⟩ := ofExcept_eq_error hbytes
    exact .inr (.inl ⟨contents, cause, rfl, hresult, rfl⟩)
  obtain ⟨-, rfl⟩ := ofExcept_eq_ok.1 hbytes
  rcases bind_eq_error.1 h with hparent | ⟨⟨⟩, fs₁, hparent, h⟩
  · exact .inr (.inr (.inl ⟨cause, hparent⟩))
  -- All that is left to fail is the write itself, behind the parent that was made.
  rcases hwrite : fs₁.write? target bytes with _ | fs₂
  · rw [bind_apply, write_of_none hwrite] at h
    cases h
    exact .inr (.inr (.inr ⟨bytes, hparent, hwrite⟩))
  · rw [bind_apply, write_of_some hwrite] at h
    cases h

/-- If a copy succeeds where optimizing has failed, the reason was in the file. -/
theorem optimizeBytes_eq_error_of_copy (hvalid : settings.check = .ok ())
    (hwalks : fs.Walks (fs.lead source ++ source.segments.dropLast))
    (hfile : fs.root.view (fs.location source) = some (.file contents))
    (h : optimizeFile settings source target fs = (.error e, fs₁))
    (hcopy : copy source target fs₁ = (.ok (), fs')) :
    fs₁ = fs ∧ ∃ cause, optimizeBytes settings contents = .error cause := by
  -- The copy that follows repeats the steps of the attempt. It succeeds, so the only step
  -- of the attempt that can have failed is the one it does not repeat.
  obtain ⟨fs₂, c, hparent, hread, hwrite⟩ := copy_eq_ok hcopy
  rcases optimizeFile_eq_error hvalid h with ⟨hnone, -⟩ | ⟨c', cause, hread', hbytes, hfs⟩ |
    ⟨cause, hparent'⟩ | ⟨bytes, hparent', hwrite'⟩
  · -- the copy shows that the path can be read, and its way was there before
    obtain ⟨⟨husable, hname, -⟩, -⟩ := contents?_eq_some_iff.1 hread
    have hsome := contents?_eq_some_iff.2 ⟨⟨husable, hname, hwalks⟩, hfile⟩
    cases hnone.symm.trans hsome
  · have hview := (contents?_eq_some_iff.1 hread').2
    rw [hfile] at hview
    cases hview
    exact ⟨hfs, cause, hbytes⟩
  · have hagain := (makeParent_again target fs).1
    rw [hparent', hparent] at hagain
    cases hagain
  · -- the target is as it was when writing to it failed
    have hview := (makeParent_again target fs).2
    have hkeeps := keeps_makeParent (fun _ => False) target fs₁
    rw [hparent'] at hview
    rw [hparent] at hview hkeeps
    have hsome := (isSome_write?_congr hkeeps.workingDirectory hview target _ bytes).1
      (Option.isSome_iff_exists.2 ⟨fs', hwrite⟩)
    rw [hwrite'] at hsome
    cases hsome

end JvmOptimizer
