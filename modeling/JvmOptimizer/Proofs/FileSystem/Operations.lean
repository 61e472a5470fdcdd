import JvmOptimizer.Proofs.FileSystem.Place

/-!
# What the operations on files do

Every path has a location (`FileSystem.location`), whether something is there or not.
If all directories on the way are there, the operations are about what is at that
location: reading gives it (`contents?_eq_some_iff`, `directory?_spec`), writing
replaces it and nothing else (`write?_spec`), and making directories adds directories
(`makeDirectories_spec`).

`FileSystem.Keeps` sums up what a task may do: files change only at given locations,
and directories stay.
-/

namespace JvmOptimizer

namespace Path

variable {p : Path} {name : String}

theorem segments_of_name? (h : p.name? = some name) :
    p.segments = p.segments.dropLast ++ [name] ∧ isName name := by
  obtain ⟨hlast, hname⟩ := Option.filter_eq_some_iff.1 h
  obtain ⟨init, hinit⟩ := List.getLast?_eq_some_iff.1 hlast
  exact ⟨by rw [hinit, List.dropLast_concat], hname⟩

/-- A name below a path comes behind its segments, without a last slash. -/
theorem segments_child (p : Path) (name : String) : ∃ init,
    (p.child name).segments = init ++ [name] ∧
      (p.segments = init ∨ p.segments = init ++ [""]) := by
  unfold child
  split
  · rename_i hlast
    obtain ⟨init, hinit⟩ := List.getLast?_eq_some_iff.1 hlast
    exact ⟨init, by simp [hinit], .inr hinit⟩
  · exact ⟨p.segments, rfl, .inl rfl⟩

@[simp] theorem absolute_child (p : Path) (name : String) :
    (p.child name).absolute = p.absolute := by
  unfold child
  split <;> rfl

end Path

namespace FileSystem

variable {fs fs' fs'' : FileSystem} {p : Path} {name : String} {contents : Bytes} {d : Directory}
  {e : FileEntry} {segments : List String}

/-! ### The way of a path -/

/-- The segments that lead to where a path starts. -/
def lead (fs : FileSystem) (p : Path) : List String :=
  if p.absolute then [] else fs.workingDirectory

/-- The names from the root to where a path leads, if it leads anywhere. -/
def location (fs : FileSystem) (p : Path) : List String :=
  Path.landing [] (fs.lead p ++ p.segments)

/-- Do the segments lead from one directory to the next? -/
def Walks (fs : FileSystem) (segments : List String) : Prop :=
  ∀ way, way <+: segments → fs.root.view (Path.landing [] way) = some .directory

theorem Walks.of_isPrefix (h : fs.Walks segments) {way : List String} (hway : way <+: segments) :
    fs.Walks way :=
  fun _ hstart => h _ (hstart.trans hway)

/-- One segment more can be walked when it leads to a directory from there. -/
theorem walks_concat {segment : String} : fs.Walks (segments ++ [segment]) ↔
    fs.Walks segments ∧
      fs.root.view (Path.landing [] (segments ++ [segment])) = some .directory := by
  constructor
  · intro h
    exact ⟨h.of_isPrefix (List.prefix_append ..), h _ (List.prefix_refl _)⟩
  · rintro ⟨h, hlast⟩ way hway
    rcases List.prefix_concat_iff.1 hway with rfl | hway
    · exact hlast
    · exact h way hway

theorem location_of_name? (h : p.name? = some name) : fs.location p =
    Path.landing [] (fs.lead p ++ p.segments.dropLast) ++ [name] := by
  obtain ⟨hsegments, hname⟩ := Path.segments_of_name? h
  unfold location
  rw [hsegments, ← List.append_assoc, Path.landing_append, List.dropLast_concat]
  exact Path.step_of_isName hname

theorem place?_eq (fs : FileSystem) (p : Path) (segments : List String) : fs.place? p segments =
    if p.isUsable then (Place.ofRoot fs.root).follow? (fs.lead p ++ segments) else none := by
  unfold place? start? Place.follow? lead
  rw [List.foldlM_append]

theorem place?_spec {place : Place} (h : fs.place? p segments = some place) :
    place.root.view = fs.root.view ∧
      place.location = Path.landing [] (fs.lead p ++ segments) ∧
      (fs.root.Proper → place.root.Proper) := by
  rw [place?_eq] at h
  split at h
  · exact Place.follow?_spec h
  · cases h

/-- A path leads to a place when it is usable and each of its segments leads to a
directory. -/
theorem isSome_place?_iff : (fs.place? p segments).isSome ↔
    p.isUsable ∧ fs.Walks (fs.lead p ++ segments) := by
  rw [place?_eq]
  split
  · rename_i husable
    simp only [husable, true_and]
    exact Place.isSome_follow?_iff
  · rename_i husable
    simp [husable]

/-! ### Reading -/

/-- Does the path name something, in a directory that is there? -/
def Opens (fs : FileSystem) (p : Path) : Prop :=
  p.isUsable ∧ p.name?.isSome ∧ fs.Walks (fs.lead p ++ p.segments.dropLast)

section Named

variable {place : Place}

theorem find?_of_name? (h : p.name? = some name) :
    fs.find? p = (fs.place? p p.segments.dropLast).bind (·.here.find? name) := by
  unfold find?
  rw [h]
  rfl

theorem find?_of_name?_eq_none (h : p.name? = none) :
    fs.find? p = (fs.place? p p.segments).map fun place => .directory place.here := by
  unfold find?
  rw [h]
  cases fs.place? p p.segments <;> rfl

theorem opens_of_place? (hname : p.name? = some name)
    (hplace : fs.place? p p.segments.dropLast = some place) : fs.Opens p := by
  obtain ⟨husable, hwalks⟩ := isSome_place?_iff.1 (Option.isSome_iff_exists.2 ⟨place, hplace⟩)
  exact ⟨husable, by simp [hname], hwalks⟩

theorem Opens.exists_place (h : fs.Opens p) : ∃ name place, p.name? = some name ∧
    fs.place? p p.segments.dropLast = some place := by
  obtain ⟨husable, hname, hwalks⟩ := h
  obtain ⟨name, hname⟩ := Option.isSome_iff_exists.1 hname
  obtain ⟨place, hplace⟩ := Option.isSome_iff_exists.1 (isSome_place?_iff.2 ⟨husable, hwalks⟩)
  exact ⟨name, place, hname, hplace⟩

theorem location_of_place? (hname : p.name? = some name)
    (hplace : fs.place? p p.segments.dropLast = some place) :
    fs.location p = place.location ++ [name] := by
  rw [location_of_name? hname, (place?_spec hplace).2.1]

/-- What is seen at the location of a path and below it is what its directory
holds under its last name. -/
theorem view_location (hname : p.name? = some name)
    (hplace : fs.place? p p.segments.dropLast = some place) (way : List String) :
    fs.root.view (fs.location p ++ way) = (place.here.find? name).bind (·.view way) := by
  rw [location_of_place? hname hplace, ← (place?_spec hplace).1, List.append_assoc,
    List.singleton_append, Place.view_root, Directory.view_cons]

end Named

/-- Reading a file gives what is at the location of its path. -/
theorem contents?_eq_some_iff : fs.contents? p = some contents ↔
    fs.Opens p ∧ fs.root.view (fs.location p) = some (.file contents) := by
  rcases hname : p.name? with _ | name
  · rw [contents?, find?_of_name?_eq_none hname]
    rcases fs.place? p p.segments with _ | place <;> simp [Opens, hname]
  rcases hplace : fs.place? p p.segments.dropLast with _ | place
  · have hopens : ¬fs.Opens p := fun h => by
      obtain ⟨_, place, -, hplace'⟩ := h.exists_place
      cases hplace.symm.trans hplace'
    simp [contents?, find?_of_name? hname, hplace, hopens]
  · have hlocation := view_location hname hplace []
    rw [List.append_nil] at hlocation
    rw [contents?, find?_of_name? hname, hplace, hlocation, Option.bind_some]
    rcases place.here.find? name with _ | _ | _ <;>
      simp [FileEntry.kind, opens_of_place? hname hplace]

/-- A directory that is read is what is below the location of its path. -/
theorem directory?_spec (h : fs.directory? p = some d) :
    (∀ way, fs.root.view (fs.location p ++ way) = d.view way) ∧
      fs.Walks (fs.lead p ++ p.segments) ∧ (fs.root.Proper → d.Proper) := by
  have hfind : fs.find? p = some (.directory d) := by
    unfold directory? at h
    rcases hfind : fs.find? p with _ | _ | _ <;> rw [hfind] at h <;> cases h
    rfl
  rcases hname : p.name? with _ | name
  · rw [find?_of_name?_eq_none hname] at hfind
    obtain ⟨place, hplace, heq⟩ := Option.map_eq_some_iff.1 hfind
    cases heq
    obtain ⟨hview, hlocation, hproper⟩ := place?_spec hplace
    refine ⟨fun way => ?_, ?_, fun hp => Place.proper_here (hproper hp)⟩
    · rw [location, ← hlocation, ← hview, Place.view_root]
    · exact (isSome_place?_iff.1 (Option.isSome_iff_exists.2 ⟨place, hplace⟩)).2
  · rw [find?_of_name? hname] at hfind
    obtain ⟨place, hplace, hfind⟩ := Option.bind_eq_some_iff.1 hfind
    have hlocation : ∀ way, fs.root.view (fs.location p ++ way) = d.view way := fun way => by
      rw [view_location hname hplace, hfind, Option.bind_some, FileEntry.view]
    have hsegments := (Path.segments_of_name? hname).1
    refine ⟨hlocation, ?_, fun hp => ?_⟩
    · rw [hsegments, ← List.append_assoc, walks_concat, List.append_assoc, ← hsegments]
      exact ⟨(opens_of_place? hname hplace).2.2, by simpa [location] using hlocation []⟩
    · exact ((Place.proper_here ((place?_spec hplace).2.2 hp)).of_find? hfind).2

theorem locate?_eq_location {found : List String} (h : fs.locate? p = some found) :
    found = fs.location p := by
  unfold locate? at h
  rcases hname : p.name? with _ | name
  · rw [hname] at h
    obtain ⟨place, hplace, hfound⟩ := Option.bind_eq_some_iff.1 h
    cases hfound
    exact (place?_spec hplace).2.1
  · rw [hname] at h
    obtain ⟨place, hplace, hfound⟩ := Option.bind_eq_some_iff.1 h
    split at hfound
    · cases hfound
      exact (location_of_place? hname hplace).symm
    · cases hfound

theorem locate?_of_contents? (h : fs.contents? p = some contents) :
    fs.locate? p = some (fs.location p) := by
  obtain ⟨hopens, hfile⟩ := contents?_eq_some_iff.1 h
  obtain ⟨name, place, hname, hplace⟩ := hopens.exists_place
  have hlocation := view_location hname hplace []
  rw [List.append_nil, hfile] at hlocation
  obtain ⟨e, hfind, -⟩ := Option.bind_eq_some_iff.1 hlocation.symm
  unfold locate?
  simp [hname, hplace, hfind, location_of_place? hname hplace]

/-! ### Writing -/

/-- **When a write succeeds**: the directory is there, no directory is in the way,
and the name is one that a file may get. -/
theorem isSome_write?_iff : (fs.write? p contents).isSome ↔
    fs.Opens p ∧ fs.root.view (fs.location p) ≠ some .directory ∧
      ∀ name ∈ p.name?, Path.isNewName name := by
  rcases hname : p.name? with _ | name
  · simp [write?, Opens, hname]
  rcases hplace : fs.place? p p.segments.dropLast with _ | place
  · have hopens : ¬fs.Opens p := by
      intro h
      obtain ⟨_, place, -, hplace'⟩ := h.exists_place
      cases hplace.symm.trans hplace'
    simp [write?, hname, hplace, hopens]
  have hlocation := view_location hname hplace []
  rw [List.append_nil] at hlocation
  rw [hlocation]
  unfold write?
  rcases hfind : place.here.find? name with _ | _ | _ <;>
    by_cases hnew : Path.isNewName name <;>
    simp [hname, hplace, hfind, hnew, opens_of_place? hname hplace, FileEntry.kind]

/-- Whether a file can be written depends only on what is where. -/
theorem isSome_write?_congr (hwd : fs'.workingDirectory = fs.workingDirectory)
    (hview : fs'.root.view = fs.root.view) (p : Path) (contents contents' : Bytes) :
    (fs'.write? p contents).isSome ↔ (fs.write? p contents').isSome := by
  simp only [isSome_write?_iff, Opens, Walks, location, lead, hwd, hview]

/-- Writing a file changes what is at one location. -/
theorem write?_spec (h : fs.write? p contents = some fs') :
    fs'.workingDirectory = fs.workingDirectory ∧
      fs'.root.view = Function.update fs.root.view (fs.location p) (some (.file contents)) ∧
      (fs.root.Proper → fs'.root.Proper) := by
  obtain ⟨name, hname, h⟩ := Option.bind_eq_some_iff.1 h
  obtain ⟨place, hplace, h⟩ := Option.bind_eq_some_iff.1 h
  obtain ⟨hfile, hnew, rfl⟩ : (∀ inside, place.here.find? name ≠ some (.directory inside)) ∧
      Path.isNewName name ∧ { fs with root := (place.put name (.file contents)).root } = fs' := by
    rcases hfind : place.here.find? name with _ | _ | _ <;> simp only [hfind] at h
    · split at h <;> cases h
      exact ⟨by simp, by assumption, rfl⟩
    · split at h <;> cases h
      exact ⟨by simp, by assumption, rfl⟩
    · cases h
  obtain ⟨hview, -, hproper⟩ := place?_spec hplace
  have hlocation := location_of_place? hname hplace
  have hput : ∀ w, (place.put name (.file contents)).root.view (fs.location p ++ w) =
      (FileEntry.file contents).view w := fun w => by
    rw [hlocation, List.append_assoc, List.singleton_append, Place.view_root_put_self]
  refine ⟨rfl, funext fun way => ?_, fun hp => ?_⟩
  · by_cases hway : fs.location p <+: way
    · obtain ⟨w, rfl⟩ := hway
      rw [hput]
      cases w with
      | nil => simp [FileEntry.kind]
      | cons other w =>
          -- Nothing was below the location, and nothing is below a file.
          rw [Function.update_of_ne (by simp), view_location hname hplace]
          rcases hfind : place.here.find? name with _ | _ | inside
          · rfl
          · rfl
          · exact absurd hfind (hfile inside)
    · rw [Function.update_of_ne (by rintro rfl; exact hway (List.prefix_refl _)), ← hview]
      exact Place.view_root_put_of_not_isPrefix (hlocation ▸ hway) _
  · have hisName : Path.isName name := by
      simp only [Path.isNewName, Bool.and_eq_true] at hnew
      exact hnew.1
    exact Place.proper_put (hproper hp) hisName trivial

/-! ### Making directories -/

/-- Making directories adds directories. -/
theorem makeDirectories_spec (fs : FileSystem) (p : Path) :
    (fs.makeDirectories p).2.workingDirectory = fs.workingDirectory ∧
      Grows fs.root.view (fs.makeDirectories p).2.root.view ∧
      (fs.root.Proper → (fs.makeDirectories p).2.root.Proper) := by
  unfold makeDirectories
  split
  · exact ⟨rfl, Grows.refl _, id⟩
  split
  · exact ⟨rfl, Grows.refl _, id⟩
  split
  · exact ⟨rfl, Grows.refl _, id⟩
  · rename_i start hstart
    obtain ⟨hview, -, hproper⟩ := Place.follow?_spec hstart
    obtain ⟨hgrows, hproper'⟩ :=
      Place.makeAll_spec start (if p.endsInDot then p.stem.dropLast else p.stem)
    exact ⟨rfl, hview ▸ hgrows, fun hp => hproper' (hproper hp)⟩

/-- Making directories once more makes nothing and fails if it failed before. -/
theorem makeDirectories_again (fs : FileSystem) (p : Path) :
    ((fs.makeDirectories p).2.makeDirectories p).1 = (fs.makeDirectories p).1 ∧
      ((fs.makeDirectories p).2.makeDirectories p).2.root.view =
        (fs.makeDirectories p).2.root.view := by
  by_cases hempty : p.isEmpty
  · simp [makeDirectories, hempty]
  by_cases husable : p.isUsable
  swap
  · simp [makeDirectories, hempty, husable]
  rcases hstart : fs.start? p with _ | start
  · simp [makeDirectories, hempty, husable, hstart]
  obtain ⟨made, hmade⟩ : ∃ made, made = if p.endsInDot then p.stem.dropLast else p.stem := ⟨_, rfl⟩
  -- The path starts at the same place as before.
  obtain ⟨start', hstart', hview', hlocation'⟩ : ∃ start',
      { fs with root := (start.makeAll made).1.root : FileSystem }.start? p = some start' ∧
        start'.root.view = (start.makeAll made).1.root.view ∧
        start'.location = start.location := by
    obtain ⟨hview, hlocation, -⟩ := Place.follow?_spec hstart
    have hgrows := (Place.makeAll_spec start made).1
    have hwalks := Place.isSome_follow?_iff.1 (Option.isSome_iff_exists.2 ⟨start, hstart⟩)
    have hsome : ({ fs with root := (start.makeAll made).1.root : FileSystem }.start? p).isSome :=
      Place.isSome_follow?_iff.2 fun way hway =>
        (hview ▸ hgrows).directory (hwalks way hway)
    obtain ⟨start', hstart'⟩ := Option.isSome_iff_exists.1 hsome
    obtain ⟨hview', hlocation', -⟩ := Place.follow?_spec hstart'
    exact ⟨start', hstart', hview', hlocation'.trans hlocation.symm⟩
  obtain ⟨hview, hlocation, hreached⟩ := Place.makeAll_again hview' hlocation'
  have hfound : ∀ rest, ((start'.makeAll made).1.follow? rest).isSome =
      ((start.makeAll made).1.follow? rest).isSome := fun rest => by
    rw [Bool.eq_iff_iff, Place.isSome_follow?_iff, Place.isSome_follow?_iff, hview, hlocation]
  simp only [makeDirectories, hempty, husable, hstart, ← hmade, Bool.false_eq_true, if_false,
    Bool.not_true, hstart', hreached, hfound, hview, and_self]

/-! ### Names below a path -/

theorem lead_child (fs : FileSystem) (p : Path) (name : String) :
    fs.lead (p.child name) = fs.lead p := by
  simp [lead]

theorem location_child_eq_step (fs : FileSystem) (p : Path) (name : String) :
    fs.location (p.child name) = Path.step (fs.location p) name := by
  obtain ⟨init, hchild, hp⟩ := Path.segments_child p name
  -- A last slash leads nowhere.
  have hinit : fs.location p = Path.landing [] (fs.lead p ++ init) := by
    rcases hp with hp | hp
    · rw [location, hp]
    · rw [location, hp, ← List.append_assoc, Path.landing_append]
      exact Path.step_empty _
  rw [location, lead_child, hchild, ← List.append_assoc, Path.landing_append, hinit]
  rfl

/-- A child by a proper name lies below its parent; other names step up or stay,
as `location_child_eq_step` says. -/
theorem location_child (h : Path.isName name) :
    fs.location (p.child name) = fs.location p ++ [name] := by
  rw [location_child_eq_step, Path.step_of_isName h]

theorem location_child_empty : fs.location (p.child "") = fs.location p := by
  rw [location_child_eq_step, Path.step_empty]

theorem walks_child (h : fs.Walks (fs.lead p ++ p.segments)) (name : String) :
    fs.Walks (fs.lead (p.child name) ++ (p.child name).segments.dropLast) := by
  obtain ⟨init, hchild, hp⟩ := Path.segments_child p name
  rw [lead_child, hchild, List.dropLast_concat]
  rcases hp with hp | hp
  · rwa [hp] at h
  · rw [hp, ← List.append_assoc] at h
    exact h.of_isPrefix (List.prefix_append ..)

/-! ### What a task keeps -/

/-- Files stay as they are, none appear and none go, but where something may be
written. Directories stay. -/
structure Keeps (written : List String → Prop) (fs fs' : FileSystem) : Prop where
  workingDirectory : fs'.workingDirectory = fs.workingDirectory
  proper : fs.root.Proper → fs'.root.Proper
  directory : ∀ {way}, fs.root.view way = some .directory → fs'.root.view way = some .directory
  file : ∀ {way}, ¬written way → ∀ contents,
    fs'.root.view way = some (.file contents) ↔ fs.root.view way = some (.file contents)

namespace Keeps

variable {written written' : List String → Prop}

theorem refl (written : List String → Prop) (fs : FileSystem) : fs.Keeps written fs :=
  ⟨rfl, id, id, fun _ _ => Iff.rfl⟩

theorem trans (h : fs.Keeps written fs') (h' : fs'.Keeps written fs'') : fs.Keeps written fs'' where
  workingDirectory := h'.workingDirectory.trans h.workingDirectory
  proper := h'.proper ∘ h.proper
  directory hway := h'.directory (h.directory hway)
  file hway contents := (h'.file hway contents).trans (h.file hway contents)

theorem mono (h : fs.Keeps written fs') (hsub : ∀ way, written way → written' way) :
    fs.Keeps written' fs' :=
  ⟨h.workingDirectory, h.proper, h.directory, fun hway => h.file fun hw => hway (hsub _ hw)⟩

theorem lead (h : fs.Keeps written fs') (p : Path) : fs'.lead p = fs.lead p := by
  simp only [FileSystem.lead, h.workingDirectory]

theorem location (h : fs.Keeps written fs') (p : Path) : fs'.location p = fs.location p := by
  simp only [FileSystem.location, h.lead]

theorem walks (h : fs.Keeps written fs') (hwalks : fs.Walks segments) : fs'.Walks segments :=
  fun way hway => h.directory (hwalks way hway)

end Keeps

theorem keeps_makeDirectories (written : List String → Prop) (fs : FileSystem) (p : Path) :
    fs.Keeps written (fs.makeDirectories p).2 := by
  obtain ⟨hwd, hgrows, hproper⟩ := makeDirectories_spec fs p
  exact ⟨hwd, hproper, hgrows.directory, fun _ _ => hgrows.file_iff⟩

/-- A write touches one location and keeps all the others. -/
theorem keeps_of_write? (h : fs.write? p contents = some fs') :
    fs.Keeps (· = fs.location p) fs' := by
  obtain ⟨hwd, hview, hproper⟩ := write?_spec h
  have hdirectory := (isSome_write?_iff.1 (Option.isSome_iff_exists.2 ⟨fs', h⟩)).2.1
  refine ⟨hwd, hproper, fun hway => ?_, fun hway contents => ?_⟩
  · rwa [hview, Function.update_of_ne]
    rintro rfl
    exact hdirectory hway
  · rw [hview, Function.update_of_ne hway]

end FileSystem

end JvmOptimizer
