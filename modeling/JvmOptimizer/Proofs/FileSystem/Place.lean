import JvmOptimizer.Proofs.FileSystem.Directory

/-!
# Places and locations

A place is a directory together with the way back to the root. Of a place only two
things matter: what the whole tree looks like from its root, and at which location
of it the place is. Where a segment leads is then said by its location alone
(`Path.step`), and whether it leads there by the tree.

Following segments leaves the tree as it is. Making them lets it grow: directories
appear where nothing was (`Grows`). Making what has been made already does the same
as the first time, where that failed, too (`Place.makeAll_again`).
-/

namespace JvmOptimizer

/-! ### Locations -/

namespace Path

/-- The location that a segment leads to from another one. -/
def step (location : List String) (segment : String) : List String :=
  if !isComponent segment then location
  else if segment = ".." then location.dropLast
  else location ++ [segment]

/-- The location that segments lead to. -/
def landing (location segments : List String) : List String := segments.foldl step location

variable {location : List String} {segment : String}

theorem step_of_not_isComponent (h : isComponent segment = false) :
    step location segment = location := by
  simp [step, h]

theorem step_empty (location : List String) : step location "" = location :=
  step_of_not_isComponent (by decide)

theorem step_of_isName (h : isName segment) : step location segment = location ++ [segment] := by
  simp only [isName, Bool.and_eq_true, decide_eq_true_eq] at h
  simp [step, isComponent, h]

@[simp] theorem landing_nil (location : List String) : landing location [] = location := rfl

@[simp] theorem landing_cons (location : List String) (segment : String) (rest : List String) :
    landing location (segment :: rest) = landing (step location segment) rest := rfl

/-- A walk along two lists of segments is a walk along one after a walk along the
other. -/
theorem landing_append (location segments rest : List String) :
    landing location (segments ++ rest) = landing (landing location segments) rest :=
  List.foldl_append

end Path

/-- The second tree has everything that the first one has, and besides only more
directories. -/
def Grows (v w : List String → Option FileKind) : Prop :=
  ∀ way, w way = v way ∨ v way = none ∧ w way = some .directory

namespace Grows

variable {u v w : List String → Option FileKind} {way : List String} {contents : Bytes}

theorem refl (v : List String → Option FileKind) : Grows v v := fun _ => .inl rfl

theorem trans (h : Grows u v) (h' : Grows v w) : Grows u w := by
  intro way
  rcases h' way with heq | ⟨hv, hw⟩
  · rw [heq]
    exact h way
  · rcases h way with heq | ⟨-, hv'⟩
    · exact .inr ⟨heq ▸ hv, hw⟩
    · cases hv.symm.trans hv'

theorem directory (h : Grows v w) (hv : v way = some .directory) : w way = some .directory := by
  rcases h way with heq | ⟨hnone, -⟩
  · rw [heq, hv]
  · cases hnone.symm.trans hv

/-- What grows gets directories only, so the files are the same. -/
theorem file_iff (h : Grows v w) :
    w way = some (.file contents) ↔ v way = some (.file contents) := by
  rcases h way with heq | ⟨hnone, hdir⟩
  · rw [heq]
  · simp [hnone, hdir]

end Grows

namespace Place

variable {p q : Place} {name segment : String} {e : FileEntry} {way segments : List String}

/-! ### The tree around a place -/

theorem root_up (p : Place) : p.up.root = p.root := by
  rcases p with ⟨here, _ | _⟩ <;> rfl

theorem root_down (name : String) (inside : Directory) (p : Place) :
    (p.down name inside).root = (p.put name (.directory inside)).root := rfl

theorem root_mk_cons (here around : Directory) (name : String) (above : List (String × Directory)) :
    (Place.mk here ((name, around) :: above)).root =
      (Place.mk (around.put name (.directory here)) above).root := rfl

theorem location_mk_cons (here around : Directory) (name : String)
    (above : List (String × Directory)) :
    (Place.mk here ((name, around) :: above)).location =
      (Place.mk (around.put name (.directory here)) above).location ++ [name] := by
  simp [location]

theorem location_up (p : Place) : p.up.location = p.location.dropLast := by
  rcases p with ⟨here, _ | _⟩ <;> simp [up, location]

theorem location_down (name : String) (inside : Directory) (p : Place) :
    (p.down name inside).location = p.location ++ [name] := by
  simp [down, location]

/-- Below the location of a place, the tree is the place. -/
theorem view_root (p : Place) (way : List String) :
    p.root.view (p.location ++ way) = p.here.view way := by
  rcases p with ⟨here, above⟩
  induction above generalizing here way with
  | nil => rfl
  | cons step above ih =>
      rcases step with ⟨name, around⟩
      rw [root_mk_cons, location_mk_cons, List.append_assoc, List.singleton_append, ih]
      exact Directory.view_put_self around name (.directory here) way

/-- Another directory at a place changes only what is below the place. -/
theorem view_root_congr (here here' : Directory) {above : List (String × Directory)}
    (h : ∀ w, (Place.mk here above).location ++ w = way → here'.view w = here.view w) :
    (Place.mk here' above).root.view way = (Place.mk here above).root.view way := by
  induction above generalizing here here' with
  | nil => exact h way rfl
  | cons step above ih =>
      rcases step with ⟨name, around⟩
      refine ih (around.put name (.directory here)) (around.put name (.directory here')) ?_
      intro w hw
      cases w with
      | nil => rfl
      | cons other w =>
          by_cases hother : other = name
          · rw [hother, Directory.view_put_self, Directory.view_put_self]
            refine h w ?_
            rw [← hw, hother, location_mk_cons, List.append_assoc, List.singleton_append]
          · rw [Directory.view_put_of_ne hother, Directory.view_put_of_ne hother]

theorem view_root_put_self (p : Place) (name : String) (e : FileEntry) (way : List String) :
    (p.put name e).root.view (p.location ++ name :: way) = e.view way := by
  rw [show p.location = (p.put name e).location from rfl, view_root]
  exact Directory.view_put_self ..

/-- Putting an entry at a place changes what is seen there and below only. -/
theorem view_root_put_of_not_isPrefix (h : ¬p.location ++ [name] <+: way) (e : FileEntry) :
    (p.put name e).root.view way = p.root.view way := by
  refine view_root_congr p.here _ fun w hw => ?_
  cases w with
  | nil => rfl
  | cons other w =>
      refine Directory.view_put_of_ne ?_ ..
      rintro rfl
      exact h ⟨w, by simpa using hw⟩

theorem view_root_put_of_find? (h : p.here.find? name = some e) :
    (p.put name e).root.view = p.root.view := by
  funext way
  refine view_root_congr p.here _ fun w _ => ?_
  rw [Directory.view_put_of_find? h]

/-! ### Proper trees -/

theorem proper_here (h : p.root.Proper) : p.here.Proper := by
  rcases p with ⟨here, above⟩
  induction above generalizing here with
  | nil => exact h
  | cons step above ih =>
      rw [root_mk_cons] at h
      have haround : (step.2.put step.1 (.directory here)).Proper := ih _ h
      exact (Directory.proper_put_iff.1 haround).2.2

theorem proper_root_congr {here here' : Directory} {above : List (String × Directory)}
    (h : (Place.mk here above).root.Proper) (hproper : here'.Proper) :
    (Place.mk here' above).root.Proper := by
  induction above generalizing here here' with
  | nil => exact hproper
  | cons step above ih =>
      rw [root_mk_cons] at h ⊢
      have haround : (step.2.put step.1 (.directory here)).Proper := proper_here h
      obtain ⟨hname, haround, -⟩ := Directory.proper_put_iff.1 haround
      exact ih h (Directory.proper_put_iff.2 ⟨hname, haround, hproper⟩)

theorem proper_put (h : p.root.Proper) (hname : Path.isName name) (he : e.Proper) :
    (p.put name e).root.Proper :=
  proper_root_congr h (Directory.proper_put_iff.2 ⟨hname, (proper_here h).erase name, he⟩)

/-! ### Following segments -/

/-- What entering a segment can do. -/
theorem enter?_cases (segment : String) (p : Place) :
    Path.isComponent segment = false ∧ p.enter? segment = some p ∨
    segment = ".." ∧ p.enter? segment = some p.up ∨
    Path.isName segment ∧
      ((∃ inside, p.here.find? segment = some (.directory inside) ∧
        p.enter? segment = some (p.down segment inside)) ∨
      (∀ inside, p.here.find? segment ≠ some (.directory inside)) ∧ p.enter? segment = none) := by
  unfold enter?
  by_cases hcomp : Path.isComponent segment = false
  · exact .inl ⟨hcomp, by simp [hcomp]⟩
  by_cases hup : segment = ".."
  · exact .inr (.inl ⟨hup, by simp only [hup]; rfl⟩)
  have hname : Path.isName segment := by
    simpa [Path.isName, Path.isComponent, hup] using hcomp
  refine .inr (.inr ⟨hname, ?_⟩)
  rcases hfind : p.here.find? segment with _ | contents | inside
  · exact .inr ⟨by simp, by simp [hcomp, hup]⟩
  · exact .inr ⟨by simp, by simp [hcomp, hup]⟩
  · exact .inl ⟨inside, rfl, by simp [hcomp, hup]⟩

theorem enter?_spec (h : p.enter? segment = some q) :
    q.root.view = p.root.view ∧ q.location = Path.step p.location segment ∧
      (p.root.Proper → q.root.Proper) := by
  rcases enter?_cases segment p with ⟨hcomp, heq⟩ | ⟨rfl, heq⟩ |
    ⟨hname, ⟨inside, hfind, heq⟩ | ⟨-, heq⟩⟩ <;> rw [heq] at h <;> cases h
  · exact ⟨rfl, (Path.step_of_not_isComponent hcomp).symm, id⟩
  · exact ⟨by rw [root_up], location_up p, by rw [root_up]; exact id⟩
  · refine ⟨view_root_put_of_find? hfind, ?_, fun hp => ?_⟩
    · rw [location_down, Path.step_of_isName hname]
    · exact proper_put hp hname ((proper_here hp).of_find? hfind).2

theorem isSome_enter?_iff : (p.enter? segment).isSome ↔
    p.root.view (Path.step p.location segment) = some .directory := by
  -- Where a segment leads, there is a directory.
  have hroot : ∀ {q : Place}, p.enter? segment = some q →
      p.root.view (Path.step p.location segment) = some .directory := by
    intro q hq
    obtain ⟨hview, hloc, -⟩ := enter?_spec hq
    have h := view_root q []
    rwa [List.append_nil, hview, hloc] at h
  constructor
  · intro h
    obtain ⟨q, hq⟩ := Option.isSome_iff_exists.1 h
    exact hroot hq
  · intro h
    rcases enter?_cases segment p with ⟨-, heq⟩ | ⟨-, heq⟩ | ⟨hname, ⟨inside, -, heq⟩ | ⟨hno, -⟩⟩
    · rw [heq]; rfl
    · rw [heq]; rfl
    · rw [heq]; rfl
    · rw [Path.step_of_isName hname, view_root, Directory.view_cons] at h
      rcases hfind : p.here.find? segment with _ | contents | inside
      · rw [hfind] at h; cases h
      · rw [hfind] at h; cases h
      · exact absurd hfind (hno inside)

/-- Following segments changes nothing of the tree: it moves the place in it. -/
theorem follow?_spec (h : p.follow? segments = some q) :
    q.root.view = p.root.view ∧ q.location = Path.landing p.location segments ∧
      (p.root.Proper → q.root.Proper) := by
  induction segments generalizing p with
  | nil =>
      cases h
      exact ⟨rfl, rfl, id⟩
  | cons segment rest ih =>
      obtain ⟨next, henter, hrest⟩ := Option.bind_eq_some_iff.1 h
      obtain ⟨hview, hloc, hproper⟩ := enter?_spec henter
      obtain ⟨hview', hloc', hproper'⟩ := ih hrest
      exact ⟨hview'.trans hview, by rw [hloc', hloc, Path.landing_cons], hproper' ∘ hproper⟩

/-- Segments can be followed if each of them leads to a directory. -/
theorem isSome_follow?_iff : (p.follow? segments).isSome ↔
    ∀ way, way <+: segments → p.root.view (Path.landing p.location way) = some .directory := by
  induction segments generalizing p with
  | nil => simpa [follow?] using view_root p []
  | cons segment rest ih =>
      have hcons : p.follow? (segment :: rest) = (p.enter? segment).bind (·.follow? rest) := rfl
      rw [hcons]
      constructor
      · intro h way hway
        obtain ⟨q, hq⟩ := Option.isSome_iff_exists.1 h
        obtain ⟨next, henter, hrest⟩ := Option.bind_eq_some_iff.1 hq
        obtain ⟨hview, hloc, -⟩ := enter?_spec henter
        rcases List.prefix_cons_iff.1 hway with rfl | ⟨way', rfl, hway'⟩
        · simpa using view_root p []
        · have hlast := ih.1 (Option.isSome_iff_exists.2 ⟨q, hrest⟩) way' hway'
          rwa [hview, hloc] at hlast
      · intro h
        have hstep := h [segment] ⟨rest, rfl⟩
        obtain ⟨next, henter⟩ := Option.isSome_iff_exists.1 (isSome_enter?_iff.2 hstep)
        obtain ⟨hview, hloc, -⟩ := enter?_spec henter
        rw [henter, Option.bind_some, ih, hview, hloc]
        exact fun way hway => h (segment :: way) (List.prefix_cons_iff.2 (.inr ⟨way, rfl, hway⟩))

/-! ### Making segments -/

theorem make?_of_enter? (h : p.enter? segment = some q) : p.make? segment = some q := by
  simp [make?, h]

/-- What making a segment can do. -/
theorem make?_cases (segment : String) (p : Place) :
    (∃ q, p.enter? segment = some q ∧ p.make? segment = some q) ∨
    Path.isName segment ∧
      (p.here.find? segment = none ∧ Path.isNewName segment ∧
          p.make? segment = some (p.down segment .empty) ∨
        (p.here.find? segment ≠ none ∨ Path.isNewName segment = false) ∧
          p.enter? segment = none ∧ p.make? segment = none) := by
  rcases henter : p.enter? segment with _ | q
  · refine .inr ⟨?_, ?_⟩
    · rcases enter?_cases segment p with ⟨-, heq⟩ | ⟨-, heq⟩ | ⟨hname, -⟩
      · cases henter.symm.trans heq
      · cases henter.symm.trans heq
      · exact hname
    · rcases hfind : p.here.find? segment with _ | e
      · by_cases hnew : Path.isNewName segment
        · exact .inl ⟨rfl, hnew, by simp [make?, henter, hfind, hnew]⟩
        · exact .inr ⟨.inr (by simpa using hnew), rfl, by simp [make?, henter, hnew]⟩
      · exact .inr ⟨.inl (by simp), rfl, by simp [make?, henter, hfind]⟩
  · exact .inl ⟨q, rfl, make?_of_enter? henter⟩

theorem make?_spec (h : p.make? segment = some q) :
    Grows p.root.view q.root.view ∧ q.location = Path.step p.location segment ∧
      (p.root.Proper → q.root.Proper) := by
  rcases make?_cases segment p with ⟨next, henter, heq⟩ | ⟨hname, ⟨hfind, hnew, heq⟩ |
    ⟨-, -, heq⟩⟩ <;> rw [heq] at h <;> cases h
  · obtain ⟨hview, hloc, hproper⟩ := enter?_spec henter
    exact ⟨hview ▸ Grows.refl _, hloc, hproper⟩
  · refine ⟨fun way => ?_, ?_, fun hp => ?_⟩
    · rw [root_down]
      by_cases hway : p.location ++ [segment] <+: way
      · obtain ⟨w, rfl⟩ := hway
        rw [List.append_assoc, List.singleton_append, view_root_put_self, view_root,
          Directory.view_cons, hfind]
        cases w with
        | nil => exact .inr ⟨rfl, rfl⟩
        | cons => exact .inl rfl
      · exact .inl (view_root_put_of_not_isPrefix hway _)
    · rw [location_down, Path.step_of_isName hname]
    · rw [root_down]
      exact proper_put hp hname (e := .directory .empty) trivial

/-- A directory can be made where there is one, or where there is nothing and the
name is one that it may get. -/
theorem isSome_make?_iff : (p.make? segment).isSome ↔
    p.root.view (Path.step p.location segment) = some .directory ∨
      p.root.view (Path.step p.location segment) = none ∧ Path.isNewName segment := by
  rcases make?_cases segment p with ⟨q, henter, hmake⟩ | ⟨hname, ⟨hfind, hnew, hmake⟩ |
    ⟨hwhy, henter, hmake⟩⟩
  · have hdir := isSome_enter?_iff.1 (Option.isSome_iff_exists.2 ⟨q, henter⟩)
    simp [hmake, hdir]
  · rw [hmake, Path.step_of_isName hname, view_root, Directory.view_cons, hfind]
    simp [hnew]
  · have hdir : ¬p.root.view (Path.step p.location segment) = some .directory := by
      rw [← isSome_enter?_iff, henter]
      exact Bool.false_ne_true
    rw [hmake, Option.isSome_none, iff_false_left Bool.false_ne_true, not_or, not_and]
    refine ⟨hdir, fun hnone => ?_⟩
    rw [Path.step_of_isName hname, view_root, Directory.view_cons] at hnone
    rcases hwhy with hfind | hnew
    · obtain ⟨e, he⟩ := Option.ne_none_iff_exists'.1 hfind
      rw [he, Option.bind_some, FileEntry.view_nil] at hnone
      cases hnone
    · simp [hnew]

/-- Making directories along a way adds directories and takes nothing away,
whether or not it succeeds. -/
theorem makeAll_spec (p : Place) (segments : List String) :
    Grows p.root.view (p.makeAll segments).1.root.view ∧
      (p.root.Proper → (p.makeAll segments).1.root.Proper) := by
  induction segments generalizing p with
  | nil => exact ⟨Grows.refl _, id⟩
  | cons segment rest ih =>
      rw [makeAll]
      rcases hmake : p.make? segment with _ | next
      · exact ⟨Grows.refl _, id⟩
      · obtain ⟨hgrows, -, hproper⟩ := make?_spec hmake
        exact ⟨hgrows.trans (ih next).1, (ih next).2 ∘ hproper⟩

/-- Making segments once more makes nothing and fails where it failed before. -/
theorem makeAll_again (hview : q.root.view = (p.makeAll segments).1.root.view)
    (hloc : q.location = p.location) :
    (q.makeAll segments).1.root.view = (p.makeAll segments).1.root.view ∧
      (q.makeAll segments).1.location = (p.makeAll segments).1.location ∧
      (q.makeAll segments).2 = (p.makeAll segments).2 := by
  induction segments generalizing p q with
  | nil => exact ⟨hview, hloc, rfl⟩
  | cons segment rest ih =>
      rcases hmake : p.make? segment with _ | next
      · have hstuck : q.make? segment = none := by
          rw [makeAll, hmake] at hview
          rw [← Option.not_isSome_iff_eq_none, isSome_make?_iff, hview, hloc, ← isSome_make?_iff,
            hmake]
          exact Bool.false_ne_true
        simp only [makeAll, hmake, hstuck] at hview ⊢
        exact ⟨hview, hloc, trivial⟩
      · simp only [makeAll, hmake] at hview
        obtain ⟨-, hnext, -⟩ := make?_spec hmake
        -- What was made is there still when the rest has been made.
        have hmade : q.root.view (Path.step q.location segment) = some .directory := by
          rw [hview, hloc, ← hnext]
          exact (makeAll_spec next rest).1.directory (by simpa using view_root next [])
        obtain ⟨next', henter⟩ := Option.isSome_iff_exists.1 (isSome_enter?_iff.2 hmade)
        obtain ⟨hview', hloc', -⟩ := enter?_spec henter
        simp only [makeAll, hmake, make?_of_enter? henter]
        exact ih (hview'.trans hview) (by rw [hloc', hnext, hloc])

end Place

end JvmOptimizer
