import JvmOptimizer.Proofs.Batch.Report
import JvmOptimizer.Proofs.Batch.Task

/-!
# Mirroring a tree

A tree is read file by file while its mirror is written, in one file system. As long as
no file has its mirror inside the tree itself, nothing that is read was written before:
the tree keeps its files, each file of it is mirrored, and each class file is counted
once (`optimizeTree_mirrors`).

The guard of `optimizeTree` does not give as much. It refuses an output inside the
input, but not an input inside the output. There mirrors may come to lie where the tree
has not been read yet, on other files of it or beside them, and are taken for originals
(`optimizeTree_recounts_nested`).
-/

namespace JvmOptimizer

open Steps FileSystem FileTask

/-! ### One file -/

section File

variable {fs fs₁ fs' : FileSystem} {settings : Settings} {name : String} {source target : Path}
  {contents : Bytes} {report report' : BatchReport}

/-- A file that is not to be optimized is copied. -/
theorem processFile_of_not_covers (h : settings.covers name = false) :
    processFile settings name source target report = (do
      copy source target
      return report + { copied := if isClassName name then 1 else 0 }) := by
  unfold processFile
  rcases hclass : isClassName name with _ | _
  · simp [BatchReport.add_def]
  · have hexcluded : settings.isExcluded name := by simpa [Settings.covers, hclass] using h
    simp [hexcluded, BatchReport.add_def]

/-- A file that is to be optimized and can be is written by that. -/
theorem processFile_of_ok {result : ClassReport} (h : settings.covers name)
    (hrun : optimizeFile settings source target fs = (.ok result, fs₁)) :
    processFile settings name source target report fs = (.ok (report +
      if 0 < result.changed then { optimized := 1, methodsChanged := result.changed }
      else { copied := 1 }), fs₁) := by
  simp only [Settings.covers, Bool.and_eq_true, Bool.not_eq_true'] at h
  simp only [processFile, h, Bool.not_true, Bool.false_eq_true, if_false, bind_apply,
    tryCatch_some_of_ok hrun]
  split <;> rfl

/-- A file that is to be optimized and cannot be is copied. -/
theorem processFile_of_error {e : Failure} (h : settings.covers name)
    (hrun : optimizeFile settings source target fs = (.error e, fs₁)) :
    processFile settings name source target report fs = (do
      copy source target
      return report + { failed := 1 } : FileTask BatchReport) fs₁ := by
  simp only [Settings.covers, Bool.and_eq_true, Bool.not_eq_true'] at h
  simp only [processFile, h, Bool.not_true, Bool.false_eq_true, if_false, bind_apply,
    tryCatch_some_of_error hrun]
  rfl

/-- **One file of a tree.** The target gets what the settings make of the
contents, nothing else is written, and the report counts the file. -/
theorem processFile_spec (hvalid : settings.check = .ok ())
    (hwalks : fs.Walks (fs.lead source ++ source.segments.dropLast))
    (hfile : fs.root.view (fs.location source) = some (.file contents))
    (hne : fs.location source ≠ fs.location target)
    (h : processFile settings name source target report fs = (.ok report', fs')) :
    fs.Keeps (· = fs.location target) fs' ∧
      fs'.root.view (fs.location target) = some (.file (settings.mirror name contents)) ∧
      report' = report + .ofFile settings name contents := by
  by_cases hcovers : settings.covers name
  · rcases hrun : optimizeFile settings source target fs with ⟨e | result, fs₁⟩
    · rw [processFile_of_error hcovers hrun] at h
      obtain ⟨⟨⟩, _, hcopy, h⟩ := bind_eq_ok.1 h
      cases h
      -- The copy went through, so the attempt failed on the class and not on the disk.
      obtain ⟨rfl, cause, hbytes⟩ :=
        optimizeBytes_eq_error_of_copy hvalid hwalks hfile hrun hcopy
      rw [Settings.mirror_of_none (Settings.attempt?_of_error hcovers hbytes),
        BatchReport.ofFile_of_error hcovers hbytes]
      obtain ⟨hkeeps, hview⟩ := copy_spec hfile hne hcopy
      exact ⟨hkeeps, hview, rfl⟩
    · rw [processFile_of_ok hcovers hrun] at h
      cases h
      obtain ⟨c, bytes, fs₂, hread, hbytes, hparent, hwrite⟩ := optimizeFile_eq_ok hrun
      -- What was read is what the tree has at this place.
      obtain rfl : c = contents := by
        have hview := (contents?_eq_some_iff.1 hread).2
        rw [hfile] at hview
        cases hview
        rfl
      rw [Settings.mirror_of_some (Settings.attempt?_of_ok hcovers hbytes),
        BatchReport.ofFile_of_ok hcovers hbytes]
      obtain ⟨hkeeps, hview⟩ := keeps_of_write?_of_makeParent hparent hwrite
      exact ⟨hkeeps, hview, rfl⟩
  · rw [Bool.not_eq_true] at hcovers
    rw [processFile_of_not_covers hcovers] at h
    obtain ⟨⟨⟩, _, hcopy, h⟩ := bind_eq_ok.1 h
    cases h
    rw [Settings.mirror_of_none (Settings.attempt?_of_not_covers hcovers),
      BatchReport.ofFile_of_not_covers hcovers]
    obtain ⟨hkeeps, hview⟩ := copy_spec hfile hne hcopy
    exact ⟨hkeeps, hview, rfl⟩

end File

/-! ### The files of a tree -/

/-- A tree that is to be mirrored: the locations of the tree and of its mirror, and the
files that the tree has in the beginning. No file has its mirror in the tree. -/
structure Mirroring where
  settings : Settings
  source : List String
  target : List String
  files : List (List String × Bytes)
  valid : settings.check = .ok ()
  nodup : (files.map Prod.fst).Nodup
  apart : ∀ file ∈ files, ¬source <+: target ++ file.1

namespace Mirroring

variable (m : Mirroring)

/-- The tree has the files that it had in the beginning. -/
structure Unspoilt (fs : FileSystem) : Prop where
  proper : fs.root.Proper
  file_iff : ∀ way contents,
    fs.root.view (m.source ++ way) = some (.file contents) ↔ (way, contents) ∈ m.files

/-- The files of the tree that are selected have been processed, and only they. -/
structure Processed (selected : List String → Bool) (fs : FileSystem) (report : BatchReport)
    (fs' : FileSystem) (report' : BatchReport) : Prop where
  keeps : fs.Keeps (fun way => ∃ file ∈ m.files, selected file.1 ∧ way = m.target ++ file.1) fs'
  mirrored : ∀ file ∈ m.files, selected file.1 → fs'.root.view (m.target ++ file.1) =
    some (.file (m.settings.mirror (fileName file.1) file.2))
  report : report' = report + .ofFiles m.settings (m.files.filter fun file => selected file.1)

variable {m} {fs fs₁ fs' : FileSystem} {report report₁ report' : BatchReport}
  {P Q : List String → Bool}

/-- Writing files of the target spoils nothing: none of them lies in the source,
so the source still has the files that it had. -/
theorem Unspoilt.of_keeps (h : m.Unspoilt fs) {selected : List String → Bool}
    (hkeeps : fs.Keeps
      (fun way => ∃ file ∈ m.files, selected file.1 ∧ way = m.target ++ file.1) fs') :
    m.Unspoilt fs' where
  proper := hkeeps.proper h.proper
  file_iff way contents := by
    rw [← h.file_iff, hkeeps.file]
    rintro ⟨file, hfile, -, hway⟩
    exact m.apart file hfile ⟨way, hway⟩

/-- Nothing is processed where nothing is selected. -/
theorem processed_none (hkeeps : fs.Keeps (fun _ => False) fs')
    (hP : ∀ file ∈ m.files, P file.1 = false) : m.Processed P fs report fs' report where
  keeps := hkeeps.mono fun _ => False.elim
  mirrored file hfile hselected := by
    rw [hP file hfile] at hselected
    cases hselected
  report := by
    rw [List.filter_eq_nil_iff.2 fun file hfile => by simp [hP file hfile]]
    exact (add_zero report).symm

/-- Which files were processed matters only for files of the tree. -/
theorem Processed.congr (h : m.Processed P fs report fs' report')
    (hPQ : ∀ file ∈ m.files, P file.1 = Q file.1) : m.Processed Q fs report fs' report' where
  keeps := h.keeps.mono fun way ⟨file, hfile, hP, hway⟩ =>
    ⟨file, hfile, hPQ file hfile ▸ hP, hway⟩
  mirrored file hfile hQ := h.mirrored file hfile (hPQ file hfile ▸ hQ)
  report := by
    rw [h.report, List.filter_congr hPQ]

/-- What is processed first stays so when other files are processed. -/
theorem Processed.trans (h : m.Processed P fs report fs₁ report₁)
    (h' : m.Processed Q fs₁ report₁ fs' report')
    (hdisjoint : ∀ file ∈ m.files, P file.1 = true → Q file.1 = false) :
    m.Processed (fun way => P way || Q way) fs report fs' report' where
  keeps := by
    refine (h.keeps.mono ?_).trans (h'.keeps.mono ?_)
    · rintro way ⟨file, hfile, hP, hway⟩
      exact ⟨file, hfile, by rw [hP, Bool.true_or], hway⟩
    · rintro way ⟨file, hfile, hQ, hway⟩
      exact ⟨file, hfile, by rw [hQ, Bool.or_true], hway⟩
  mirrored file hfile hselected := by
    rcases hQ : Q file.1 with _ | _
    · rw [hQ, Bool.or_false] at hselected
      refine (h'.keeps.file ?_ _).2 (h.mirrored file hfile hselected)
      rintro ⟨other, -, hother, hway⟩
      rw [← List.append_cancel_left hway, hQ] at hother
      cases hother
    · exact h'.mirrored file hfile hQ
  report := by
    rw [h'.report, h.report, add_assoc, BatchReport.ofFiles_filter_or hdisjoint]

/-! ### Steps -/

variable {source target : Path} {way : List String} {name : String}

/-- One file is processed; all others of the tree are as they were. -/
theorem processed_of_processFile (hm : m.Unspoilt fs) {file : List String × Bytes}
    (hfile : file ∈ m.files) (hname : fileName file.1 = name)
    (hwalks : fs.Walks (fs.lead source ++ source.segments.dropLast))
    (hsource : fs.location source = m.source ++ file.1)
    (htarget : fs.location target = m.target ++ file.1)
    (h : processFile m.settings name source target report fs = (.ok report', fs')) :
    m.Processed (· == file.1) fs report fs' report' := by
  have hview : fs.root.view (fs.location source) = some (.file file.2) := by
    rw [hsource, hm.file_iff]
    exact hfile
  have hne : fs.location source ≠ fs.location target := by
    rw [hsource, htarget]
    exact fun heq => m.apart file hfile ⟨file.1, heq⟩
  obtain ⟨hkeeps, hmirror, hreport⟩ := processFile_spec m.valid hwalks hview hne h
  rw [htarget] at hkeeps hmirror
  refine ⟨hkeeps.mono ?_, ?_, ?_⟩
  · rintro w rfl
    exact ⟨file, hfile, beq_self_eq_true _, rfl⟩
  · intro other hother heq
    obtain rfl : other = file :=
      List.inj_on_of_nodup_map m.nodup hother hfile (eq_of_beq heq)
    rw [hmirror, hname]
  · rw [hreport, BatchReport.ofFiles_filter_eq m.nodup hfile, hname]

/-- The paths lead to one place in the tree and in its mirror. -/
structure Visits (m : Mirroring) (fs : FileSystem) (source target : Path) (way : List String) :
    Prop where
  unspoilt : m.Unspoilt fs
  source : fs.location source = m.source ++ way
  target : fs.location target = m.target ++ way

/-- A walk can go on after files were processed: the directory it stands in still
lies where it lay. -/
theorem Visits.of_processed (h : m.Visits fs source target way)
    (hprocessed : m.Processed P fs report fs' report') : m.Visits fs' source target way :=
  ⟨h.unspoilt.of_keeps hprocessed.keeps, (hprocessed.keeps.location source).trans h.source,
    (hprocessed.keeps.location target).trans h.target⟩

theorem Visits.child (h : m.Visits fs source target way) (hname : Path.isName name) :
    m.Visits fs (source.child name) (target.child name) (way ++ [name]) :=
  ⟨h.unspoilt, by rw [location_child hname, h.source, List.append_assoc],
    by rw [location_child hname, h.target, List.append_assoc]⟩

/-- The source is a directory of the tree, with these entries when it was read. -/
structure Lists (m : Mirroring) (fs : FileSystem) (source target : Path) (way : List String)
    (d : Directory) : Prop where
  visits : m.Visits fs source target way
  walks : fs.Walks (fs.lead source ++ source.segments)
  proper : d.Proper
  file_iff : ∀ rest contents,
    d.view rest = some (.file contents) ↔ (way ++ rest, contents) ∈ m.files

/-- A directory that is visited has just the entries that the tree has there. -/
theorem Visits.lists (h : m.Visits fs source target way) {d : Directory}
    (hdirectory : fs.directory? source = some d) : m.Lists fs source target way d := by
  obtain ⟨hview, hwalks, hproper⟩ := directory?_spec hdirectory
  refine ⟨h, hwalks, hproper h.unspoilt.proper, fun rest contents => ?_⟩
  rw [← hview, h.source, List.append_assoc, h.unspoilt.file_iff]

theorem Lists.of_processed {d : Directory} (h : m.Lists fs source target way d)
    (hprocessed : m.Processed P fs report fs' report') : m.Lists fs' source target way d where
  visits := h.visits.of_processed hprocessed
  walks := by
    rw [hprocessed.keeps.lead]
    exact hprocessed.keeps.walks h.walks
  proper := h.proper
  file_iff := h.file_iff

/-- A file below a directory is below one of its names. -/
theorem Lists.any_names_eq {d : Directory} (h : m.Lists fs source target way d)
    {file : List String × Bytes} (hfile : file ∈ m.files) :
    (d.names.any fun entry => (way ++ [entry.1]).isPrefixOf file.1) = way.isPrefixOf file.1 := by
  rw [Bool.eq_iff_iff, List.any_eq_true, List.isPrefixOf_iff_prefix]
  constructor
  · rintro ⟨entry, -, hbelow⟩
    exact (List.prefix_append ..).trans (List.isPrefixOf_iff_prefix.1 hbelow)
  · rintro ⟨rest, hrest⟩
    have hview : d.view rest = some (.file file.2) := by
      rw [h.file_iff, hrest]
      exact hfile
    cases rest with
    | nil => cases hview
    | cons name rest =>
        have hname : name ∈ d.names.map Prod.fst := by
          rw [Directory.mem_names_iff]
          intro hnone
          rw [Directory.view_cons_eq_none hnone] at hview
          cases hview
        obtain ⟨entry, hentry, rfl⟩ := List.mem_map.1 hname
        exact ⟨entry, hentry, List.isPrefixOf_iff_prefix.2 ⟨rest, by simpa using hrest⟩⟩

/-- Where the tree has a file, no other file of it is below. -/
theorem Unspoilt.beq_eq_isPrefixOf (h : m.Unspoilt fs) {file other : List String × Bytes}
    (hfile : file ∈ m.files) (hother : other ∈ m.files) :
    (other.1 == file.1) = file.1.isPrefixOf other.1 := by
  rw [Bool.eq_iff_iff, beq_iff_eq, List.isPrefixOf_iff_prefix]
  constructor
  · intro heq
    exact heq ▸ List.prefix_refl _
  · rintro ⟨rest, hrest⟩
    have hview := (h.file_iff _ _).2 hother
    by_cases hnil : rest = []
    · rw [← hrest, hnil, List.append_nil]
    · rw [← hrest, ← List.append_assoc,
        Directory.view_append_of_file ((h.file_iff _ _).2 hfile) hnil] at hview
      cases hview

/-- Processing an entry that is a file processes what is below its name. -/
theorem Lists.processed_of_processFile {d : Directory} (h : m.Lists fs source target way d)
    (hentry : (name, false) ∈ d.names)
    (hrun : processFile m.settings name (source.child name) (target.child name) report fs =
      (.ok report', fs')) :
    m.Processed ((way ++ [name]).isPrefixOf ·) fs report fs' report' := by
  obtain ⟨e, hfind, hkind⟩ := h.proper.find?_of_mem_names hentry
  have hchild := h.visits.child (h.proper.of_find? hfind).1
  rcases e with contents | inside
  · have hfile : (way ++ [name], contents) ∈ m.files := by
      rw [← h.file_iff, Directory.view_cons, hfind]
      rfl
    refine (Mirroring.processed_of_processFile hchild.unspoilt hfile (by simp [fileName])
      (walks_child h.walks name) hchild.source hchild.target hrun).congr fun other hother => ?_
    exact hchild.unspoilt.beq_eq_isPrefixOf hfile hother
  · cases hkind.2 rfl

/-! ### Runs -/

/-- If each entry of a directory has the files below it processed, all of them together
have. -/
theorem processed_of_foldlM {visit : BatchReport → String × Bool → FileTask BatchReport}
    {names : List (String × Bool)} (hnodup : (names.map Prod.fst).Nodup)
    {I : FileSystem → Prop}
    (hI : ∀ {P fs report fs' report'}, I fs → m.Processed P fs report fs' report' → I fs')
    (hvisit : ∀ entry ∈ names, ∀ {fs report fs' report'}, I fs →
      visit report entry fs = (.ok report', fs') →
        m.Processed ((way ++ [entry.1]).isPrefixOf ·) fs report fs' report')
    (hfs : I fs) (h : names.foldlM visit report fs = (.ok report', fs')) :
    m.Processed (fun f => names.any fun entry => (way ++ [entry.1]).isPrefixOf f)
      fs report fs' report' := by
  induction names generalizing fs report with
  | nil =>
      cases h
      exact processed_none (Keeps.refl ..) fun _ _ => rfl
  | cons entry names ih =>
      rw [List.foldlM_cons] at h
      obtain ⟨report₁, fs₁, hentry, h⟩ := bind_eq_ok.1 h
      rw [List.forall_mem_cons] at hvisit
      obtain ⟨hentry', hnodup⟩ := List.nodup_cons.1 hnodup
      have hfirst := hvisit.1 hfs hentry
      refine hfirst.trans (ih hnodup hvisit.2 (hI hfs hfirst) h) fun file _ hselected => ?_
      -- A file is below one name only.
      rw [List.any_eq_false]
      intro other hother hbelow
      obtain ⟨rest, hrest⟩ := List.isPrefixOf_iff_prefix.1 hselected
      obtain ⟨rest', hrest'⟩ := List.isPrefixOf_iff_prefix.1 hbelow
      rw [← hrest, List.append_assoc, List.append_assoc] at hrest'
      obtain ⟨hname, -⟩ := List.cons.inj (List.append_cancel_left hrest')
      exact hentry' (hname ▸ List.mem_map_of_mem hother)

/-- Processing a directory of the tree processes the files below it. -/
theorem processed_of_processDirectory {depth : Nat} (hvisits : m.Visits fs source target way)
    (h : processDirectory m.settings depth source target report fs = (.ok report', fs')) :
    m.Processed (way.isPrefixOf ·) fs report fs' report' := by
  -- The names are those of the beginning, and a directory among them is listed when its
  -- turn comes: it has its original files then, whatever has been written.
  induction depth generalizing source target way fs report fs' report' with
  | zero => cases h
  | succ depth ih =>
      obtain ⟨_, _, hget, h⟩ := bind_eq_ok.1 h
      cases hget
      obtain ⟨⟨⟩, fs₁, hmake, h⟩ := bind_eq_ok.1 h
      rcases hdirectory : fs.directory? source with _ | d <;> rw [hdirectory] at h
      · cases h
      have hlists := hvisits.lists hdirectory
      have hstart : m.Processed (fun _ => false) fs report fs₁ report := by
        have hkeeps := FileTask.keeps_makeDirectories (fun _ => False) target fs
        rw [hmake] at hkeeps
        exact processed_none hkeeps fun _ _ => rfl
      have hnames : m.Processed
          (fun f => d.names.any fun entry => (way ++ [entry.1]).isPrefixOf f)
          fs₁ report fs' report' := by
        refine processed_of_foldlM (I := fun fs => m.Lists fs source target way d)
          hlists.proper.nodup_names Lists.of_processed ?_ (hlists.of_processed hstart) h
        rintro ⟨name, isDirectory⟩ hentry fs report fs' report' hfs h
        cases isDirectory with
        | true =>
            obtain ⟨e, hfind, -⟩ := hlists.proper.find?_of_mem_names hentry
            exact ih (hfs.visits.child (hlists.proper.of_find? hfind).1) h
        | false => exact hfs.processed_of_processFile hentry h
      exact (hstart.trans hnames fun _ _ hfalse => by cases hfalse).congr
        fun file hfile => hlists.any_names_eq hfile

end Mirroring

/-! ### Trees -/

section Tree

variable {fs fs' : FileSystem} {settings : Settings} {input output source target : Path}
  {d : Directory} {report : BatchReport}

/-- The names of a directory are taken before its mirror is made. -/
theorem processDirectory_succ {depth : Nat} {names : List (String × Bool)}
    (hdirectory : fs.directory? source = some d) (hnames : d.names = names)
    (hmade : (fs.makeDirectories target).1 = true) :
    processDirectory settings (depth + 1) source target report fs =
      names.foldlM (fun report entry =>
        if entry.2 then
          processDirectory settings depth (source.child entry.1) (target.child entry.1) report
        else
          processFile settings entry.1 (source.child entry.1) (target.child entry.1) report)
        report (fs.makeDirectories target).2 := by
  rw [processDirectory, bind_apply, get_apply]
  simp only [bind_apply, makeDirectories_apply, hmade, if_true, hdirectory, hnames]

/-- The guard looks at the two paths only. Behind it the walk starts with as much
fuel as a path has room for names. -/
theorem optimizeTree_eq (hvalid : settings.check = .ok ()) (hinput : fs.directory? input = some d)
    (hguard : output.startsWith input = false) : optimizeTree settings input output fs =
      processDirectory settings Path.maxBytes input (output.child "") {} fs := by
  rw [optimizeTree, bind_apply, ofExcept_eq_ok.2 ⟨hvalid, rfl⟩]
  simp only [bind_apply, get_apply, hinput, hguard, Option.isNone_some, Bool.false_eq_true,
    if_false]

theorem optimizeTree_of_startsWith (hvalid : settings.check = .ok ())
    (hinput : fs.directory? input = some d) (hguard : output.startsWith input) :
    optimizeTree settings input output fs =
      (.error (.config "output directory must not be inside the input directory"), fs) := by
  rw [optimizeTree, bind_apply, ofExcept_eq_ok.2 ⟨hvalid, rfl⟩]
  simp only [bind_apply, get_apply, hinput, hguard, Option.isNone_some, Bool.false_eq_true,
    if_false, if_true, throw_apply]

/-- A tree that is processed has passed the checks. -/
theorem optimizeTree_eq_ok (hinput : fs.directory? input = some d)
    (h : optimizeTree settings input output fs = (.ok report, fs')) :
    settings.check = .ok () ∧
      processDirectory settings Path.maxBytes input (output.child "") {} fs =
        (.ok report, fs') := by
  have hvalid : settings.check = .ok () := by
    obtain ⟨⟨⟩, _, hcheck, -⟩ := bind_eq_ok.1 h
    exact (ofExcept_eq_ok.1 hcheck).1
  rcases hguard : output.startsWith input with _ | _
  · exact ⟨hvalid, (optimizeTree_eq hvalid hinput hguard).symm.trans h⟩
  · rw [optimizeTree_of_startsWith hvalid hinput hguard] at h
    cases h

/-- No file has its mirror inside the tree where neither of the two directories is
inside the other. -/
theorem not_prefix_append_of_apart {source target : List String} (hsource : ¬source <+: target)
    (htarget : ¬target <+: source) (way : List String) : ¬source <+: target ++ way := by
  intro h
  rcases List.prefix_or_prefix_of_prefix h (List.prefix_append target way) with h | h
  · exact hsource h
  · exact htarget h

/-- The files of `d`, a directory that was at `source`, are mirrored at `target`, and
the report counts them. -/
structure Mirrored (settings : Settings) (d : Directory) (source target : List String)
    (fs : FileSystem) (report : BatchReport) : Prop where
  kept : ∀ way contents, d.get? way = some (.file contents) →
    fs.root.get? (source ++ way) = some (.file contents)
  mirrored : ∀ way contents, d.get? way = some (.file contents) →
    fs.root.get? (target ++ way) = some (.file (settings.mirror (fileName way) contents))
  total : report.optimized + report.copied + report.failed =
    d.files.countP fun file => isClassName (fileName file.1)
  optimized : report.optimized =
    d.files.countP fun file => 0 < settings.changes (fileName file.1) file.2
  failed : report.failed = d.files.countP fun file => settings.fails (fileName file.1) file.2
  methodsChanged : report.methodsChanged =
    (d.files.map fun file => settings.changes (fileName file.1) file.2).sum

/-- A tree that contains none of its mirrors is mirrored. -/
theorem optimizeTree_mirrors (hproper : fs.root.Proper) (hinput : fs.directory? input = some d)
    (hapart : ∀ way contents, d.get? way = some (.file contents) →
      ¬fs.location input <+: fs.location output ++ way)
    (h : optimizeTree settings input output fs = (.ok report, fs')) :
    Mirrored settings d (fs.location input) (fs.location output) fs' report := by
  obtain ⟨hvalid, h⟩ := optimizeTree_eq_ok hinput h
  obtain ⟨hview, -, hd⟩ := directory?_spec hinput
  have hd : d.Proper := hd hproper
  -- The files of the tree are those of the directory as it was before anything was
  -- written; that no target lies in the source is all that keeps them apart.
  let m : Mirroring :=
    { settings, source := fs.location input, target := fs.location output, files := d.files
      valid := hvalid
      nodup := hd.nodup_files
      apart := fun file hfile =>
        hapart file.1 file.2 (Directory.view_eq_file_iff.1 (hd.mem_files.1 hfile)) }
  have hvisits : m.Visits fs input (output.child "") [] :=
    ⟨⟨hproper, fun way contents => by rw [hview, hd.mem_files]⟩, (List.append_nil _).symm,
      by rw [location_child_empty, List.append_nil]⟩
  have hprocessed := Mirroring.processed_of_processDirectory hvisits h
  have hfile : ∀ {way contents}, d.get? way = some (.file contents) → (way, contents) ∈ d.files :=
    fun hget => hd.mem_files.2 (Directory.view_eq_file_iff.2 hget)
  -- The walk starts at the root, and every way begins with the empty one.
  have hall : (d.files.filter fun file => [].isPrefixOf file.1) = d.files :=
    List.filter_eq_self.2 fun _ _ => List.isPrefixOf_nil_left
  obtain rfl : report = .ofFiles settings d.files := by
    rw [hprocessed.report, hall]
    exact zero_add _
  exact
    { kept := fun way contents hget => Directory.view_eq_file_iff.1
        (((hvisits.unspoilt.of_keeps hprocessed.keeps).file_iff way contents).2 (hfile hget))
      mirrored := fun way contents hget => Directory.view_eq_file_iff.1
        (hprocessed.mirrored (way, contents) (hfile hget) List.isPrefixOf_nil_left)
      total := BatchReport.total_ofFiles settings d.files
      optimized := BatchReport.optimized_ofFiles settings d.files
      failed := BatchReport.failed_ofFiles settings d.files
      methodsChanged := BatchReport.methodsChanged_ofFiles settings d.files }

/-- A class with one method, which adds two numbers. -/
def sumClass : ClassFile where
  minorVersion := 0
  majorVersion := 50
  pool := ⟨#[.utf8 "Code", .utf8 "()I"]⟩
  access := 0x21
  thisClass := 0
  superClass := 0
  interfaces := []
  fields := []
  methods := [⟨9, 1, 2, [⟨1, CodeAttribute.toBytes ⟨2, 0, [0x05, 0x06, 0x60, 0xac], [], []⟩⟩]⟩]
  attributes := []

/-- A tree with a class, something that is named like one, and another file. -/
def mixedTree : Directory :=
  .file "Sum.class" sumClass.toBytes (.folder "lib" (.file "Bad.class" [0xca] .empty)
    (.file "notes.txt" [1] .empty))

/-- The tree in the directory `in`. -/
def mixedFiles : FileSystem where
  root := .folder "in" mixedTree .empty

/-- A tree with a class that is optimized, a broken one and a text. -/
theorem optimizeTree_mirrors_mixed :
    mixedFiles.root.Proper ∧ mixedFiles.directory? ⟨false, ["in"]⟩ = some mixedTree ∧
    ∃ fs', optimizeTree {} ⟨false, ["in"]⟩ ⟨false, ["out"]⟩ mixedFiles =
        (.ok { optimized := 1, failed := 1, methodsChanged := 1 }, fs') ∧
      Mirrored {} mixedTree ["in"] ["out"] fs'
        { optimized := 1, failed := 1, methodsChanged := 1 } := by
  have hproper : mixedFiles.root.Proper := by decide
  have hinput : mixedFiles.directory? ⟨false, ["in"]⟩ = some mixedTree := by decide +kernel
  have hnames : mixedTree.names = [("Sum.class", false), ("lib", true), ("notes.txt", false)] := by
    simp [mixedTree, Directory.names, Directory.names.go, List.mergeSort]
  have hreport : Except.toOption (optimizeTree {} ⟨false, ["in"]⟩ ⟨false, ["out"]⟩ mixedFiles).1 =
      some { optimized := 1, failed := 1, methodsChanged := 1 } := by
    rw [optimizeTree_eq rfl hinput (by decide +kernel), Path.maxBytes,
      processDirectory_succ hinput hnames (by decide +kernel)]
    decide +kernel
  have hrun := eq_ok_of_toOption hreport
  exact ⟨hproper, hinput, _, hrun, optimizeTree_mirrors hproper hinput
    (fun way _ _ => not_prefix_append_of_apart (by decide) (by decide) way) hrun⟩

/-- A tree with one class file, which is none. -/
def nestedTree : Directory :=
  .folder "in" (.folder "lib" (.file "A.class" [0xca] .empty) .empty) (.folder "lib" .empty .empty)

/-- The tree in the directory `out/in`. -/
def nestedFiles : FileSystem where
  root := .folder "out" (.folder "in" nestedTree .empty) .empty

/-- A tree that is mirrored to the directory around it: the mirror of a file comes to lie
in the tree, where it is found and processed once more. -/
theorem optimizeTree_recounts_nested :
    nestedFiles.root.Proper ∧ Path.startsWith ⟨false, ["out"]⟩ ⟨false, ["out", "in"]⟩ = false ∧
    nestedFiles.directory? ⟨false, ["out", "in"]⟩ = some nestedTree ∧
    (nestedTree.files.countP fun file => isClassName (fileName file.1)) = 1 ∧
    ∃ fs', optimizeTree {} ⟨false, ["out", "in"]⟩ ⟨false, ["out"]⟩ nestedFiles =
      (.ok { failed := 2 }, fs') := by
  have hinput : nestedFiles.directory? ⟨false, ["out", "in"]⟩ = some nestedTree := by
    decide +kernel
  have hguard : Path.startsWith ⟨false, ["out"]⟩ ⟨false, ["out", "in"]⟩ = false := by
    decide +kernel
  have hnames : nestedTree.names = [("in", true), ("lib", true)] := by
    simp [nestedTree, Directory.names, Directory.names.go, List.mergeSort]
  refine ⟨by decide, hguard, hinput, by decide +kernel, _, eq_ok_of_toOption ?_⟩
  rw [optimizeTree_eq rfl hinput hguard, Path.maxBytes,
    processDirectory_succ hinput hnames (by decide +kernel)]
  decide +kernel

end Tree

end JvmOptimizer
