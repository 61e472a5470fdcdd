import JvmOptimizer.Proofs.Code.Layout

/-!
# Code arrays read back

A code array is `Written` if it falls into byte strings that are read as
instructions one behind the other; such an array is decoded into just these
instructions (`Written.instructions`), and they start at increasing offsets.
What the encoder writes is of this kind, with the offset of each target in its
place. Increasing offsets name positions, so the targets and the bounds of the
handlers are found again, and a well-formed body comes back as it was.
-/

namespace JvmOptimizer.Code

open Reader

variable {π : Type} [Pool π] {pool : π}

/-! ### Reading instructions in turn -/

/-- The bytes from offset `pc` on spell the instructions found, each with the
offset at which it starts. -/
inductive Written (pool : π) : Nat → Bytes → List (Nat × Instruction Int) → Prop
  | nil {pc : Nat} : Written pool pc [] []
  | cons {pc : Nat} {bytes code : Bytes} {insn : Instruction Int}
      {found : List (Nat × Instruction Int)} (reads : Reads (instruction pool) pc bytes insn)
      (rest : Written pool (pc + bytes.length) code found) :
      Written pool pc (bytes ++ code) ((pc, insn) :: found)

/-- An instruction takes a byte at least. -/
theorem ne_nil_of_reads {pc : Nat} {bytes : Bytes} {insn : Instruction Int}
    (h : Reads (instruction pool) pc bytes insn) : bytes ≠ [] := by
  intro hnil
  subst hnil
  have hread := h []
  cases hread

namespace Written

variable {pc : Nat} {code : Bytes} {found : List (Nat × Instruction Int)}

/-- The fuel of the loop is the number of bytes, and each instruction takes one at
least, so it lasts. -/
theorem instructionsAfter {fuel : Nat} (h : Written pool pc code found)
    (hfuel : code.length ≤ fuel) (before : List (Nat × Instruction Int)) :
    instructionsAfter pool fuel before ⟨pc, code⟩ = .ok (before.reverse ++ found) := by
  induction h generalizing fuel before with
  | nil => cases fuel <;> simp [Code.instructionsAfter]
  | @cons pc bytes code insn found reads rest ih =>
      have hpos : 0 < bytes.length := List.length_pos_iff.2 (ne_nil_of_reads reads)
      rw [List.length_append] at hfuel
      cases fuel with
      | zero => omega
      | succ fuel =>
          have hempty : (bytes ++ code).isEmpty = false := by
            simp [ne_nil_of_reads reads]
          simp only [Code.instructionsAfter, hempty, reads code]
          rw [if_neg (by simp), ih (by omega)]
          simp

/-- A code array is decoded into the instructions that it spells. -/
theorem instructions (h : Written pool 0 code found) : instructions pool code = .ok found :=
  h.instructionsAfter (Nat.le_refl _) []

/-- Instructions start at increasing offsets inside the code. -/
theorem sorted (h : Written pool pc code found) :
    (found.map (·.1)).Pairwise (· < ·) ∧
      ∀ start ∈ found.map (·.1), pc ≤ start ∧ start < pc + code.length := by
  induction h with
  | nil => simp
  | @cons pc bytes code insn found reads rest ih =>
      have hpos : 0 < bytes.length := List.length_pos_iff.2 (ne_nil_of_reads reads)
      obtain ⟨hsorted, hbounds⟩ := ih
      constructor
      · refine List.pairwise_cons.2 ⟨fun start hstart => ?_, hsorted⟩
        have := (hbounds start hstart).1
        show pc < start
        omega
      · intro start hstart
        rw [List.length_append]
        rcases List.mem_cons.1 hstart with rfl | hstart
        · omega
        · have := hbounds start hstart
          omega

end Written

/-! ### What is written -/

/-- The pieces of a settled layout, from the one at `index` on, are written as
the instructions they stand for. -/
theorem written_pieces {l : Layout} {index pc : Nat} {code : List (Instruction Nat)}
    {pieces : List Piece} {bytes : List Bytes}
    (hstands : List.Forall₂ (Stands pool) code pieces)
    (hform : ∀ insn ∈ code, HasForm pool insn) (hkeys : ∀ insn ∈ code, HasKeys insn)
    (hwiden : ((pieces.zipIdx index).mapM fun (p, i) => widen l i p) = .ok pieces)
    (hbytes : ((pieces.zipIdx index).mapM fun (p, i) => pieceBytes l i p) = .ok bytes)
    (hstarts : l.offsets.toList.drop index = starts pc pieces)
    (hplace : ∀ t, l.place t ≤ 65535) (hend : finish pc pieces ≤ 65535) :
    Written pool pc bytes.flatten ((starts pc pieces).zip
      (code.map fun insn => insn.mapTargets fun t => (l.place t : Int))) := by
  -- By induction on the pieces. The offset of the first one goes along, and so does its
  -- index, since widening and writing both look at the layout as a whole.
  induction hstands generalizing index pc bytes with
  | nil =>
      cases hbytes
      exact .nil
  | @cons insn p code pieces hp hrest ih =>
      rw [List.forall_mem_cons] at hform hkeys
      rw [List.zipIdx_cons] at hwiden hbytes
      obtain ⟨p', pieces', hwp, hwrest, heq⟩ := List.mapM_cons_eq_ok.1 hwiden
      obtain ⟨rfl, rfl⟩ := List.cons.inj heq
      obtain ⟨first, others, hfirst, hothers, rfl⟩ := List.mapM_cons_eq_ok.1 hbytes
      obtain ⟨hpc, hdrop⟩ := getElem?_of_drop_eq_starts hstarts
      have hsize : pc + p.size pc ≤ 65535 := Nat.le_trans (le_finish _ pieces) hend
      have hlength := length_pieceBytes hp.supplied hpc hfirst
      obtain rfl := pieceBytes_eq_ok hpc hfirst
      have hwritten := ih hform.2 hkeys.2 hwrest hothers hdrop hend
      rw [List.flatten_cons]
      refine .cons (reads_spell hp hwp hpc hform.1 hkeys.1 hplace hsize) ?_
      -- What comes next starts where the size of this piece says.
      rwa [hlength]

/-! ### Positions -/

/-- The offsets of a code array name the positions of its instructions, and its
length names the end. -/
structure Names (l : Layout) : Prop where
  sorted : l.offsets.toList.Pairwise (· < ·)
  inside : ∀ start ∈ l.offsets.toList, start < l.size

/-- The row of the exception table for a handler. -/
def row (l : Layout) (h : Handler) : ExceptionEntry :=
  ⟨UInt16.ofNat (l.place h.start), UInt16.ofNat (l.place h.stop), UInt16.ofNat (l.place h.entry),
    h.catchType⟩

namespace Names

variable {l : Layout} {i j : Nat}

theorem place_lt (h : Names l) (hi : i < l.offsets.size) : l.place i < l.size := by
  rw [Layout.place, Array.getElem?_eq_getElem hi, Option.getD_some]
  exact h.inside _ (by simp)

/-- The end counts as a position behind all others. -/
theorem place_lt_place (h : Names l) (hij : i < j) (hj : j ≤ l.offsets.size) :
    l.place i < l.place j := by
  by_cases hlast : j = l.offsets.size
  · have hend : l.place j = l.size := by simp [Layout.place, hlast]
    rw [hend]
    exact h.place_lt (by omega)
  · have hi' : i < l.offsets.size := by omega
    have hj' : j < l.offsets.size := by omega
    simp only [Layout.place, Array.getElem?_eq_getElem hi', Array.getElem?_eq_getElem hj',
      Option.getD_some]
    exact List.pairwise_iff_getElem.1 h.sorted i j (by simpa) (by simpa) hij

/-- Offsets increase, so the first place where one is found is its own. -/
theorem idxOf?_place (h : Names l) (hi : i < l.offsets.size) :
    l.offsets.toList.idxOf? (l.place i) = some i := by
  rw [List.idxOf?_eq_some_iff]
  have hget : ∀ {j} (hj : j < l.offsets.size), l.offsets[j] = l.place j := by
    intro j hj
    simp [Layout.place, Array.getElem?_eq_getElem hj]
  refine ⟨by simpa using hi, by simpa using hget hi, fun j hj => ?_⟩
  have hlt := h.place_lt_place hj (by omega)
  rw [Array.getElem_toList, hget (by omega)]
  omega

/-- A target that was written as an offset is read back as its position. -/
theorem position_place (h : Names l) (pc : Nat) (hi : i < l.offsets.size) :
    position l.offsets.toList pc (l.place i) = .ok i := by
  simp [position, h.idxOf?_place hi]

theorem place_le_size (h : Names l) (i : Nat) : l.place i ≤ l.size := by
  by_cases hi : i < l.offsets.size
  · exact Nat.le_of_lt (h.place_lt hi)
  · simp [Layout.place, Array.getElem?_eq_none (Nat.le_of_not_lt hi)]

/-- Offsets fit into the 16 bits of an exception table. -/
theorem toNat_place (h : Names l) (hsize : l.size ≤ 65535) (i : Nat) :
    (UInt16.ofNat (l.place i)).toNat = l.place i := by
  have := h.place_le_size i
  exact UInt16.toNat_ofNat_of_lt' (by simp only [UInt16.size]; omega)

/-- A row of the exception table is read back as the handler it was written
for. -/
theorem handler_row (h : Names l) (hsize : l.size ≤ 65535) {hd : Handler}
    (hrange : hd.start < hd.stop) (hstop : hd.stop ≤ l.offsets.size)
    (hentry : hd.entry < l.offsets.size) (index : Nat) :
    handler l.offsets.toList l.size index (row l hd) = .ok hd := by
  have hstart : l.offsets.toList.idxOf? (l.place hd.start) = some hd.start :=
    h.idxOf?_place (by omega)
  have hend : (if l.place hd.stop = l.size then some l.offsets.toList.length
      else l.offsets.toList.idxOf? (l.place hd.stop)) = some hd.stop := by
    by_cases hlast : hd.stop = l.offsets.size
    · rw [if_pos (by simp [Layout.place, hlast]), Array.length_toList, hlast]
    · have hlt := h.place_lt (show hd.stop < l.offsets.size by omega)
      rw [if_neg (by omega), h.idxOf?_place (by omega)]
  simp only [handler, row, h.toNat_place hsize, hstart, hend, h.idxOf?_place hentry, if_pos hrange]

/-- Handlers that protect something have a row each. -/
theorem exceptionTable_eq (h : Names l) (hsize : l.size ≤ 65535) {handlers : List Handler}
    (hwell : ∀ hd ∈ handlers, hd.start < hd.stop ∧ hd.stop ≤ l.offsets.size) :
    exceptionTable l handlers = handlers.map (row l) := by
  have hkept : ∀ hd ∈ handlers,
      decide (UInt16.ofNat (l.place hd.start) < UInt16.ofNat (l.place hd.stop)) = true := by
    intro hd hmem
    rw [decide_eq_true_eq, UInt16.lt_iff_toNat_lt, h.toNat_place hsize, h.toNat_place hsize]
    exact h.place_lt_place (hwell hd hmem).1 (hwell hd hmem).2
  exact congrArg (List.map (row l)) (List.filter_eq_self.2 hkept)

/-- The rows of a table are read back in turn. -/
theorem mapM_handler_row (h : Names l) (hsize : l.size ≤ 65535) {handlers : List Handler}
    (hwell : ∀ hd ∈ handlers, hd.start < hd.stop ∧ hd.stop ≤ l.offsets.size ∧
      hd.entry < l.offsets.size) (k : Nat) :
    (((handlers.map (row l)).zipIdx k).mapM fun (e, i) =>
      handler l.offsets.toList l.size i e) = .ok handlers := by
  induction handlers generalizing k with
  | nil => rfl
  | cons hd handlers ih =>
      rw [List.forall_mem_cons] at hwell
      obtain ⟨⟨hrange, hstop, hentry⟩, hrest⟩ := hwell
      rw [List.map_cons, List.zipIdx_cons, List.mapM_cons_eq_ok]
      exact ⟨hd, handlers, h.handler_row hsize hrange hstop hentry k, ih hrest _, rfl⟩

theorem mapTargetsM_place (h : Names l) (pc : Nat) {insn : Instruction Nat}
    (htargets : ∀ t ∈ insn.targets, t < l.offsets.size) :
    (insn.mapTargets fun t => (l.place t : Int)).mapTargetsM (position l.offsets.toList pc) =
      .ok insn := by
  have hlookup : ∀ place ∈ (insn.mapTargets fun t => (l.place t : Int)).targets,
      position l.offsets.toList pc place =
        .ok ((position l.offsets.toList pc place).toOption.getD 0) := by
    intro place hplace
    rw [Instruction.targets_mapTargets] at hplace
    obtain ⟨t, ht, rfl⟩ := List.mem_map.1 hplace
    rw [h.position_place pc (htargets t ht)]
    rfl
  rw [Instruction.mapTargetsM_eq_ok hlookup, Instruction.mapTargets_mapTargets,
    Instruction.mapTargets_eq_self]
  intro t ht
  simp only [Function.comp, h.position_place pc (htargets t ht)]
  rfl

/-- Instructions whose targets are places are read back with positions. -/
theorem mapM_mapTargetsM_place (h : Names l) {code : List (Instruction Nat)}
    {starts : List Nat} (hlength : starts.length = code.length)
    (htargets : ∀ insn ∈ code, ∀ t ∈ insn.targets, t < l.offsets.size) :
    ((starts.zip (code.map fun insn => insn.mapTargets fun t => (l.place t : Int))).mapM
      fun (pc, insn) => insn.mapTargetsM (position l.offsets.toList pc)) = .ok code := by
  induction code generalizing starts with
  | nil =>
      rw [List.map_nil, List.zip_nil_right]
      rfl
  | cons insn code ih =>
      rw [List.forall_mem_cons] at htargets
      obtain ⟨pc, starts, rfl⟩ := List.exists_cons_of_length_eq_add_one hlength
      rw [List.map_cons, List.zip_cons_cons, List.mapM_cons_eq_ok]
      exact ⟨insn, code, h.mapTargetsM_place pc htargets.1,
        ih (Nat.succ.inj hlength) htargets.2, rfl⟩

end Names

/-! ### Bodies -/

/-- A body that a code array can spell: control stays inside, every instruction
has a form, and every handler protects something. -/
structure WellFormed (pool : π) (m : Method) : Prop where
  target : ∀ insn ∈ m.code, ∀ t ∈ insn.targets, t < m.code.length
  form : ∀ insn ∈ m.code, HasForm pool insn
  handler : ∀ h ∈ m.handlers, h.start < h.stop ∧ h.stop ≤ m.code.length ∧ h.entry < m.code.length

/-- A code array that spells the instructions of a body, with the places of
their targets, is read back as this body. -/
theorem Written.decode {l : Layout} {m : Method} {code : Bytes} (hm : WellFormed pool m)
    (h : Written pool 0 code (l.offsets.toList.zip
      (m.code.map fun insn => insn.mapTargets fun t => (l.place t : Int))))
    (hcount : l.offsets.size = m.code.length) (hlength : code.length = l.size)
    (hsize : l.size ≤ 65535) :
    decode pool code (exceptionTable l m.handlers) =
      .ok { code := m.code, handlers := m.handlers } := by
  have hoffsets : (l.offsets.toList.zip (m.code.map fun insn =>
      insn.mapTargets fun t => (l.place t : Int))).map (·.1) = l.offsets.toList :=
    List.map_fst_zip (by simp [hcount])
  -- The instructions start at increasing offsets, so each offset names a position.
  have hnames : Names l := by
    obtain ⟨hsorted, hbounds⟩ := h.sorted
    rw [hoffsets] at hsorted hbounds
    refine ⟨hsorted, fun start hstart => ?_⟩
    rw [← hlength, ← Nat.zero_add code.length]
    exact (hbounds start hstart).2
  have htarget := hm.target
  have hhandler := hm.handler
  rw [← hcount] at htarget hhandler
  have hzip : l.offsets.toList.length = m.code.length := by simp [hcount]
  have hbody := hnames.mapM_mapTargetsM_place hzip htarget
  have hrows := hnames.mapM_handler_row hsize hhandler 0
  rw [hnames.exceptionTable_eq hsize fun hd hmem =>
    ⟨(hhandler hd hmem).1, (hhandler hd hmem).2.1⟩]
  -- The three steps of decoding, each of which undoes what was written.
  refine Except.bind_eq_ok.2 ⟨_, h.instructions, ?_⟩
  rw [hoffsets, hlength]
  exact Except.bind_eq_ok.2 ⟨_, hbody, Except.bind_eq_ok.2 ⟨_, hrows, rfl⟩⟩

theorem length_exceptionTable_le (l : Layout) (handlers : List Handler) :
    (exceptionTable l handlers).length ≤ handlers.length := by
  rw [exceptionTable, List.length_map]
  exact List.length_filter_le _ _

/-- Assembling in three steps: the jumps settle, the size is checked, the pieces
are written. -/
theorem assemble_eq_ok {pieces : List Piece} {handlers : List Handler} {e : Encoded}
    (h : assemble pieces handlers = .ok e) :
    ∃ pieces' l bytes, settle pieces = .ok (pieces', l) ∧ l.size ≤ 65535 ∧
      (pieces'.zipIdx.mapM fun (p, i) => pieceBytes l i p) = .ok bytes ∧
      e = ⟨bytes.flatten, exceptionTable l handlers⟩ := by
  obtain ⟨⟨pieces', l⟩, hsettle, h⟩ := Except.bind_eq_ok.1 h
  simp only at h
  by_cases hlarge : 65535 < l.size
  · rw [if_pos hlarge] at h
    cases h
  · rw [if_neg hlarge] at h
    obtain ⟨bytes, hbytes, h⟩ := Except.bind_eq_ok.1 h
    cases h
    exact ⟨pieces', l, bytes, hsettle, Nat.le_of_not_lt hlarge, hbytes, rfl⟩

/-- What is assembled from pieces that stand for the instructions of a body is
the code array of a layout, and spells these instructions. -/
theorem exists_written {m : Method} {pieces : List Piece} {e : Encoded}
    (hm : WellFormed pool m) (hkeys : ∀ insn ∈ m.code, HasKeys insn)
    (hstands : List.Forall₂ (Stands pool) m.code pieces)
    (h : assemble pieces m.handlers = .ok e) :
    ∃ l : Layout, l.size ≤ 65535 ∧ l.offsets.size = m.code.length ∧ e.code.length = l.size ∧
      e.exceptions = exceptionTable l m.handlers ∧
      Written pool 0 e.code (l.offsets.toList.zip
        (m.code.map fun insn => insn.mapTargets fun t => (l.place t : Int))) := by
  obtain ⟨pieces, l, bytes, hsettle, hsize, hbytes, rfl⟩ := assemble_eq_ok h
  obtain ⟨hstands, rfl, hwiden⟩ := settle_eq_ok (I := List.Forall₂ (Stands pool) m.code)
    (forall₂_widen Stands.widen) hsettle hstands
  have hoffsets : (Layout.ofPieces pieces).offsets.toList = starts 0 pieces := by
    rw [Layout.ofPieces_eq]
  have hend : (Layout.ofPieces pieces).size = finish 0 pieces := by
    rw [Layout.ofPieces_eq]
  have hwritten := written_pieces hstands hm.form hkeys hwiden hbytes hoffsets
    (fun t => Nat.le_trans (Layout.place_le t) hsize) (hend ▸ hsize)
  obtain ⟨hfinish, -⟩ := pieceBytes_isPrefix (forall_supplied Stands.supplied hstands) hbytes hoffsets
  rw [← hoffsets] at hwritten
  refine ⟨_, hsize, ?_, ?_, rfl, hwritten⟩
  · rw [← Array.length_toList, hoffsets, length_starts, hstands.length_eq]
  · rw [hend, ← hfinish, Nat.zero_add]

section Encode

variable [LawfulPool π] {m : Method} {p p' q : π} {e : Encoded}

/-- The pool that encoding leaves has every number at the index that it was given,
and so has any pool that came from it. -/
theorem exists_pieces (hsize : Pool.size p ≤ 65535) (h : encode m p = (.ok e, p'))
    (hq : Pool.Extends p' q) :
    ∃ pieces, List.Forall₂ (Stands q) m.code pieces ∧ assemble pieces m.handlers = .ok e := by
  obtain ⟨pieces, hpieces, hassemble⟩ := encode_eq_ok h
  exact ⟨pieces, stands_mapM hsize hpieces hq, hassemble⟩

/-- **A well-formed body is read back from its bytes**, in the pool behind it or
any later one. -/
theorem decode_encode (hsize : Pool.size p ≤ 65535) (h : encode m p = (.ok e, p'))
    (hq : Pool.Extends p' q) (hm : WellFormed q m) (hkeys : ∀ insn ∈ m.code, HasKeys insn) :
    decode q e.code e.exceptions = .ok { code := m.code, handlers := m.handlers } := by
  obtain ⟨pieces, hstands, hassemble⟩ := exists_pieces hsize h hq
  obtain ⟨l, hlarge, hcount, hlength, hexceptions, hwritten⟩ :=
    exists_written hm hkeys hstands hassemble
  rw [hexceptions]
  exact hwritten.decode hm hcount hlength hlarge

/-- A code array fits a class file, and its exception table has no more rows than
the body has handlers. -/
theorem length_encode (hsize : Pool.size p ≤ 65535) (h : encode m p = (.ok e, p'))
    (hm : WellFormed p' m) (hkeys : ∀ insn ∈ m.code, HasKeys insn) :
    e.code.length ≤ 65535 ∧ e.exceptions.length ≤ m.handlers.length := by
  obtain ⟨pieces, hstands, hassemble⟩ := exists_pieces hsize h (Pool.Extends.refl p')
  obtain ⟨l, hlarge, -, hlength, hexceptions, -⟩ := exists_written hm hkeys hstands hassemble
  rw [hlength, hexceptions]
  refine ⟨hlarge, ?_⟩
  exact length_exceptionTable_le l m.handlers

end Encode

/-- **Decoding undoes encoding.** The bytes of a well-formed body, in which every
table has a key, are decoded with the pool that encoding leaves, and the result
has the same instructions and handlers. -/
theorem decode_encode_sameBody [LawfulPool π] {m : Method} {p p' : π} {e : Encoded}
    (hsize : Pool.size p ≤ 65534) (h : encode m p = (.ok e, p')) (hm : WellFormed p' m)
    (hkeys : ∀ insn ∈ m.code, HasKeys insn) :
    ∃ m', decode p' e.code e.exceptions = .ok m' ∧ m'.sameBody m :=
  ⟨_, decode_encode (Nat.le_succ_of_le hsize) h (Pool.Extends.refl p') hm hkeys,
    by simp [Method.sameBody]⟩

/-- A loop around a switch: a wide constant and a wide variable, a far increment,
a table, a jump back, a load of something else than a number, and a handler up to
the end. -/
def dispatch : Method where
  code := [.const (.long 100000), .store (.number .long) 300, .load (.number .int) 0,
    .switch 7 (.table 0 1 [4, 6]), .increment 0 (-200), .jump 2,
    .verbatim Opcode.ldcW [0, 9], .verbatim 0xbf []]
  handlers := [⟨0, 8, 7, 0⟩]

/-- The bytes of `dispatch`, in either kind of pool. -/
def dispatchBytes : Encoded where
  code := [20, 0, 1, 196, 55, 1, 44, 26, 170, 0, 0, 0, 0, 0, 0, 36, 0, 0, 0, 0, 0, 0, 0, 1,
    0, 0, 0, 24, 0, 0, 0, 33, 196, 132, 0, 0, 255, 56, 167, 255, 225, 19, 0, 9, 191]
  exceptions := [⟨0, 45, 44, 0⟩]

theorem wellFormed_dispatch {p : π} (h : Pool.resolve? p 9 = none) : WellFormed p dispatch where
  target := by simp [dispatch, Instruction.targets, SwitchTable.targets]
  form := by
    have hldc : HasForm p (.verbatim Opcode.ldcW [0, 9] : Instruction Nat) := by
      refine .inr ⟨rfl, rfl, fun value hvalue => ?_⟩
      have hnone : Pool.resolve? p (UInt16.ofNat (ofBigEndian [0, 9])) = none := h
      rw [hnone] at hvalue
      cases hvalue
    intro insn hmem
    simp only [dispatch, List.mem_cons, List.not_mem_nil, or_false] at hmem
    rcases hmem with rfl | rfl | rfl | rfl | rfl | rfl | rfl | rfl
    exacts [trivial, trivial, trivial, rfl, trivial, trivial, hldc, .inl rfl]
  handler := by simp [dispatch]

/-- The two kinds of pools alike. -/
theorem decode_encode_sameBody_dispatch :
    (∃ m', decode (⟨#[.literal (.long 100000), .upperHalf]⟩ : LiteralPool)
      dispatchBytes.code dispatchBytes.exceptions = .ok m' ∧ m'.sameBody dispatch) ∧
    (∃ m', decode (⟨#[.number (.long 100000), .upperHalf]⟩ : ConstantPool)
      dispatchBytes.code dispatchBytes.exceptions = .ok m' ∧ m'.sameBody dispatch) := by
  have hkeys : ∀ insn ∈ dispatch.code, HasKeys insn := by
    simp [dispatch, HasKeys]
  have hliteral : encode dispatch ({} : LiteralPool) =
      (.ok dispatchBytes, ⟨#[.literal (.long 100000), .upperHalf]⟩) := by
    decide +kernel
  have hconstant : encode dispatch ({} : ConstantPool) =
      (.ok dispatchBytes, ⟨#[.number (.long 100000), .upperHalf]⟩) := by
    decide +kernel
  exact ⟨decode_encode_sameBody (by decide) hliteral (wellFormed_dispatch rfl) hkeys,
    decode_encode_sameBody (by decide) hconstant (wellFormed_dispatch rfl) hkeys⟩

/-- A switch with a table of no keys, which ends where it starts. -/
def emptyTable : Method where
  code := [.switch 0 (.table 1 0 [])]

/-- A table without keys has bytes, but they are not read back. -/
theorem decode_encode_fails_emptyTable :
    WellFormed ({} : LiteralPool) emptyTable ∧
      encode emptyTable ({} : LiteralPool) =
        (.ok ⟨[170, 0, 0, 0, 0, 0, 0, 0, 0, 0, 0, 1, 0, 0, 0, 0], []⟩, {}) ∧
      decode ({} : LiteralPool) [170, 0, 0, 0, 0, 0, 0, 0, 0, 0, 0, 1, 0, 0, 0, 0] [] =
        .error (.badSwitch 0) := by
  refine ⟨⟨?_, ?_, ?_⟩, ?_, ?_⟩
  · simp [emptyTable, Instruction.targets, SwitchTable.targets]
  · simp [emptyTable, HasForm]
  · simp [emptyTable]
  · decide +kernel
  · rfl

end JvmOptimizer.Code
