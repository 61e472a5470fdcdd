import JvmOptimizer.Proofs.Code.Layout

/-!
# Distances in settled code

Widening a jump moves everything behind it, and the padding of switches with it,
so other displacements grow and shrink from one layout to the next. Still there
are at most as many layouts as jumps and one more (`exists_settles`), since each
but the last widens a jump for good.

In the layout that is left every instruction has as many bytes as its size says
and `StandsAt` its offset: the code array has an opcode of the instruction there,
and wherever the opcode makes the machine look for a displacement, it finds the
distance to the target, with nothing cut off. Where it looks is said without the
writer (`distanceStart`, `distanceWidth`).
-/

namespace JvmOptimizer

/-- Is the instruction a jump? -/
def Instruction.isJump {τ : Type} : Instruction τ → Bool
  | .jump _ => true
  | _ => false

namespace Code

variable {l : Layout} {index pc k : Nat} {p p' : Piece} {pieces : List Piece} {code : Bytes}
  {insn : Instruction Nat}

/-! ### Layouts -/

/-- One layout of the pieces, and what is widened in it. -/
def round (pieces : List Piece) : Except EncodeError (List Piece) :=
  pieces.zipIdx.mapM fun (p, i) => widen (.ofPieces pieces) i p

/-- The pieces are laid out this many times, each time with the jumps widened
that did not reach their target the time before, until none is. -/
inductive Settles : List Piece → Nat → Except EncodeError (List Piece × Layout) → Prop
  | fails {pieces : List Piece} {e : EncodeError} : round pieces = .error e →
      Settles pieces 1 (.error e)
  | ends {pieces : List Piece} : round pieces = .ok pieces →
      Settles pieces 1 (.ok (pieces, .ofPieces pieces))
  | again {pieces widened : List Piece} {count : Nat}
      {result : Except EncodeError (List Piece × Layout)} :
      round pieces = .ok widened → widened ≠ pieces → Settles widened count result →
      Settles pieces (count + 1) result

/-- Each layout but the last makes a jump wide. -/
theorem exists_settles (pieces : List Piece) :
    ∃ count, count ≤ narrowJumps pieces + 1 ∧ Settles pieces count (settle pieces) := by
  fun_induction settle pieces with
  | case1 pieces l e hwiden => exact ⟨1, by omega, .fails hwiden⟩
  | case2 pieces l widened hwiden hfewer ih =>
      obtain ⟨count, hle, hsettles⟩ := ih
      refine ⟨count + 1, by omega, .again hwiden ?_ hsettles⟩
      rintro rfl
      omega
  | case3 pieces l widened hwiden hsame =>
      obtain ⟨hle, heq⟩ := narrowJumps_widen hwiden
      rw [heq (by omega)] at hwiden
      exact ⟨1, by omega, .ends hwiden⟩

/-- The layouts determine the result. -/
theorem Settles.settle_eq {count : Nat} {result : Except EncodeError (List Piece × Layout)}
    (h : Settles pieces count result) : settle pieces = result := by
  induction h with
  | fails h =>
      rw [round] at h
      rw [settle]
      simp only [h]
  | ends h =>
      rw [round] at h
      rw [settle]
      simp only [h, Nat.lt_irrefl, if_false]
  | again h hne _ ih =>
      rw [round] at h
      obtain ⟨hle, heq⟩ := narrowJumps_widen h
      have hlt := Nat.lt_of_le_of_ne hle (mt heq hne)
      rw [settle]
      simp only [h, if_pos hlt, ih]

/-! ### Opcodes -/

/-- The kind whose opcode an operation has for a kind: operations of the integer
kinds have one for each width only. -/
def opcodeKind (op : ArithOp) (kind : Kind) : Kind :=
  if op ∈ numericOps then kind else if kind.slots = 1 then .int else .long

/-- Every operation has an opcode for every kind. It is that of another kind where
the operation does not exist for this one. -/
theorem ofOpcode_arithOpcode (op : ArithOp) (kind : Kind) :
    Form.ofOpcode (arithOpcode op kind) = .arith op (opcodeKind op kind) := by
  cases op <;> cases kind <;> decide +kernel

/-- The opcodes that an instruction can begin with in a code array. A variable
that has no one-byte index stands behind `wide`. -/
inductive Opens : Opcode → Instruction Nat → Prop
  | constant {opcode : Opcode} {value : Value} :
      Form.ofOpcode opcode = .constant value → Opens opcode (.const value)
  | byteConstant {opcode : Opcode} {v : Int32} : Form.ofOpcode opcode = .byteConstant →
      -128 ≤ v.toInt → v.toInt ≤ 127 → Opens opcode (.const (.int v))
  | shortConstant {opcode : Opcode} {v : Int32} : Form.ofOpcode opcode = .shortConstant →
      -32768 ≤ v.toInt → v.toInt ≤ 32767 → Opens opcode (.const (.int v))
  | poolConstant {opcode : Opcode} {value : Value} : Form.ofOpcode opcode = .poolConstant →
      (value.slots = 2 ↔ opcode = Opcode.ldc2W) → Opens opcode (.const value)
  | loadAt {opcode : Opcode} {kind : LocalKind} {index : UInt16} :
      Form.ofOpcode opcode = .loadAt kind index.toNat → Opens opcode (.load kind index)
  | load {opcode : Opcode} {kind : LocalKind} {index : UInt16} :
      Form.ofOpcode opcode = .load kind → index ≤ 255 → Opens opcode (.load kind index)
  | loadWide {opcode : Opcode} {kind : LocalKind} {index : UInt16} :
      Form.ofOpcode opcode = .wide → ¬ index ≤ 255 → Opens opcode (.load kind index)
  | storeAt {opcode : Opcode} {kind : LocalKind} {index : UInt16} :
      Form.ofOpcode opcode = .storeAt kind index.toNat → Opens opcode (.store kind index)
  | store {opcode : Opcode} {kind : LocalKind} {index : UInt16} :
      Form.ofOpcode opcode = .store kind → index ≤ 255 → Opens opcode (.store kind index)
  | storeWide {opcode : Opcode} {kind : LocalKind} {index : UInt16} :
      Form.ofOpcode opcode = .wide → ¬ index ≤ 255 → Opens opcode (.store kind index)
  | increment {opcode : Opcode} {index : UInt16} {delta : Int16} :
      Form.ofOpcode opcode = .increment →
      index ≤ 255 ∧ -128 ≤ delta.toInt ∧ delta.toInt ≤ 127 →
      Opens opcode (.increment index delta)
  | incrementWide {opcode : Opcode} {index : UInt16} {delta : Int16} :
      Form.ofOpcode opcode = .wide →
      ¬ (index ≤ 255 ∧ -128 ≤ delta.toInt ∧ delta.toInt ≤ 127) →
      Opens opcode (.increment index delta)
  | arith {opcode : Opcode} {op : ArithOp} {kind : Kind} :
      Form.ofOpcode opcode = .arith op (opcodeKind op kind) → Opens opcode (.arith op kind)
  | compare {opcode : Opcode} {c : Comparison} :
      Form.ofOpcode opcode = .compare c → Opens opcode (.compare c)
  | convert {opcode : Opcode} {source : Kind} {target : ConvertTarget} :
      Form.ofOpcode opcode = .convert source target → Opens opcode (.convert source target)
  | branch {opcode : Opcode} {condition : Condition} {target : Nat} :
      Form.ofOpcode opcode = .branch condition → Opens opcode (.branch condition target)
  | jump {opcode : Opcode} {target : Nat} :
      Form.ofOpcode opcode = .jump → Opens opcode (.jump target)
  | jumpWide {opcode : Opcode} {target : Nat} :
      Form.ofOpcode opcode = .jumpWide → Opens opcode (.jump target)
  | tableSwitch {opcode : Opcode} {fallback : Nat} {low high : Int32} {targets : List Nat} :
      Form.ofOpcode opcode = .tableSwitch →
      Opens opcode (.switch fallback (.table low high targets))
  | lookupSwitch {opcode : Opcode} {fallback : Nat} {pairs : List (Int32 × Nat)} :
      Form.ofOpcode opcode = .lookupSwitch → Opens opcode (.switch fallback (.lookup pairs))
  | verbatim {opcode : Opcode} {operands : Bytes} : Opens opcode (.verbatim opcode operands)

theorem exists_opens_pooled (value : Value) (index : UInt16) :
    ∃ opcode operands, pooledBytes value.slots index = opcode :: operands ∧
      Opens opcode (.const value) := by
  unfold pooledBytes
  split
  · rename_i h
    exact ⟨Opcode.ldc2W, _, rfl, .poolConstant rfl (iff_of_true h rfl)⟩
  · rename_i h
    split
    · exact ⟨Opcode.ldc, _, rfl, .poolConstant rfl (iff_of_false h (by decide))⟩
    · exact ⟨Opcode.ldcW, _, rfl, .poolConstant rfl (iff_of_false h (by decide))⟩

/-- A constant begins with an opcode that pushes it, or with a load from the pool
of its width. -/
theorem exists_opens_constant {value : Value} {pooled : Option UInt16}
    (h : needsPool value → pooled.isSome) :
    ∃ opcode operands, constantBytes value pooled = opcode :: operands ∧
      Opens opcode (.const value) := by
  refine constantBytes_cases (P := fun bytes => ∃ opcode operands, bytes = opcode :: operands ∧
    Opens opcode (.const value)) h (fun hs => ?_) (fun _ _ => exists_opens_pooled value _)
    (fun _ _ hv hlo hhi => ?_) (fun _ _ hv _ hlo hhi => ?_)
  · exact ⟨_, [], rfl, .constant (ofOpcode_shortConstant hs)⟩
  · subst hv
    exact ⟨0x10, _, rfl, .byteConstant rfl hlo hhi⟩
  · subst hv
    exact ⟨0x11, _, rfl, .shortConstant rfl hlo hhi⟩

/-- The three spellings of a variable access, for a family of loads or stores. -/
theorem exists_opens_local {long short : Nat} {kind : LocalKind} {index : UInt16}
    (hshort : index.toNat < 4 → Opens (UInt8.ofNat (short + kind.offset * 4 + index.toNat)) insn)
    (hlong : index ≤ 255 → Opens (UInt8.ofNat (long + kind.offset)) insn)
    (hwide : ¬ index ≤ 255 → Opens 0xc4 insn) :
    ∃ opcode operands, localBytes long short kind index = opcode :: operands ∧
      Opens opcode insn := by
  unfold localBytes
  split
  · rename_i h
    exact ⟨_, [], rfl, hshort (Nat.lt_succ_of_le (UInt16.le_iff_toNat_le.1 h))⟩
  · split
    · rename_i h
      exact ⟨_, _, rfl, hlong h⟩
    · rename_i h
      exact ⟨_, _, rfl, hwide h⟩

/-- An increment begins with `wide` unless both of its operands are small. -/
theorem exists_opens_increment (index : UInt16) (delta : Int16) :
    ∃ opcode operands, incrementBytes index delta = opcode :: operands ∧
      Opens opcode (.increment index delta) := by
  by_cases h : index ≤ 255 ∧ -128 ≤ delta.toInt ∧ delta.toInt ≤ 127
  · rw [incrementBytes, if_pos h]
    exact ⟨0x84, _, rfl, .increment rfl h⟩
  · rw [incrementBytes, if_neg h]
    exact ⟨0xc4, _, rfl, .incrementWide rfl h⟩

/-- The bytes of an instruction that transfers no control begin with an opcode of
it. -/
theorem exists_opens_plain {first : Bytes} (hp : p.Supplied) (htargets : p.insn.targets = [])
    (hfirst : pieceBytes l index p = .ok first) :
    ∃ opcode operands, first = opcode :: operands ∧ Opens opcode p.insn := by
  obtain ⟨insn, pooled, wide⟩ := p
  cases insn with
  | const value =>
      cases hfirst
      exact exists_opens_constant fun hneeds => hp (by simp [pooled?, hneeds])
  | load kind slot =>
      cases hfirst
      exact exists_opens_local (fun hslot => .loadAt (ofOpcode_loadAt kind hslot))
        (.load (ofOpcode_load kind)) (.loadWide ofOpcode_wide)
  | store kind slot =>
      cases hfirst
      exact exists_opens_local (fun hslot => .storeAt (ofOpcode_storeAt kind hslot))
        (.store (ofOpcode_store kind)) (.storeWide ofOpcode_wide)
  | increment slot delta =>
      cases hfirst
      exact exists_opens_increment slot delta
  | arith op kind =>
      cases hfirst
      exact ⟨_, [], rfl, .arith (ofOpcode_arithOpcode op kind)⟩
  | compare c =>
      cases hfirst
      exact ⟨_, [], rfl, .compare (ofOpcode_compare c)⟩
  | convert source target =>
      obtain ⟨opcode, hopcode, rfl⟩ := pieceBytes_convert_eq_ok hfirst
      exact ⟨opcode, [], rfl, .convert (ofOpcode_conversion hopcode)⟩
  | branch _ _ | jump _ | switch _ _ => cases htargets
  | verbatim opcode operands =>
      cases hfirst
      exact ⟨opcode, operands, rfl, .verbatim⟩

/-! ### Pieces -/

/-- What an instruction has become, before or after jumps were widened. -/
structure Renders (insn : Instruction Nat) (p : Piece) : Prop where
  insn_eq : p.insn = insn
  supplied : p.Supplied

theorem Renders.widen (h : Renders insn p) (hw : widen l index p = .ok p') : Renders insn p' := by
  obtain ⟨hinsn, hpooled⟩ := insn_widen hw
  refine ⟨hinsn.trans h.insn_eq, ?_⟩
  rw [Piece.Supplied, hinsn, hpooled]
  exact h.supplied

section Made

variable {π : Type} [Pool π] {q q' : π}

/-- A piece that was just made has its instruction, and an index for a number that
goes through the pool. -/
theorem renders_piece (h : piece insn q = (.ok p, q')) : Renders insn p := by
  rcases piece_eq_ok h with ⟨hnone, rfl, -⟩ | ⟨value, index, -, -, rfl⟩
  · exact ⟨rfl, by simp [Piece.Supplied, hnone]⟩
  · exact ⟨rfl, fun _ => rfl⟩

/-- At first every jump is narrow. -/
theorem isNarrowJump_piece (h : piece insn q = (.ok p, q')) : p.isNarrowJump = insn.isJump := by
  rcases piece_eq_ok h with ⟨-, rfl, -⟩ | ⟨value, index, -, -, rfl⟩ <;> cases insn <;> rfl

/-- What holds of each instruction and its piece holds of those of a body. -/
theorem forall₂_mapM_piece {R : Instruction Nat → Piece → Prop}
    (hR : ∀ {insn p} {q q' : π}, piece insn q = (.ok p, q') → R insn p)
    {body : List (Instruction Nat)} (h : body.mapM piece q = (.ok pieces, q')) :
    List.Forall₂ R body pieces := by
  induction body generalizing q pieces with
  | nil =>
      cases h
      exact .nil
  | cons insn body ih =>
      obtain ⟨made, t, rest, hmade, hrest, rfl⟩ := Steps.mapM_cons_eq_ok.1 h
      exact .cons (hR hmade) (ih hrest)

/-- No piece is lost or moved. -/
theorem map_insn_of_renders {body : List (Instruction Nat)}
    (h : List.Forall₂ Renders body pieces) : pieces.map Piece.insn = body := by
  induction h with
  | nil => rfl
  | cons hp _ ih => rw [List.map_cons, hp.insn_eq, ih]

/-- At first all jumps could still be widened. -/
theorem narrowJumps_mapM_piece {body : List (Instruction Nat)}
    (h : body.mapM piece q = (.ok pieces, q')) :
    narrowJumps pieces = body.countP Instruction.isJump := by
  have hforall := forall₂_mapM_piece isNarrowJump_piece h
  clear h
  induction hforall with
  | nil => rfl
  | cons hp _ ih => rw [narrowJumps, List.countP_cons, List.countP_cons, hp, ← ih, narrowJumps]

end Made

/-! ### Displacements -/

/-- The number in `width` bytes of a code array, in two's complement. -/
def signedAt? (code : Bytes) (start width : Nat) : Option Int :=
  if start + width ≤ code.length then
    some ((ofBigEndian ((code.drop start).take width) : Int).bmod (256 ^ width))
  else
    none

/-- Bytes from one target of a switch to the next: only a lookup has its keys in
between. -/
def stride {τ : Type} : SwitchTable τ → Nat
  | .table .. => 4
  | .lookup _ => 8

/-- Where the displacement to target `k` of an instruction at `pc` starts. That of
a switch to its fallback is at the next multiple of four, and two more numbers
stand between it and the first case. -/
def distanceStart (pc : Nat) : Instruction Nat → Nat → Nat
  | .switch _ _, 0 => (pc + 4) / 4 * 4
  | .switch _ cases, k + 1 => (pc + 4) / 4 * 4 + 12 + stride cases * k
  | _, _ => pc + 1

/-- Bytes of a displacement behind an opcode. -/
def distanceWidth (opcode : Opcode) : Nat :=
  match Form.ofOpcode opcode with
  | .branch _ => 2
  | .jump => 2
  | _ => 4

/-- The instruction is found at `pc`: it begins with an opcode of its own, and the
displacements are the distances to the offsets of its targets. -/
def StandsAt (l : Layout) (code : Bytes) (pc : Nat) (insn : Instruction Nat) : Prop :=
  ∃ opcode, code[pc]? = some opcode ∧ Opens opcode insn ∧
    ∀ k target, insn.targets[k]? = some target → ∃ there, l.offset? target = some there ∧
      signedAt? code (distanceStart pc insn k) (distanceWidth opcode) = some ((there : Int) - pc)

/-- A number that fits its width comes back with its sign. -/
theorem bmod_ofBigEndian_signedBytes {width : Nat} {d : Int} (hlo : -(256 ^ width : Nat) ≤ d * 2)
    (hhi : d * 2 < (256 ^ width : Nat)) :
    (ofBigEndian (signedBytes width d) : Int).bmod (256 ^ width) = d := by
  have hpos : (0 : Int) < (256 ^ width : Nat) := by exact_mod_cast Nat.pow_pos (by decide)
  have hlt := Int.emod_lt_of_pos d hpos
  have hnonneg := Int.emod_nonneg d hpos.ne'
  rw [signedBytes, Nat.pow_eq, ofBigEndian_bigEndian, Nat.mod_eq_of_lt (by omega),
    Int.toNat_of_nonneg hnonneg, Int.emod_bmod]
  exact Int.bmod_eq_of_le_mul_two hlo hhi

/-- A displacement that was written is found where it stands. -/
theorem signedAt?_of_isPrefix {bytes before after : Bytes} {start width : Nat} {d : Int}
    (h : bytes <+: code.drop pc) (hsplit : bytes = before ++ signedBytes width d ++ after)
    (hstart : start = pc + before.length) (hwidth : 0 < width)
    (hlo : -(256 ^ width : Nat) ≤ d * 2) (hhi : d * 2 < (256 ^ width : Nat)) :
    signedAt? code start width = some d := by
  obtain ⟨rest, hrest⟩ := h
  have hdrop : code.drop start = signedBytes width d ++ (after ++ rest) := by
    rw [hstart, ← List.drop_drop, ← hrest, hsplit]
    simp
  have hlength := congrArg List.length hdrop
  simp only [List.length_drop, List.length_append, length_signedBytes] at hlength
  rw [signedAt?, if_pos (by omega), hdrop, List.take_left' (length_signedBytes width d),
    bmod_ofBigEndian_signedBytes hlo hhi]

/-- The displacement of a transfer with one target. -/
theorem signedAt?_of_cons {opcode : Opcode} {width : Nat} {d : Int}
    (h : opcode :: signedBytes width d <+: code.drop pc) (hwidth : 0 < width)
    (hlo : -(256 ^ width : Nat) ≤ d * 2) (hhi : d * 2 < (256 ^ width : Nat)) :
    signedAt? code (pc + 1) width = some d := by
  have hsplit : opcode :: signedBytes width d = [opcode] ++ signedBytes width d ++ [] := by simp
  exact signedAt?_of_isPrefix h hsplit rfl hwidth hlo hhi

theorem getElem?_of_isPrefix {opcode : Opcode} {operands : Bytes}
    (h : opcode :: operands <+: code.drop pc) : code[pc]? = some opcode := by
  obtain ⟨rest, hrest⟩ := h
  have hfirst : (code.drop pc)[0]? = some opcode := by
    rw [← hrest]
    rfl
  simpa using hfirst

/-! ### Targets -/

theorem Layout.exists_offset?_of_displacement {target : Nat} {d : Int}
    (h : l.displacement index target = .ok d) : ∃ there, l.offset? target = some there := by
  unfold Layout.displacement at h
  cases hoffset : l.offset? target with
  | none =>
      rw [hoffset] at h
      cases h
  | some there => exact ⟨there, rfl⟩

/-- Where a position has an offset, it is the place that displacements are
measured to. -/
theorem Layout.place_of_offset? {target there : Nat} (h : l.offset? target = some there) :
    l.place target = there := by
  unfold Layout.offset? at h
  by_cases hend : target = l.offsets.size
  · rw [if_pos hend] at h
    cases h
    simp [Layout.place, hend]
  · rw [if_neg hend] at h
    rw [Layout.place, h, Option.getD_some]

/-- The cases of a switch are written only if all their targets exist. -/
theorem exists_of_casesBytes_eq_ok {far : Nat → Except EncodeError Bytes}
    {cases : SwitchTable Nat} {bytes : Bytes} (h : casesBytes far cases = .ok bytes) :
    ∀ target ∈ cases.targets, ∃ bs, far target = .ok bs := by
  cases cases with
  | table low high targets =>
      obtain ⟨found, hfound, -⟩ := Except.bind_eq_ok.1 h
      exact List.exists_of_mapM_eq_ok hfound
  | lookup pairs =>
      obtain ⟨found, hfound, -⟩ := Except.bind_eq_ok.1 h
      intro target htarget
      obtain ⟨pair, hpair, rfl⟩ := List.mem_map.1 htarget
      obtain ⟨entry, hentry⟩ := List.exists_of_mapM_eq_ok hfound pair hpair
      obtain ⟨bs, hbs, -⟩ := Except.bind_eq_ok.1 hentry
      exact ⟨bs, hbs⟩

/-- A piece is written only if all its targets exist. -/
theorem exists_offset?_of_pieceBytes {bytes : Bytes} (h : pieceBytes l index p = .ok bytes) :
    ∀ target ∈ p.insn.targets, ∃ there, l.offset? target = some there := by
  have hdisplacement : ∀ {target} {f : Int → Bytes} {bs : Bytes},
      (do return f (← l.displacement index target) : Except EncodeError Bytes) = .ok bs →
        ∃ there, l.offset? target = some there := by
    intro target f bs h
    obtain ⟨d, hd, -⟩ := Except.bind_eq_ok.1 h
    exact Layout.exists_offset?_of_displacement hd
  obtain ⟨insn, pooled, wide⟩ := p
  cases insn with
  | branch condition target => exact List.forall_mem_singleton.2 (hdisplacement h)
  | jump target => exact List.forall_mem_singleton.2 (hdisplacement h)
  | switch fallback cases =>
      obtain ⟨default, hdefault, h⟩ := Except.bind_eq_ok.1 h
      obtain ⟨found, hfound, -⟩ := Except.bind_eq_ok.1 h
      refine List.forall_mem_cons.2 ⟨hdisplacement hdefault, fun target htarget => ?_⟩
      obtain ⟨bs, hbs⟩ := exists_of_casesBytes_eq_ok hfound target htarget
      exact hdisplacement hbs
  | _ => simp [Instruction.targets]

/-! ### Cases of a switch -/

/-- Where the bytes of an item start if all items are equally long. -/
theorem exists_flatMap_eq {α : Type} {f : α → Bytes} {width : Nat} {a : α} {as : List α}
    (hf : ∀ a, (f a).length = width) (hk : as[k]? = some a) :
    ∃ before after, as.flatMap f = before ++ f a ++ after ∧ before.length = width * k := by
  induction as generalizing k with
  | nil => cases hk
  | cons b as ih =>
      cases k with
      | zero =>
          cases hk
          exact ⟨[], as.flatMap f, by simp, rfl⟩
      | succ k =>
          obtain ⟨before, after, heq, hlength⟩ := ih hk
          refine ⟨f b ++ before, after, by simp [heq], ?_⟩
          rw [List.length_append, hf, hlength, Nat.mul_succ, Nat.add_comm]

/-- Where the displacement of a case starts, counted from behind the one of the
fallback. -/
theorem exists_spellCases_eq {spell : Nat → Bytes} {cases : SwitchTable Nat} {target : Nat}
    (hspell : ∀ t, (spell t).length = 4) (hk : cases.targets[k]? = some target) :
    ∃ before after, spellCases spell cases = before ++ spell target ++ after ∧
      before.length = 8 + stride cases * k := by
  cases cases with
  | table low high targets =>
      obtain ⟨before, after, heq, hlength⟩ := exists_flatMap_eq hspell hk
      refine ⟨signedBytes 4 low.toInt ++ signedBytes 4 high.toInt ++ before, after, ?_, ?_⟩
      · rw [SwitchTable.targets] at heq
        simp [spellCases, heq]
      · simp only [List.length_append, length_signedBytes, hlength, stride]
  | lookup pairs =>
      obtain ⟨pair, hpair, rfl⟩ : ∃ pair, pairs[k]? = some pair ∧ pair.2 = target := by
        simpa only [SwitchTable.targets, List.getElem?_map, Option.map_eq_some_iff] using hk
      have hentry : ∀ q : Int32 × Nat, (signedBytes 4 q.1.toInt ++ spell q.2).length = 8 := by
        simp [hspell]
      obtain ⟨before, after, heq, hlength⟩ := exists_flatMap_eq hentry hpair
      refine ⟨signedBytes 4 pairs.length ++ before ++ signedBytes 4 pair.1.toInt, after, ?_, ?_⟩
      · simp [spellCases, heq]
      · simp only [List.length_append, length_signedBytes, hlength, stride]
        omega

/-! ### Instructions at their offsets -/

/-- Every displacement of a switch is where the machine looks for it: padding puts
the first one at a multiple of four, and the others follow in equal strides. -/
theorem signedAt?_switch {fallback target : Nat} {cases : SwitchTable Nat}
    {pooled : Option UInt16} {wide : Bool}
    (h : spell l.place pc ⟨.switch fallback cases, pooled, wide⟩ <+: code.drop pc)
    (hk : (fallback :: cases.targets)[k]? = some target)
    (hplace : ∀ t, l.place t ≤ 65535) (hpc : pc ≤ 65535) :
    signedAt? code (distanceStart pc (.switch fallback cases) k) 4 =
      some ((l.place target : Int) - pc) := by
  -- The next multiple of four behind the opcode is where the padding ends.
  have hbase : (pc + 4) / 4 * 4 = pc + (1 + switchPadding pc) := by
    unfold switchPadding
    omega
  have := hplace target
  cases k with
  | zero =>
      cases hk
      have hsplit : spell l.place pc ⟨.switch fallback cases, pooled, wide⟩ =
          (switchOpcode cases :: List.replicate (switchPadding pc) 0) ++
            signedBytes 4 ((l.place fallback : Int) - pc) ++
            spellCases (fun t => signedBytes 4 ((l.place t : Int) - pc)) cases := by
        simp [spell]
      refine signedAt?_of_isPrefix h hsplit ?_ (by decide) (by omega) (by omega)
      rw [distanceStart, hbase, List.length_cons, List.length_replicate]
      omega
  | succ k =>
      obtain ⟨before, after, heq, hlength⟩ :=
        exists_spellCases_eq (fun t => length_signedBytes 4 ((l.place t : Int) - pc)) hk
      have hsplit : spell l.place pc ⟨.switch fallback cases, pooled, wide⟩ =
          (switchOpcode cases :: List.replicate (switchPadding pc) 0 ++
            signedBytes 4 ((l.place fallback : Int) - pc) ++ before) ++
            signedBytes 4 ((l.place target : Int) - pc) ++ after := by
        simp [spell, heq]
      refine signedAt?_of_isPrefix h hsplit ?_ (by decide) (by omega) (by omega)
      simp only [distanceStart, hbase, List.length_append, List.length_cons,
        List.length_replicate, length_signedBytes, hlength]
      omega

theorem fitsNear_iff {d : Int} : fitsNear d ↔ -32768 ≤ d ∧ d ≤ 32767 := by
  simp [fitsNear]

theorem forall_getElem?_singleton {α : Type} {a : α} {P : Nat → α → Prop} :
    (∀ k b, [a][k]? = some b → P k b) ↔ P 0 a := by
  constructor
  · exact fun h => h 0 a rfl
  · intro h k b hk
    cases k with
    | zero =>
        cases hk
        exact h
    | succ k => cases hk

/-- **A piece of a settled layout** makes its instruction stand at its offset. -/
theorem standsAt_of_widen {first : Bytes} (hp : p.Supplied)
    (hwiden : widen l index p = .ok p) (hpc : l.offsets[index]? = some pc)
    (hfirst : pieceBytes l index p = .ok first) (h : first <+: code.drop pc)
    (hplace : ∀ t, l.place t ≤ 65535) (hle : pc ≤ 65535) : StandsAt l code pc p.insn := by
  have hreach := exists_offset?_of_pieceBytes hfirst
  -- It is enough to find the distance to the place of each target.
  suffices hfind : ∃ opcode, code[pc]? = some opcode ∧ Opens opcode p.insn ∧
      ∀ k target, p.insn.targets[k]? = some target →
        signedAt? code (distanceStart pc p.insn k) (distanceWidth opcode) =
          some ((l.place target : Int) - pc) by
    obtain ⟨opcode, hopcode, hopens, hdistance⟩ := hfind
    refine ⟨opcode, hopcode, hopens, fun k target htarget => ?_⟩
    obtain ⟨there, hthere⟩ := hreach target (List.mem_of_getElem? htarget)
    rw [hdistance k target htarget, Layout.place_of_offset? hthere]
    exact ⟨there, hthere, rfl⟩
  by_cases htargets : p.insn.targets = []
  · obtain ⟨opcode, operands, rfl, hopens⟩ := exists_opens_plain hp htargets hfirst
    refine ⟨opcode, getElem?_of_isPrefix h, hopens, fun k target htarget => ?_⟩
    rw [htargets] at htarget
    cases htarget
  -- What is left are the transfers, each with the displacements that it spells.
  obtain rfl := pieceBytes_eq_ok hpc hfirst
  obtain ⟨insn, pooled, wide⟩ := p
  cases insn with
  | branch condition target =>
      obtain ⟨d, hd, hfits⟩ := near_of_widen_branch rfl hwiden
      rw [Layout.displacement_eq_ok hpc hd, fitsNear_iff] at hfits
      have hwidth : distanceWidth condition.opcode = 2 := by
        rw [distanceWidth, ofOpcode_condition]
      have hdistance := signedAt?_of_cons h (by decide) (by omega) (by omega)
      rw [← hwidth] at hdistance
      exact ⟨_, getElem?_of_isPrefix h, .branch (ofOpcode_condition condition),
        forall_getElem?_singleton.2 hdistance⟩
  | jump target =>
      cases wide with
      | false =>
          obtain ⟨d, hd, hfits⟩ := near_of_widen_jump rfl rfl hwiden
          rw [Layout.displacement_eq_ok hpc hd, fitsNear_iff] at hfits
          have hdistance := signedAt?_of_cons h (by decide) (by omega) (by omega)
          exact ⟨_, getElem?_of_isPrefix h, .jump rfl, forall_getElem?_singleton.2 hdistance⟩
      | true =>
          -- Offsets are below 65536, far inside the 32 bits of a wide jump.
          have := hplace target
          have hdistance := signedAt?_of_cons h (by decide) (by omega) (by omega)
          exact ⟨_, getElem?_of_isPrefix h, .jumpWide rfl, forall_getElem?_singleton.2 hdistance⟩
  | switch fallback cases =>
      have hdistance : ∀ k target, (fallback :: cases.targets)[k]? = some target →
          signedAt? code (distanceStart pc (.switch fallback cases) k) 4 =
            some ((l.place target : Int) - pc) :=
        fun k target htarget => signedAt?_switch h htarget hplace hle
      cases cases with
      | table low high targets =>
          exact ⟨_, getElem?_of_isPrefix h, .tableSwitch rfl, hdistance⟩
      | lookup pairs => exact ⟨_, getElem?_of_isPrefix h, .lookupSwitch rfl, hdistance⟩
  | _ => exact absurd rfl htargets

/-! ### Bodies -/

/-- Pieces that stay as they are in their layout do so one by one. -/
theorem widen_of_getElem? {i : Nat}
    (h : ((pieces.zipIdx k).mapM fun (p, i) => widen l i p) = .ok pieces)
    (hi : pieces[i]? = some p) : widen l (k + i) p = .ok p := by
  induction pieces generalizing k i with
  | nil => cases hi
  | cons first pieces ih =>
      rw [List.zipIdx_cons] at h
      obtain ⟨p', rest, hp, hrest, heq⟩ := List.mapM_cons_eq_ok.1 h
      obtain ⟨rfl, rfl⟩ := List.cons.inj heq
      cases i with
      | zero =>
          cases hi
          exact hp
      | succ i =>
          rw [← Nat.add_assoc, Nat.add_right_comm]
          exact ih hrest hi

/-- Sixteen bits are enough for the displacement from a piece to a target. -/
def Near (l : Layout) (index target : Nat) : Prop :=
  ∃ d, l.displacement index target = .ok d ∧ -2 ^ 15 ≤ d ∧ d < 2 ^ 15

theorem near_of_fitsNear {target : Nat}
    (h : ∃ d, l.displacement index target = .ok d ∧ fitsNear d) : Near l index target := by
  obtain ⟨d, hd, hfits⟩ := h
  rw [fitsNear_iff] at hfits
  exact ⟨d, hd, by omega, by omega⟩

/-- **Settled code.** Widening the jumps of a body takes no more layouts than there
are jumps, and one more. It ends with the same instructions, laid out by their
sizes, and 16 bits are enough for every conditional branch and every jump that
stayed narrow. The code array that is written in this layout is as long as the
layout says: every instruction has as many bytes as its size says, and stands at
its offset. -/
theorem settle_consistent {π : Type} [Pool π] {q q' : π} {m : Method}
    (h : m.code.mapM piece q = (.ok pieces, q')) :
    (∃ count, count ≤ m.code.countP Instruction.isJump + 1 ∧
      Settles pieces count (settle pieces)) ∧
    ∀ settled l, settle pieces = .ok (settled, l) →
      l = Layout.ofPieces settled ∧
      settled.map Piece.insn = m.code ∧
      (∀ i condition target, m.code[i]? = some (.branch condition target) → Near l i target) ∧
      (∀ i target, m.code[i]? = some (.jump target) → ∃ p, settled[i]? = some p ∧
        p.insn = .jump target ∧ (p.wide = false → Near l i target)) ∧
      ∀ bytes, (settled.zipIdx.mapM fun (p, i) => pieceBytes l i p) = .ok bytes →
        l.size ≤ 65535 →
        bytes.flatten.length = l.size ∧
        ∀ (i : Nat) (insn : Instruction Nat), m.code[i]? = some insn → ∃ p pc first,
          settled[i]? = some p ∧ p.insn = insn ∧ l.offsets[i]? = some pc ∧
          bytes[i]? = some first ∧ first.length = p.size pc ∧
          StandsAt l bytes.flatten pc insn := by
  refine ⟨?_, fun settled l hsettle => ?_⟩
  · rw [← narrowJumps_mapM_piece h]
    exact exists_settles pieces
  obtain ⟨hrenders, rfl, hwiden⟩ := settle_eq_ok (I := List.Forall₂ Renders m.code)
    (forall₂_widen Renders.widen) hsettle (forall₂_mapM_piece renders_piece h)
  -- Each instruction has its piece, and the piece has settled.
  have hpiece : ∀ {i insn}, m.code[i]? = some insn → ∃ p, settled[i]? = some p ∧
      Renders insn p ∧ widen (.ofPieces settled) i p = .ok p := by
    intro i insn hi
    obtain ⟨hlength, hget⟩ := List.forall₂_iff_get.1 hrenders
    obtain ⟨hlt, rfl⟩ := List.getElem?_eq_some_iff.1 hi
    have hp : settled[i]? = some settled[i] := List.getElem?_eq_getElem (hlength ▸ hlt)
    have hsettled := widen_of_getElem? hwiden hp
    rw [Nat.zero_add] at hsettled
    exact ⟨_, hp, hget i hlt (hlength ▸ hlt), hsettled⟩
  refine ⟨rfl, map_insn_of_renders hrenders, fun i condition target hi => ?_,
    fun i target hi => ?_, fun bytes hbytes hsize => ?_⟩
  · obtain ⟨p, -, hr, hsettled⟩ := hpiece hi
    exact near_of_fitsNear (near_of_widen_branch hr.insn_eq hsettled)
  · obtain ⟨p, hp, hr, hsettled⟩ := hpiece hi
    exact ⟨p, hp, hr.insn_eq, fun hnarrow =>
      near_of_fitsNear (near_of_widen_jump hr.insn_eq hnarrow hsettled)⟩
  · have hoffsets : (Layout.ofPieces settled).offsets.toList = starts 0 settled := by
      rw [Layout.ofPieces_eq]
    obtain ⟨hfinish, hwritten⟩ :=
      pieceBytes_isPrefix (forall_supplied Renders.supplied hrenders) hbytes hoffsets
    refine ⟨?_, fun i insn hi => ?_⟩
    · rw [← Nat.zero_add bytes.flatten.length, hfinish, Layout.ofPieces_eq]
    · obtain ⟨p, hp, ⟨rfl, hsupplied⟩, hsettled⟩ := hpiece hi
      obtain ⟨pc, first, hpc, -, hget, hfirst, hlength, hprefix⟩ := hwritten hp
      rw [Nat.zero_add] at hpc hfirst
      have hplace : ∀ t, (Layout.ofPieces settled).place t ≤ 65535 :=
        fun t => (Layout.place_le t).trans hsize
      have hle : pc ≤ 65535 := by
        have hplace := hplace i
        rwa [Layout.place, hpc, Option.getD_some] at hplace
      exact ⟨p, pc, first, hp, rfl, hpc, hget, hlength,
        standsAt_of_widen hsupplied hsettled hpc hfirst hprefix hplace hle⟩

/-- More operands than 16 bits count. -/
def filler : Bytes := List.replicate 40000 0

/-- A jump over them, to the end. -/
def longJump : Method where
  code := [.jump 2, .verbatim 0x00 filler]

/-- The pieces of `longJump`. -/
def longPieces (wide : Bool) : List Piece :=
  [{ insn := .jump 2, wide }, { insn := .verbatim 0x00 filler }]

/-- The layout for any operands of this length. With the operands at hand, the
kernel would count them. -/
theorem ofPieces_jump_verbatim {operands : Bytes} (h : operands.length = 40000) (wide : Bool) :
    Layout.ofPieces [{ insn := .jump 2, wide }, { insn := .verbatim 0x00 operands }] =
      ⟨#[0, if wide then 5 else 3], (if wide then 5 else 3) + 40001⟩ := by
  simp [Layout.ofPieces_eq, starts, finish, Piece.size, h]

theorem ofPieces_longPieces (wide : Bool) : Layout.ofPieces (longPieces wide) =
    ⟨#[0, if wide then 5 else 3], (if wide then 5 else 3) + 40001⟩ :=
  ofPieces_jump_verbatim (by rw [filler, List.length_replicate]) wide

/-- The jump is widened in the first layout and reaches its target in the second. -/
theorem settles_longPieces : Settles (longPieces false) 2
    (.ok (longPieces true, .ofPieces (longPieces true))) := by
  have hround : ∀ wide, round (longPieces wide) = .ok (longPieces true) := by
    intro wide
    rw [round, ofPieces_longPieces]
    cases wide <;> rfl
  exact .again (hround false) (by simp [longPieces]) (.ends (hround true))

/-- Written wide, the jump reaches the end of a code array that it has made
longer. -/
theorem settle_consistent_longJump :
    longJump.code.mapM piece ({} : LiteralPool) = (.ok (longPieces false), {}) ∧
    ∃ l bytes first, settle (longPieces false) = .ok (longPieces true, l) ∧
      ((longPieces true).zipIdx.mapM fun (p, i) => pieceBytes l i p) = .ok bytes ∧
      bytes.flatten.length = 40006 ∧ bytes[0]? = some first ∧ first.length = 5 ∧
      StandsAt l bytes.flatten 0 (.jump 2) := by
  have hpieces : longJump.code.mapM piece ({} : LiteralPool) = (.ok (longPieces false), {}) := rfl
  have hsettle := settles_longPieces.settle_eq
  obtain ⟨-, -, -, -, hcode⟩ := (settle_consistent hpieces).2 _ _ hsettle
  have hlayout := ofPieces_longPieces true
  rw [hlayout] at hsettle hcode
  obtain ⟨hlength, hstands⟩ := hcode _ rfl (by decide)
  obtain ⟨p, pc, first, hp, -, hpc, hfirst, hsize, hstands⟩ := hstands 0 _ rfl
  cases hp
  cases hpc
  exact ⟨hpieces, _, _, first, hsettle, rfl, hlength, hfirst, hsize, hstands⟩

end Code

end JvmOptimizer
