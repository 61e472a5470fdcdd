import JvmOptimizer.Proofs.Code.Pieces
import JvmOptimizer.Proofs.Instruction

/-!
# Settled layouts

Pieces lie one behind the other, so the offset of each is the size of those in
front of it (`starts`, `finish`). Sizes are counted before anything is written;
that the bytes of a piece are as many is shown for each instruction
(`length_pieceBytes`), so every piece is written at its offset.

Widening stops at pieces that stay as they are in their own layout
(`settle_eq_ok`): there, every displacement that is written in 16 bits fits into
them. A piece of such a layout that stands for an instruction is written as bytes
that are read as this instruction, with the offsets of its targets in place of
their positions (`reads_spell`).
-/

namespace JvmOptimizer.Code

open Reader

/-! ### Offsets -/

/-- The offsets of pieces of which the first lies at `pc`. -/
def starts (pc : Nat) : List Piece → List Nat
  | [] => []
  | p :: pieces => pc :: starts (pc + p.size pc) pieces

/-- The offset behind pieces of which the first lies at `pc`. -/
def finish (pc : Nat) : List Piece → Nat
  | [] => pc
  | p :: pieces => finish (pc + p.size pc) pieces

theorem le_finish (pc : Nat) (pieces : List Piece) : pc ≤ finish pc pieces := by
  induction pieces generalizing pc with
  | nil => exact Nat.le_refl pc
  | cons p pieces ih => exact Nat.le_trans (Nat.le_add_right _ _) (ih _)

theorem le_finish_of_mem_starts {pc start : Nat} {pieces : List Piece}
    (h : start ∈ starts pc pieces) : start ≤ finish pc pieces := by
  induction pieces generalizing pc with
  | nil => cases h
  | cons p pieces ih =>
      rcases List.mem_cons.1 h with rfl | h
      · exact le_finish start (p :: pieces)
      · exact ih h

@[simp]
theorem length_starts (pc : Nat) (pieces : List Piece) :
    (starts pc pieces).length = pieces.length := by
  induction pieces generalizing pc with
  | nil => rfl
  | cons p pieces ih => simp [starts, ih]

/-- Offsets that are those of pieces begin with the first one's. -/
theorem getElem?_of_drop_eq_starts {offsets : Array Nat} {index pc : Nat} {p : Piece}
    {pieces : List Piece} (h : offsets.toList.drop index = starts pc (p :: pieces)) :
    offsets[index]? = some pc ∧
      offsets.toList.drop (index + 1) = starts (pc + p.size pc) pieces := by
  constructor
  · have hfirst : (offsets.toList.drop index)[0]? = some pc := by
      rw [h]
      rfl
    simpa using hfirst
  · rw [← List.tail_drop, h]
    rfl

namespace Layout

/-- Laying out pieces behind others, in closed form. -/
theorem foldl_push (offsets : Array Nat) (pc : Nat) (pieces : List Piece) :
    pieces.foldl push ⟨offsets, pc⟩ = ⟨offsets ++ starts pc pieces, finish pc pieces⟩ := by
  induction pieces generalizing offsets pc with
  | nil => simp [starts, finish]
  | cons p pieces ih =>
      rw [List.foldl_cons, push, ih]
      simp [starts, finish]

theorem ofPieces_eq (pieces : List Piece) :
    ofPieces pieces = ⟨(starts 0 pieces).toArray, finish 0 pieces⟩ := by
  simp [ofPieces, foldl_push]

/-- The offset of a position; those behind the last piece count as the end. -/
def place (l : Layout) (position : Nat) : Nat := l.offsets[position]?.getD l.size

/-- A displacement leads from the piece to the place of its target. -/
theorem displacement_eq_ok {l : Layout} {index target pc : Nat} {d : Int}
    (hpc : l.offsets[index]? = some pc) (h : l.displacement index target = .ok d) :
    d = l.place target - pc := by
  unfold displacement offset? at h
  by_cases hend : target = l.offsets.size
  · rw [if_pos hend] at h
    cases h
    simp [place, hend, hpc]
  · rw [if_neg hend] at h
    cases hoffset : l.offsets[target]? with
    | none =>
        rw [hoffset] at h
        cases h
    | some there =>
        rw [hoffset] at h
        cases h
        simp [place, hoffset, hpc]

/-- No position lies behind the end. -/
theorem place_le {pieces : List Piece} (position : Nat) :
    (ofPieces pieces).place position ≤ (ofPieces pieces).size := by
  rw [ofPieces_eq]
  simp only [place, List.getElem?_toArray]
  cases h : (starts 0 pieces)[position]? with
  | none => exact Nat.le_refl _
  | some start => exact le_finish_of_mem_starts (List.mem_of_getElem? h)

end Layout

/-! ### Widening -/

variable {l : Layout} {index : Nat} {p p' : Piece} {pieces pieces' : List Piece}

/-- A piece stays as it is, or it is a jump that becomes wide. -/
theorem widen_cases (h : widen l index p = .ok p') :
    p' = p ∨ p.isNarrowJump ∧ p' = { p with wide := true } := by
  obtain ⟨insn, pooled, wide⟩ := p
  cases insn with
  | jump target =>
      cases wide with
      | true =>
          cases h
          exact .inl rfl
      | false =>
          obtain ⟨d, -, h⟩ := Except.bind_eq_ok.1 h
          cases hfits : fitsNear d <;> rw [hfits] at h <;> cases h
          · exact .inr ⟨rfl, rfl⟩
          · exact .inl rfl
  | branch condition target =>
      obtain ⟨d, -, h⟩ := Except.bind_eq_ok.1 h
      cases hfits : fitsNear d <;> rw [hfits] at h <;> cases h
      exact .inl rfl
  | _ =>
      cases h
      exact .inl rfl

/-- Widening changes neither the instruction nor its index in the pool. -/
theorem insn_widen (h : widen l index p = .ok p') : p'.insn = p.insn ∧ p'.pooled = p.pooled := by
  rcases widen_cases h with rfl | ⟨-, rfl⟩
  · exact ⟨rfl, rfl⟩
  · exact ⟨rfl, rfl⟩

theorem isNarrowJump_wide (p : Piece) : { p with wide := true }.isNarrowJump = false := by
  unfold Piece.isNarrowJump
  cases p.insn <;> rfl

/-- There is no wide form of a conditional branch, so widening fails if one does
not reach its target. -/
theorem near_of_widen_branch {condition : Condition} {target : Nat}
    (hinsn : p.insn = .branch condition target) (h : widen l index p = .ok p') :
    ∃ d, l.displacement index target = .ok d ∧ fitsNear d := by
  simp only [widen, hinsn] at h
  obtain ⟨d, hd, h⟩ := Except.bind_eq_ok.1 h
  refine ⟨d, hd, ?_⟩
  by_contra hfar
  rw [if_neg hfar] at h
  cases h

/-- A jump that stays narrow reaches its target. -/
theorem near_of_widen_jump {target : Nat} (hinsn : p.insn = .jump target)
    (hnarrow : p.wide = false) (h : widen l index p = .ok p) :
    ∃ d, l.displacement index target = .ok d ∧ fitsNear d := by
  simp only [widen, hinsn, hnarrow] at h
  obtain ⟨d, hd, h⟩ := Except.bind_eq_ok.1 h
  refine ⟨d, hd, ?_⟩
  -- The jump would be wide now if it did not reach.
  have hwide := congrArg Piece.wide (Except.ok.inj h)
  rw [hnarrow] at hwide
  simpa using hwide

/-- What widening a piece keeps is kept of all instructions and their pieces. -/
theorem forall₂_widen {R : Instruction Nat → Piece → Prop} {k : Nat}
    {code : List (Instruction Nat)}
    (hR : ∀ {l index insn p p'}, R insn p → widen l index p = .ok p' → R insn p')
    (h : List.Forall₂ R code pieces)
    (hw : ((pieces.zipIdx k).mapM fun (p, i) => widen l i p) = .ok pieces') :
    List.Forall₂ R code pieces' := by
  induction h generalizing k pieces' with
  | nil =>
      cases hw
      exact .nil
  | cons hp hrest ih =>
      rw [List.zipIdx_cons] at hw
      obtain ⟨p', rest, hp', hrest', rfl⟩ := List.mapM_cons_eq_ok.1 hw
      exact .cons (hR hp hp') (ih hrest')

/-- Widening makes no jump narrow, and if as many are narrow as before, nothing
has changed. -/
theorem narrowJumps_widen {k : Nat}
    (h : ((pieces.zipIdx k).mapM fun (p, i) => widen l i p) = .ok pieces') :
    narrowJumps pieces' ≤ narrowJumps pieces ∧
      (narrowJumps pieces' = narrowJumps pieces → pieces' = pieces) := by
  induction pieces generalizing k pieces' with
  | nil =>
      cases h
      exact ⟨Nat.le_refl _, fun _ => rfl⟩
  | cons p pieces ih =>
      rw [List.zipIdx_cons] at h
      obtain ⟨p', rest, hp, hrest, rfl⟩ := List.mapM_cons_eq_ok.1 h
      obtain ⟨hle, heq⟩ := ih hrest
      unfold narrowJumps at hle heq ⊢
      rcases widen_cases hp with rfl | ⟨hnarrow, rfl⟩
      · simp only [List.countP_cons, Nat.add_right_cancel_iff, List.cons.injEq, true_and]
        exact ⟨Nat.add_le_add_right hle _, heq⟩
      · -- One narrow jump is gone, so the numbers cannot be the same.
        simp only [List.countP_cons, isNarrowJump_wide, hnarrow]
        constructor
        · simp
          omega
        · intro h
          simp at h
          omega

/-- **Widening ends at pieces that fit their own layout.** What holds of the
pieces and is kept by widening one of them holds at the end as well. -/
theorem settle_eq_ok {I : List Piece → Prop}
    (hI : ∀ {l pieces pieces'}, I pieces →
      (pieces.zipIdx.mapM fun (p, i) => widen l i p) = .ok pieces' → I pieces')
    (h : settle pieces = .ok (pieces', l)) (hpieces : I pieces) :
    I pieces' ∧ l = Layout.ofPieces pieces' ∧
      (pieces'.zipIdx.mapM fun (p, i) => widen l i p) = .ok pieces' := by
  fun_induction settle pieces with
  | case1 pieces l' e hwiden => cases h
  | case2 pieces l' widened hwiden hfewer ih => exact ih h (hI hpieces hwiden)
  | case3 pieces l' widened hwiden hsame =>
      simp only [Except.ok.injEq, Prod.mk.injEq] at h
      obtain ⟨rfl, rfl⟩ := h
      obtain ⟨hle, heq⟩ := narrowJumps_widen hwiden
      rw [heq (by omega)] at hwiden
      exact ⟨hpieces, rfl, hwiden⟩

/-! ### Switches -/

/-- The cases of a switch, if `spell` gives the bytes of a target. -/
def spellCases (spell : Nat → Bytes) : SwitchTable Nat → Bytes
  | .table low high targets =>
      signedBytes 4 low.toInt ++ signedBytes 4 high.toInt ++ targets.flatMap spell
  | .lookup pairs =>
      signedBytes 4 pairs.length ++ pairs.flatMap fun p => signedBytes 4 p.1.toInt ++ spell p.2

/-- The cases of a switch, if the bytes of each target are known. -/
theorem casesBytes_eq_ok {far : Nat → Except EncodeError Bytes} {spell : Nat → Bytes}
    {cases : SwitchTable Nat} {bytes : Bytes} (hfar : ∀ t bs, far t = .ok bs → bs = spell t)
    (h : casesBytes far cases = .ok bytes) : bytes = spellCases spell cases := by
  cases cases with
  | table low high targets =>
      obtain ⟨found, hfound, h⟩ := Except.bind_eq_ok.1 h
      cases h
      rw [List.eq_map_of_mapM_eq_ok hfar hfound]
      rfl
  | lookup pairs =>
      obtain ⟨found, hfound, h⟩ := Except.bind_eq_ok.1 h
      cases h
      rw [List.eq_map_of_mapM_eq_ok
        (g := fun p => signedBytes 4 p.1.toInt ++ spell p.2) ?_ hfound]
      · rfl
      · intro p bs hp
        obtain ⟨bs', hbs', hp⟩ := Except.bind_eq_ok.1 hp
        cases hp
        rw [hfar _ _ hbs']

section Reading

variable {pc start : Nat} {place : Nat → Int} {spell : Nat → Bytes}

/-- A table is read back if it lists a target for each key: their number is not
written anywhere else. -/
theorem reads_tableCases {low high : Int32} {targets : List Nat} (hle : low ≤ high)
    (hcount : (targets.length : Int) = high.toInt - low.toInt + 1)
    (hfar : ∀ t ∈ targets, ∀ start, Reads (far pc) start (spell t) (place t)) :
    Reads (tableCases pc) start (spellCases spell (.table low high targets))
      (.table low high (targets.map place)) := by
  have hlt : ¬ high < low := Int32.not_lt.2 hle
  have hlength : (high.toInt - low.toInt + 1).toNat = targets.length := by omega
  simp only [spellCases, List.append_assoc]
  refine (reads_key low).bind ((reads_key high).bind ?_)
  rw [if_neg hlt, hlength]
  exact (Reads.many hfar).map _

/-- A lookup has its number of pairs in front, which must fit into a signed word.
-/
theorem reads_lookupCases {pairs : List (Int32 × Nat)} (hcount : pairs.length < 2 ^ 31)
    (hfar : ∀ t ∈ pairs.map (·.2), ∀ start, Reads (far pc) start (spell t) (place t)) :
    Reads (lookupCases pc) start (spellCases spell (.lookup pairs))
      (.lookup (pairs.map fun p => (p.1, place p.2))) := by
  have hcountInt : (Int32.ofInt pairs.length).toInt = pairs.length :=
    Int32.toInt_ofInt_of_le (by omega) (by omega)
  have hneg : ¬ Int32.ofInt pairs.length < 0 := by
    rw [Int32.lt_iff_toInt_lt, hcountInt]
    simp
  refine (reads_i32 pairs.length).bind ?_
  rw [if_neg hneg, hcountInt, Int.toNat_natCast]
  refine (Reads.many fun p hp start => ?_).map _
  exact (reads_key p.1).bind ((hfar p.2 (List.mem_map_of_mem hp) _).map _)

end Reading

/-! ### Bytes -/

/-- The bytes of a piece at `pc`, if `place` gives the offsets of positions. -/
def spell (place : Nat → Nat) (pc : Nat) (p : Piece) : Bytes :=
  match p.insn with
  | .const value => constantBytes value p.pooled
  | .load kind slot => localBytes 0x15 0x1a kind slot
  | .store kind slot => localBytes 0x36 0x3b kind slot
  | .increment slot delta => incrementBytes slot delta
  | .arith op kind => [arithOpcode op kind]
  | .compare c => [c.opcode]
  | .convert source target => (conversionOpcode? source target).toList
  | .branch condition target => condition.opcode :: signedBytes 2 (place target - pc)
  | .jump target =>
      if p.wide then 0xc8 :: signedBytes 4 (place target - pc)
      else 0xa7 :: signedBytes 2 (place target - pc)
  | .switch fallback cases =>
      switchOpcode cases :: (List.replicate (switchPadding pc) 0 ++
        (signedBytes 4 (place fallback - pc) ++
          spellCases (fun t => signedBytes 4 (place t - pc)) cases))
  | .verbatim opcode operands => opcode :: operands

/-- A conversion is written only if it has an opcode. -/
theorem pieceBytes_convert_eq_ok {source : Kind} {target : ConvertTarget}
    {pooled : Option UInt16} {wide : Bool} {bytes : Bytes}
    (h : pieceBytes l index ⟨.convert source target, pooled, wide⟩ = .ok bytes) :
    ∃ opcode, conversionOpcode? source target = some opcode ∧ bytes = [opcode] := by
  simp only [pieceBytes] at h
  cases hopcode : conversionOpcode? source target with
  | none =>
      rw [hopcode] at h
      cases h
  | some opcode =>
      rw [hopcode] at h
      cases h
      exact ⟨opcode, rfl, rfl⟩

/-- What is written, without the errors: the displacements are differences of
places. -/
theorem pieceBytes_eq_ok {pc : Nat} {bytes : Bytes} (hpc : l.offsets[index]? = some pc)
    (h : pieceBytes l index p = .ok bytes) : bytes = spell l.place pc p := by
  obtain ⟨insn, pooled, wide⟩ := p
  cases insn with
  | convert source target =>
      obtain ⟨opcode, hopcode, rfl⟩ := pieceBytes_convert_eq_ok h
      simp only [spell, hopcode, Option.toList_some]
  | branch condition target =>
      obtain ⟨d, hd, h⟩ := Except.bind_eq_ok.1 h
      cases h
      rw [Layout.displacement_eq_ok hpc hd]
      rfl
  | jump target =>
      obtain ⟨d, hd, h⟩ := Except.bind_eq_ok.1 h
      cases h
      rw [Layout.displacement_eq_ok hpc hd]
      rfl
  | switch fallback cases =>
      -- Every target of a switch is written in the same way.
      have hfar : ∀ t bs, (do return signedBytes 4 (← l.displacement index t) :
          Except EncodeError Bytes) = .ok bs → bs = signedBytes 4 (l.place t - pc) := by
        intro t bs h
        obtain ⟨d, hd, h⟩ := Except.bind_eq_ok.1 h
        cases h
        rw [Layout.displacement_eq_ok hpc hd]
      obtain ⟨default, hdefault, h⟩ := Except.bind_eq_ok.1 h
      obtain ⟨found, hfound, h⟩ := Except.bind_eq_ok.1 h
      cases h
      rw [hfar _ _ hdefault, casesBytes_eq_ok hfar hfound, hpc]
      simp [spell]
  | _ =>
      cases h
      rfl

/-! ### Sizes -/

@[simp]
theorem length_signedBytes (width : Nat) (n : Int) : (signedBytes width n).length = width := by
  simp [signedBytes]

/-- The writer asks for two slots first, the size for one: no number has more. -/
theorem length_pooledBytes (value : Value) (index : UInt16) :
    (pooledBytes value.slots index).length =
      if value.slots = 1 ∧ index ≤ 255 then 2 else 3 := by
  unfold pooledBytes
  rcases value.slots_eq with hslots | hslots
  · by_cases hindex : index ≤ 255 <;> simp [hslots, hindex, wordBytes]
  · simp [hslots, wordBytes]

/-- A constant is as long as its size says if it has an index in case it needs
one. -/
theorem length_constantBytes {value : Value} {pooled : Option UInt16}
    (h : needsPool value → pooled.isSome) :
    (constantBytes value pooled).length = Piece.constantSize value pooled := by
  unfold Piece.constantSize
  refine constantBytes_cases (P := fun bytes => bytes.length = _) h (fun hs => ?_)
    (fun hs hindex => ?_) (fun hs hnone hv hlo hhi => ?_) (fun hs hnone hv hnot _ _ => ?_)
  · simp [hs]
  · simp [hs, hindex, length_pooledBytes]
  · subst hv
    simp [hs, hnone, hlo, hhi]
  · subst hv
    simp [hs, hnone, hnot]

/-- The three spellings of a variable access, of one, two and four bytes. -/
theorem length_localBytes (long short : Nat) (kind : LocalKind) (index : UInt16) :
    (localBytes long short kind index).length = Piece.localSize index := by
  unfold localBytes Piece.localSize
  by_cases h3 : index ≤ 3
  · simp [h3]
  · by_cases h255 : index ≤ 255 <;> simp [h3, h255, wordBytes]

/-- The two spellings of an increment, of three and six bytes. -/
theorem length_incrementBytes (index : UInt16) (delta : Int16) :
    (incrementBytes index delta).length = Piece.incrementSize index delta := by
  unfold incrementBytes Piece.incrementSize
  by_cases h : index ≤ 255 ∧ -128 ≤ delta.toInt ∧ delta.toInt ≤ 127 <;> simp [h, wordBytes]

/-- The cases of a switch and the four bytes of its fallback. -/
theorem length_spellCases {spell : Nat → Bytes} (hspell : ∀ t, (spell t).length = 4)
    (cases : SwitchTable Nat) : 4 + (spellCases spell cases).length = Piece.casesSize cases := by
  cases cases with
  | table low high targets =>
      simp [spellCases, Piece.casesSize, List.length_flatMap, hspell]
      omega
  | lookup pairs =>
      simp [spellCases, Piece.casesSize, List.length_flatMap, hspell]
      omega

/-- **A piece is as long as its size says.** The size was counted without writing
the instruction, and chooses among its spellings by tests of its own. -/
theorem length_pieceBytes {pc : Nat} {bytes : Bytes} (hp : p.Supplied)
    (hpc : l.offsets[index]? = some pc) (h : pieceBytes l index p = .ok bytes) :
    bytes.length = p.size pc := by
  have hspell := pieceBytes_eq_ok hpc h
  obtain ⟨insn, pooled, wide⟩ := p
  -- One case for each instruction. A conversion has its length only if it is written at
  -- all, and the bytes of a transfer are those of `spell`.
  cases insn with
  | const value =>
      cases h
      exact length_constantBytes fun hneeds => hp (by simp [pooled?, hneeds])
  | load kind slot =>
      cases h
      exact length_localBytes ..
  | store kind slot =>
      cases h
      exact length_localBytes ..
  | increment slot delta =>
      cases h
      exact length_incrementBytes slot delta
  | arith op kind =>
      cases h
      rfl
  | compare c =>
      cases h
      rfl
  | convert source target =>
      obtain ⟨opcode, -, rfl⟩ := pieceBytes_convert_eq_ok h
      rfl
  | branch condition target =>
      rw [hspell]
      simp [spell, Piece.size]
  | jump target =>
      rw [hspell]
      cases wide <;> simp [spell, Piece.size]
  | switch fallback cases =>
      have hcases := length_spellCases
        (fun t => length_signedBytes 4 ((l.place t : Int) - pc)) cases
      rw [hspell]
      simp only [spell, Piece.size, List.length_cons, List.length_append, List.length_replicate,
        length_signedBytes]
      omega
  | verbatim opcode operands =>
      cases h
      exact Nat.add_comm _ _

/-- If each piece of a body is supplied, all of them are. -/
theorem forall_supplied {R : Instruction Nat → Piece → Prop} {code : List (Instruction Nat)}
    (hR : ∀ {insn p}, R insn p → p.Supplied) (h : List.Forall₂ R code pieces) :
    ∀ p ∈ pieces, p.Supplied := by
  induction h with
  | nil => simp
  | cons hp _ ih => exact List.forall_mem_cons.2 ⟨hR hp, ih⟩

/-- The pieces from the one at `index` on are written one behind the other, each
at its offset and as long as its size says. -/
theorem pieceBytes_isPrefix {pc : Nat} {bytes : List Bytes}
    (hsupplied : ∀ p ∈ pieces, p.Supplied)
    (hbytes : ((pieces.zipIdx index).mapM fun (p, i) => pieceBytes l i p) = .ok bytes)
    (hstarts : l.offsets.toList.drop index = starts pc pieces) :
    pc + bytes.flatten.length = finish pc pieces ∧
      ∀ {i p}, pieces[i]? = some p → ∃ start first, l.offsets[index + i]? = some start ∧
        pc ≤ start ∧ bytes[i]? = some first ∧ pieceBytes l (index + i) p = .ok first ∧
        first.length = p.size start ∧ first <+: bytes.flatten.drop (start - pc) := by
  -- By induction on the pieces, with the offset of the first one. Its bytes are as many as
  -- its size, so the others start at the next offset.
  induction pieces generalizing index pc bytes with
  | nil =>
      cases hbytes
      exact ⟨rfl, fun h => by cases h⟩
  | cons p pieces ih =>
      rw [List.forall_mem_cons] at hsupplied
      rw [List.zipIdx_cons] at hbytes
      obtain ⟨first, others, hfirst, hothers, rfl⟩ := List.mapM_cons_eq_ok.1 hbytes
      obtain ⟨hpc, hdrop⟩ := getElem?_of_drop_eq_starts hstarts
      obtain ⟨hfinish, hrest⟩ := ih hsupplied.2 hothers hdrop
      have hlength := length_pieceBytes hsupplied.1 hpc hfirst
      rw [List.flatten_cons]
      refine ⟨?_, fun {i q} hq => ?_⟩
      · rw [List.length_append, hlength, ← Nat.add_assoc]
        exact hfinish
      · cases i with
        | zero =>
            cases hq
            exact ⟨pc, first, hpc, Nat.le_refl pc, rfl, hfirst, hlength, by simp⟩
        | succ i =>
            obtain ⟨start, next, hstart, hle, hget, hnext, hsize, hprefix⟩ := hrest hq
            rw [Nat.add_right_comm] at hstart hnext
            refine ⟨start, next, hstart, by omega, hget, hnext, hsize, ?_⟩
            rw [List.drop_append, List.drop_eq_nil_of_le (by omega), List.nil_append, hlength,
              Nat.sub_sub]
            exact hprefix

variable {π : Type} [Pool π] {pool : π} {insn : Instruction Nat}

/-- Widening a piece leaves what it stands for. -/
theorem Stands.widen (h : Stands pool insn p) (hw : widen l index p = .ok p') :
    Stands pool insn p' := by
  rcases widen_cases hw with rfl | ⟨-, rfl⟩
  · exact h
  · cases h with
    | const supplied reads => exact .const supplied reads
    | other hne => exact .other hne

/-- A switch is read back with the places of its targets, whatever its padding
was. -/
theorem reads_switch {place : Nat → Nat} {pc fallback : Nat} {cases : SwitchTable Nat}
    (hform : HasForm pool (.switch fallback cases))
    (hkeys : HasKeys (.switch fallback cases)) (hplace : ∀ t, place t ≤ 65535)
    (hsize : pc + Piece.casesSize cases ≤ 65535) {pooled : Option UInt16} {wide : Bool} :
    Reads (instruction pool) pc (spell place pc ⟨.switch fallback cases, pooled, wide⟩)
      (.switch (place fallback) (cases.map fun t => (place t : Int))) := by
  have hfar : ∀ t start, Reads (far pc) start (signedBytes 4 (place t - pc)) (place t : Int) := by
    intro t start
    have := hplace t
    exact reads_far (by omega) (by omega)
  have hpadding : Reads (take (switchPadding pc) : Reader DecodeError Bytes) (pc + 1)
      (List.replicate (switchPadding pc) 0) (List.replicate (switchPadding pc) 0) := by
    have h : Reads (take _ : Reader DecodeError Bytes) (pc + 1) _ _ :=
      Reads.take (List.replicate (switchPadding pc) 0)
    rwa [List.length_replicate] at h
  -- The number of pairs in a lookup fits because the code array has room for them.
  cases cases with
  | table low high targets =>
      have hop : Form.ofOpcode 0xaa = .tableSwitch := rfl
      refine reads_instruction hop (hpadding.bind ((hfar _ _).bind ?_))
      exact (reads_tableCases hkeys hform fun t _ => hfar t).map _
  | lookup pairs =>
      have hop : Form.ofOpcode 0xab = .lookupSwitch := rfl
      refine reads_instruction hop (hpadding.bind ((hfar _ _).bind ?_))
      simp only [Piece.casesSize] at hsize
      exact (reads_lookupCases (by omega) fun t _ => hfar t).map _

/-- The bytes of an instruction that transfers no control are read as it
wherever they stand. -/
theorem reads_plain {place : Nat → Nat} {pc start : Nat} {pooled : Option UInt16} {wide : Bool}
    (hne : ∀ value, insn ≠ .const value) (htargets : insn.targets = [])
    (hform : HasForm pool insn) (f : Nat → Int) :
    Reads (instruction pool) start (spell place pc ⟨insn, pooled, wide⟩) (insn.mapTargets f) := by
  cases insn with
  | const value => exact absurd rfl (hne value)
  | load kind slot => exact reads_load kind slot
  | store kind slot => exact reads_store kind slot
  | increment slot delta => exact reads_increment slot delta
  | arith op kind => exact reads_instruction (ofOpcode_arith hform) (Reads.pure _)
  | compare c => exact reads_instruction (ofOpcode_compare c) (Reads.pure _)
  | convert source target =>
      obtain ⟨opcode, hopcode⟩ := exists_conversionOpcode? hform
      simp only [spell, hopcode, Option.toList_some]
      exact reads_instruction (ofOpcode_conversion hopcode) (Reads.pure _)
  | branch _ _ | jump _ | switch _ _ => cases htargets
  | verbatim opcode operands => exact reads_verbatim hform

/-- **A settled piece is read as the instruction it stands for**, with the
places of its targets. -/
theorem reads_spell {pc : Nat} (hstands : Stands pool insn p)
    (hwiden : widen l index p = .ok p) (hpc : l.offsets[index]? = some pc)
    (hform : HasForm pool insn) (hkeys : HasKeys insn) (hplace : ∀ t, l.place t ≤ 65535)
    (hend : pc + p.size pc ≤ 65535) :
    Reads (instruction pool) pc (spell l.place pc p)
      (insn.mapTargets fun t => (l.place t : Int)) := by
  cases hstands with
  | const _ reads => exact reads pc _
  | @other pooled wide hne =>
      cases insn with
      | branch condition target =>
          obtain ⟨d, hd, hfits⟩ := near_of_widen_branch rfl hwiden
          rw [Layout.displacement_eq_ok hpc hd] at hfits
          exact reads_instruction (ofOpcode_condition condition) ((reads_near hfits).map _)
      | jump target =>
          cases wide with
          | false =>
              obtain ⟨d, hd, hfits⟩ := near_of_widen_jump rfl rfl hwiden
              rw [Layout.displacement_eq_ok hpc hd] at hfits
              have hop : Form.ofOpcode 0xa7 = .jump := rfl
              exact reads_instruction hop ((reads_near hfits).map _)
          | true =>
              -- A displacement of 32 bits reaches everywhere in 65535 bytes.
              have := hplace target
              have hop : Form.ofOpcode 0xc8 = .jumpWide := rfl
              exact reads_instruction hop ((reads_far (by omega) (by omega)).map _)
      | switch fallback cases =>
          simp only [Piece.size] at hend
          exact reads_switch hform hkeys hplace (by omega)
      | _ => exact reads_plain hne rfl hform _

end JvmOptimizer.Code
