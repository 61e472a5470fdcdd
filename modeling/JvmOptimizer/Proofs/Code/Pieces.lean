import JvmOptimizer.Proofs.Code.Operands
import JvmOptimizer.Proofs.Pool
import JvmOptimizer.Proofs.Steps

/-!
# What a piece stands for

The writer first turns each instruction into a piece, which keeps the instruction
and has an index of a number that goes through the pool (`piece_eq_ok`). `Stands`
says which instruction a piece is read back as, in whatever layout: its own, and
for a constant what its bytes say in the pool at hand. Every piece stands for its
instruction, and still does so in every pool that comes later.
-/

namespace JvmOptimizer.Code

open Reader

variable {π : Type} [Pool π]

/-- The code array has a way to spell the instruction, and it is read as nothing
else: the operation exists for the kind, a table lists one target for each key,
and a verbatim instruction is one that the library does not look into. -/
def HasForm {τ : Type} (pool : π) : Instruction τ → Prop
  | .arith op kind => op ∈ numericOps ∨ op ∈ integerOps ∧ (kind = .int ∨ kind = .long)
  | .convert source target => (source, target) ∈ conversions
  | .switch _ (.table low high targets) => (targets.length : Int) = high.toInt - low.toInt + 1
  | .verbatim opcode operands =>
      Form.ofOpcode opcode = .verbatim operands.length ∨
        Form.ofOpcode opcode = .poolConstant ∧
          (operands.length = if opcode = Opcode.ldc then 1 else 2) ∧
          ∀ value, Pool.resolve? pool (UInt16.ofNat (ofBigEndian operands)) = some value →
            ¬ (value.slots = 2 ↔ opcode = Opcode.ldc2W)
  | _ => True

/-- If the instruction is a switch with a table, the table has a key. -/
def HasKeys {τ : Type} : Instruction τ → Prop
  | .switch _ (.table low high _) => low ≤ high
  | _ => True

/-- A number that the piece takes from the pool has an index there. -/
def Piece.Supplied (p : Piece) : Prop := (pooled? p.insn).isSome → p.pooled.isSome

/-- The instruction that a piece is going to be read as. Only a constant can be
read as something else than itself, where the pool has no such number at its
index. -/
inductive Stands (pool : π) : Instruction Nat → Piece → Prop
  | const {insn : Instruction Nat} {value : Value} {pooled : Option UInt16} {wide : Bool}
      (supplied : needsPool value → pooled.isSome)
      (reads : ∀ start (place : Nat → Int),
        Reads (instruction pool) start (constantBytes value pooled) (insn.mapTargets place)) :
      Stands pool insn ⟨.const value, pooled, wide⟩
  | other {insn : Instruction Nat} {pooled : Option UInt16} {wide : Bool}
      (hne : ∀ value, insn ≠ .const value) : Stands pool insn ⟨insn, pooled, wide⟩

/-- Whatever a piece is read as, it can be written. -/
theorem Stands.supplied {pool : π} {insn : Instruction Nat} {p : Piece}
    (h : Stands pool insn p) : p.Supplied := by
  cases h with
  | const supplied reads =>
      intro hpooled
      apply supplied
      by_contra hnot
      simp [pooled?, hnot] at hpooled
  | other hne =>
      intro hpooled
      cases insn with
      | const value => exact absurd rfl (hne value)
      | _ => cases hpooled

/-- A conversion of the table has an opcode. -/
theorem exists_conversionOpcode? {source : Kind} {target : ConvertTarget}
    (h : (source, target) ∈ conversions) :
    ∃ opcode, conversionOpcode? source target = some opcode := by
  have hsome : (conversions.idxOf? (source, target)).isSome := List.isSome_idxOf?.2 h
  obtain ⟨i, hi⟩ := Option.isSome_iff_exists.1 hsome
  exact ⟨_, by rw [conversionOpcode?, hi, Option.map_some]⟩

/-- An instruction that the library does not look into is read as it is. -/
theorem reads_verbatim {pool : π} {start : Nat} {opcode : Opcode} {bytes : Bytes}
    (hform : HasForm pool (.verbatim opcode bytes : Instruction Nat)) :
    Reads (instruction pool) start (opcode :: bytes) (.verbatim opcode bytes) := by
  rcases hform with hform | ⟨hform, hlength, hvalue⟩
  · exact reads_instruction hform ((Reads.take bytes).map _)
  · have hload : Reads (instruction pool) start (opcode :: bytes) _ := reads_poolLoad hform hlength
    rwa [poolLoad_eq_verbatim hvalue] at hload

/-! ### Constants that go through the pool -/

/-- The pool is kept as it was if there is no room for the number. -/
theorem interned_apply (value : Value) (p : π) : interned value p =
    match Pool.intern value p with
    | .ok (index, p') => (.ok index, p')
    | .error e => (.error (.pool e), p) := by
  simp only [interned, Steps.bind_apply, Steps.get_apply]
  cases Pool.intern value p <;> rfl

theorem later_interned (value : Value) (p : π) : Pool.Later p (interned value p).2 := by
  rw [interned_apply]
  cases h : Pool.intern value p with
  | error e => exact .refl
  | ok r => exact Pool.Later.refl.intern h

/-- Only constants go through the pool, and only those that have to. -/
theorem pooled?_eq_some {insn : Instruction Nat} {value : Value} (h : pooled? insn = some value) :
    insn = .const value ∧ needsPool value := by
  cases insn with
  | const v =>
      obtain ⟨hneeds, heq⟩ := Option.ite_none_right_eq_some.1 h
      cases heq
      exact ⟨rfl, hneeds⟩
  | _ => cases h

/-! ### From instructions to pieces -/

/-- An instruction that takes nothing from the pool leaves the pool alone. -/
theorem piece_of_pooled?_eq_none {insn : Instruction Nat} (h : pooled? insn = none) (p : π) :
    piece insn p = (.ok { insn }, p) := by
  simp only [piece, h, Steps.pure_apply]

/-- Any other one asks the pool for an index of its number. -/
theorem piece_of_pooled? {insn : Instruction Nat} {value : Value} (h : pooled? insn = some value)
    (p : π) : piece insn p = ((interned value p).1.map fun index =>
      { insn, pooled := some index }, (interned value p).2) := by
  simp only [piece, h, Steps.bind_apply]
  rcases interned value p with ⟨_ | index, p'⟩ <;> rfl

/-- A piece has its instruction, and either the pool was not asked or its answer is
the index of the piece. -/
theorem piece_eq_ok {insn : Instruction Nat} {p p' : π} {made : Piece}
    (h : piece insn p = (.ok made, p')) :
    pooled? insn = none ∧ made = { insn } ∧ p' = p ∨
      ∃ value index, pooled? insn = some value ∧ interned value p = (.ok index, p') ∧
        made = { insn, pooled := some index } := by
  cases hpooled : pooled? insn with
  | none =>
      rw [piece_of_pooled?_eq_none hpooled] at h
      cases h
      exact .inl ⟨rfl, rfl, rfl⟩
  | some value =>
      rw [piece_of_pooled? hpooled] at h
      rcases hinterned : interned value p with ⟨_ | index, q⟩
      · rw [hinterned] at h
        cases h
      · rw [hinterned] at h
        cases h
        exact .inr ⟨value, index, rfl, hinterned, rfl⟩

/-- Making a piece puts at most a number into the pool. -/
theorem later_piece (insn : Instruction Nat) (p : π) : Pool.Later p (piece insn p).2 := by
  cases h : pooled? insn with
  | none =>
      rw [piece_of_pooled?_eq_none h]
      exact .refl
  | some value =>
      rw [piece_of_pooled? h]
      exact later_interned value p

/-- Making all pieces of a body only adds numbers to the pool. -/
theorem later_mapM_piece (code : List (Instruction Nat)) (p : π) :
    Pool.Later p (code.mapM piece p).2 :=
  Steps.mapM_induction (R := Pool.Later) (fun _ => .refl) Pool.Later.trans later_piece code p

/-- All pieces are made before anything is laid out. -/
theorem encode_eq_ok {m : Method} {p p' : π} {e : Encoded} (h : encode m p = (.ok e, p')) :
    ∃ pieces, m.code.mapM piece p = (.ok pieces, p') ∧ assemble pieces m.handlers = .ok e := by
  unfold encode at h
  rcases hpieces : m.code.mapM piece p with ⟨_ | pieces, p''⟩
  · rw [hpieces] at h
    cases h
  · rw [hpieces] at h
    obtain ⟨hassemble, rfl⟩ := Prod.mk.inj h
    exact ⟨pieces, rfl, hassemble⟩

/-- Encoding adds numbers to the pool and nothing else, whether it succeeds or
not. -/
theorem later_encode (m : Method) (p : π) : Pool.Later p (encode m p).2 := by
  have hlater := later_mapM_piece m.code p
  unfold encode
  rcases h : m.code.mapM piece p with ⟨_ | pieces, p'⟩
  · rwa [h] at hlater
  · rwa [h] at hlater

/-- What is written without the pool stands for its instruction whatever the pool
is. -/
theorem stands_of_pooled?_eq_none {pool : π} {insn : Instruction Nat} (h : pooled? insn = none) :
    Stands pool insn { insn } := by
  cases insn with
  | const value =>
      have hneeds : needsPool value → (none : Option UInt16).isSome := by simpa [pooled?] using h
      exact .const hneeds fun _ _ => reads_constantBytes hneeds (by simp)
  | _ => exact .other (by simp)

/-- A constant with an index stands for itself where the index holds it. -/
theorem stands_of_resolve? {pool : π} {value : Value} {index : UInt16}
    (h : Pool.resolve? pool index = some value) :
    Stands pool (.const value) { insn := .const value, pooled := some index } :=
  .const (fun _ => rfl) fun _ _ => reads_constantBytes (fun _ => rfl) (by simpa)

variable [LawfulPool π] {p p' q : π} {insn : Instruction Nat} {made : Piece}

/-- The index that a constant is given holds it. -/
theorem resolve?_interned {value : Value} {index : UInt16} (hsize : Pool.size p ≤ 65535)
    (h : interned value p = (.ok index, p')) : Pool.resolve? p' index = some value := by
  rw [interned_apply] at h
  cases hintern : Pool.intern value p with
  | error e =>
      rw [hintern] at h
      cases h
  | ok r =>
      rw [hintern] at h
      cases h
      exact (LawfulPool.intern_eq_ok hsize hintern).2.2

/-- **The pieces stand for their instructions**, also in a pool that has grown
since. -/
theorem stands_piece (hsize : Pool.size p ≤ 65535) (h : piece insn p = (.ok made, p'))
    (hq : Pool.Extends p' q) : Stands q insn made := by
  rcases piece_eq_ok h with ⟨hnone, rfl, -⟩ | ⟨value, index, hsome, hindex, rfl⟩
  · exact stands_of_pooled?_eq_none hnone
  · obtain ⟨rfl, -⟩ := pooled?_eq_some hsome
    exact stands_of_resolve? (hq.resolve?_eq_some (resolve?_interned hsize hindex))

/-- The pieces of a whole body. -/
theorem stands_mapM {code : List (Instruction Nat)} {pieces : List Piece}
    (hsize : Pool.size p ≤ 65535) (h : code.mapM piece p = (.ok pieces, p'))
    (hq : Pool.Extends p' q) : List.Forall₂ (Stands q) code pieces := by
  induction code generalizing p pieces with
  | nil =>
      cases h
      exact .nil
  | cons insn code ih =>
      obtain ⟨made, t, made', hmade, hrest, rfl⟩ := Steps.mapM_cons_eq_ok.1 h
      have hfirst := later_piece insn p
      rw [hmade] at hfirst
      have hothers := later_mapM_piece code t
      rw [hrest] at hothers
      obtain ⟨-, ht⟩ := hfirst.grows hsize
      obtain ⟨hextends, -⟩ := hothers.grows ht
      exact .cons (stands_piece hsize hmade (hextends.trans hq)) (ih ht hrest)

end JvmOptimizer.Code
