import JvmOptimizer.Code.Encode
import JvmOptimizer.Proofs.Bytes
import Mathlib.Tactic.FinCases
import Mathlib.Tactic.IntervalCases

/-!
# Instructions read back

For every instruction whose bytes do not depend on the layout, the bytes that
the writer chooses are read as that instruction, wherever they stand. The
writer's choice among several spellings (a constant or variable with an opcode
of its own, one operand byte, two of them, `wide`) is undone case by case; which
opcode belongs to which instruction is one lemma for each opcode family.
-/

namespace JvmOptimizer.Code

open Reader

/-! ### Signed numbers -/

section Signed

variable {ε : Type} [Truncation ε] {start : Nat}

/-- Two's complement, once as a remainder and once as the bits of an integer. -/
theorem ofNat_emod_two_pow (width : Nat) (n : Int) :
    BitVec.ofNat width (n % (2 ^ width : Nat)).toNat = BitVec.ofInt width n := by
  apply BitVec.eq_of_toNat_eq
  have hpos : (0 : Int) < (2 ^ width : Nat) := by exact_mod_cast Nat.two_pow_pos width
  have hlt := Int.emod_lt_of_pos n hpos
  rw [BitVec.toNat_ofNat, BitVec.toNat_ofInt, Nat.mod_eq_of_lt (by omega)]

theorem reads_i8 (n : Int) : Reads (i8 : Reader ε Int8) start (signedBytes 1 n) (Int8.ofInt n) := by
  have h : Reads (u8 : Reader ε UInt8) start (signedBytes 1 n) _ :=
    (Reads.word 1 _).map UInt8.ofNat
  have hval : (UInt8.ofNat ((n % (Nat.pow 256 1 : Nat)).toNat % 256 ^ 1)).toInt8 =
      Int8.ofInt n := by
    have hmod : UInt8.ofNat ((n % (Nat.pow 256 1 : Nat)).toNat % 256 ^ 1) =
        UInt8.ofNat (n % (Nat.pow 256 1 : Nat)).toNat := UInt8.ofNat_mod_size
    rw [hmod]
    exact Int8.toBitVec_inj.1 (ofNat_emod_two_pow 8 n)
  have hread := h.map UInt8.toInt8
  rwa [hval] at hread

/-- A number that does not fit is read back cut off. -/
theorem reads_i16 (n : Int) :
    Reads (i16 : Reader ε Int16) start (signedBytes 2 n) (Int16.ofInt n) := by
  have h : Reads (u16 : Reader ε UInt16) start (signedBytes 2 n) _ := Reads.u16 _
  have hval : (UInt16.ofNat (n % (Nat.pow 256 2 : Nat)).toNat).toInt16 = Int16.ofInt n :=
    Int16.toBitVec_inj.1 (ofNat_emod_two_pow 16 n)
  have hread := h.map UInt16.toInt16
  rwa [hval] at hread

theorem reads_i32 (n : Int) :
    Reads (i32 : Reader ε Int32) start (signedBytes 4 n) (Int32.ofInt n) := by
  have h : Reads (u32 : Reader ε UInt32) start (signedBytes 4 n) _ := Reads.u32 _
  have hval : (UInt32.ofNat (n % (Nat.pow 256 4 : Nat)).toNat).toInt32 = Int32.ofInt n :=
    Int32.toBitVec_inj.1 (ofNat_emod_two_pow 32 n)
  have hread := h.map UInt32.toInt32
  rwa [hval] at hread

/-- A 32-bit key is read back as it is. -/
theorem reads_key (key : Int32) :
    Reads (i32 : Reader ε Int32) start (signedBytes 4 key.toInt) key := by
  simpa using reads_i32 (ε := ε) key.toInt

end Signed

/-- A displacement that fits into 16 bits leads to where it was taken from. -/
theorem reads_near {start pc : Nat} {target : Int} (h : fitsNear (target - pc)) :
    Reads (near pc) start (signedBytes 2 (target - pc)) target := by
  simp only [fitsNear, Bool.and_eq_true, decide_eq_true_eq] at h
  have hread : Reads (near pc) start (signedBytes 2 (target - pc))
      (pc + (Int16.ofInt (target - pc)).toInt) := (reads_i16 _).map _
  rw [Int16.toInt_ofInt_of_le (by omega) (by omega)] at hread
  rwa [show (pc : Int) + (target - pc) = target by omega] at hread

/-- Likewise with 32 bits. -/
theorem reads_far {start pc : Nat} {target : Int}
    (h : -2 ^ 31 ≤ target - pc) (h' : target - pc < 2 ^ 31) :
    Reads (far pc) start (signedBytes 4 (target - pc)) target := by
  have hread : Reads (far pc) start (signedBytes 4 (target - pc))
      (pc + (Int32.ofInt (target - pc)).toInt) := (reads_i32 _).map _
  rw [Int32.toInt_ofInt_of_le (by omega) (by omega)] at hread
  rwa [show (pc : Int) + (target - pc) = target by omega] at hread

/-! ### Opcodes -/

/-- What a table lists at the place where a search finds something. -/
theorem getElem?_of_idxOf? {α : Type} [BEq α] [LawfulBEq α] {l : List α} {a : α} {i : Nat}
    (h : l.idxOf? a = some i) : l[i]? = some a := by
  obtain ⟨hi, ha, -⟩ := List.idxOf?_eq_some_iff.1 h
  rw [List.getElem?_eq_getElem hi, ha]

theorem ofOpcode_condition (condition : Condition) :
    Form.ofOpcode condition.opcode = .branch condition := by
  cases condition with
  | zero r => cases r <;> rfl
  | pair r => cases r <;> rfl
  | reference same => cases same <;> rfl
  | null isNull => cases isNull <;> rfl

theorem ofOpcode_compare (c : Comparison) : Form.ofOpcode c.opcode = .compare c := by
  cases c <;> rfl

/-- An operation is read back for a kind that has it. The integer operations have
no opcodes of their own for the other kinds. -/
theorem ofOpcode_arith {op : ArithOp} {kind : Kind}
    (h : op ∈ numericOps ∨ op ∈ integerOps ∧ (kind = .int ∨ kind = .long)) :
    Form.ofOpcode (arithOpcode op kind) = .arith op kind := by
  rcases h with h | ⟨h, rfl | rfl⟩
  · unfold numericOps at h
    fin_cases h <;> cases kind <;> rfl
  · unfold integerOps at h
    fin_cases h <;> decide +kernel
  · unfold integerOps at h
    fin_cases h <;> decide +kernel

/-- A conversion is read back from the opcode of its place in the table. -/
theorem ofOpcode_conversion {source : Kind} {target : ConvertTarget} {opcode : Opcode}
    (h : conversionOpcode? source target = some opcode) :
    Form.ofOpcode opcode = .convert source target := by
  obtain ⟨i, hi, rfl⟩ := Option.map_eq_some_iff.1 h
  have hget : conversions[i]? = some (source, target) := getElem?_of_idxOf? hi
  have hlt : i < 15 := (List.getElem?_eq_some_iff.1 hget).1
  interval_cases i <;> cases hget <;> rfl

theorem ofOpcode_load (kind : LocalKind) :
    Form.ofOpcode (UInt8.ofNat (0x15 + kind.offset)) = .load kind := by
  rcases kind with kind | _
  · cases kind <;> rfl
  · rfl

/-- The four opcodes of a kind name the first four variables. -/
theorem ofOpcode_loadAt (kind : LocalKind) {i : Nat} (h : i < 4) :
    Form.ofOpcode (UInt8.ofNat (0x1a + kind.offset * 4 + i)) = .loadAt kind i := by
  rcases kind with kind | _
  · cases kind <;> interval_cases i <;> rfl
  · interval_cases i <;> rfl

theorem ofOpcode_store (kind : LocalKind) :
    Form.ofOpcode (UInt8.ofNat (0x36 + kind.offset)) = .store kind := by
  rcases kind with kind | _
  · cases kind <;> rfl
  · rfl

theorem ofOpcode_storeAt (kind : LocalKind) {i : Nat} (h : i < 4) :
    Form.ofOpcode (UInt8.ofNat (0x3b + kind.offset * 4 + i)) = .storeAt kind i := by
  rcases kind with kind | _
  · cases kind <;> interval_cases i <;> rfl
  · interval_cases i <;> rfl

/-! ### Instructions -/

variable {π : Type} [Pool π] {pool : π} {start : Nat} {insn : Instruction Int}

/-- An opcode is read, and then the operands of its form. -/
theorem reads_instruction {opcode : Opcode} {form : Form} {bytes : Bytes}
    (hform : Form.ofOpcode opcode = form)
    (h : Reads (operands pool start opcode form) (start + 1) bytes insn) :
    Reads (instruction pool) start (opcode :: bytes) insn := by
  subst hform
  exact Reads.offset_bind ((Reads.u8 opcode).bind h)

/-- A small index is not cut by writing it as a byte. -/
theorem toUInt16_toUInt8 {index : UInt16} (h : index ≤ 255) :
    index.toUInt8.toUInt16 = index := by
  apply UInt16.toNat_inj.1
  have hle : index.toNat ≤ 255 := UInt16.le_iff_toNat_le.1 h
  simp only [UInt8.toNat_toUInt16, UInt16.toNat_toUInt8]
  omega

/-- The three spellings of a variable access, for a family of loads or stores. -/
theorem reads_localBytes {long short : Nat} {kind : LocalKind}
    {make : UInt16 → Instruction Int}
    (hshort : ∀ i < 4, Reads (instruction pool) start
      [UInt8.ofNat (short + kind.offset * 4 + i)] (make (UInt16.ofNat i)))
    (hlong : ∀ byte : UInt8, Reads (instruction pool) start
      [UInt8.ofNat (long + kind.offset), byte] (make byte.toUInt16))
    (hwide : ∀ word, Reads (instruction pool) start
      (0xc4 :: UInt8.ofNat (long + kind.offset) :: wordBytes word) (make word))
    (index : UInt16) :
    Reads (instruction pool) start (localBytes long short kind index) (make index) := by
  unfold localBytes
  by_cases h3 : index ≤ 3
  · rw [if_pos h3]
    have hlt : index.toNat < 4 := Nat.lt_succ_of_le (UInt16.le_iff_toNat_le.1 h3)
    simpa using hshort index.toNat hlt
  · by_cases h255 : index ≤ 255
    · rw [if_neg h3, if_pos h255]
      simpa [toUInt16_toUInt8 h255] using hlong index.toUInt8
    · rw [if_neg h3, if_neg h255]
      exact hwide index

theorem ofOpcode_wide : Form.ofOpcode 0xc4 = .wide := rfl

/-- A load is read back from whichever spelling its variable has. -/
theorem reads_load (kind : LocalKind) (index : UInt16) :
    Reads (instruction pool) start (localBytes 0x15 0x1a kind index) (.load kind index) := by
  refine reads_localBytes (fun i hi => ?_) (fun byte => ?_) (fun word => ?_) index
  · exact reads_instruction (ofOpcode_loadAt kind hi) (Reads.pure _)
  · exact reads_instruction (ofOpcode_load kind) ((Reads.u8 byte).map _)
  · refine reads_instruction ofOpcode_wide ((Reads.u8 _).bind ?_)
    rw [ofOpcode_load]
    exact (Reads.wordBytes word).map _

theorem reads_store (kind : LocalKind) (index : UInt16) :
    Reads (instruction pool) start (localBytes 0x36 0x3b kind index) (.store kind index) := by
  refine reads_localBytes (fun i hi => ?_) (fun byte => ?_) (fun word => ?_) index
  · exact reads_instruction (ofOpcode_storeAt kind hi) (Reads.pure _)
  · exact reads_instruction (ofOpcode_store kind) ((Reads.u8 byte).map _)
  · refine reads_instruction ofOpcode_wide ((Reads.u8 _).bind ?_)
    rw [ofOpcode_store]
    exact (Reads.wordBytes word).map _

/-- An increment is read back from one byte each or, behind `wide`, from two. -/
theorem reads_increment (index : UInt16) (delta : Int16) :
    Reads (instruction pool) start (incrementBytes index delta) (.increment index delta) := by
  have hform : Form.ofOpcode 0x84 = .increment := rfl
  unfold incrementBytes
  by_cases h : index ≤ 255 ∧ -128 ≤ delta.toInt ∧ delta.toInt ≤ 127
  · rw [if_pos h]
    have hindex : index.toUInt8.toUInt16 = index := toUInt16_toUInt8 h.1
    have hdelta : (Int8.ofInt delta.toInt).toInt16 = delta := by
      apply Int16.toInt_inj.1
      rw [Int8.toInt_toInt16, Int8.toInt_ofInt_of_le (by omega) (by omega)]
    have hread : Reads (operands pool start 0x84 .increment) (start + 1)
        (index.toUInt8 :: signedBytes 1 delta.toInt)
        (.increment index.toUInt8.toUInt16 (Int8.ofInt delta.toInt).toInt16) :=
      (Reads.u8 _).bind ((reads_i8 _).map _)
    rw [hindex, hdelta] at hread
    exact reads_instruction hform hread
  · rw [if_neg h]
    refine reads_instruction ofOpcode_wide ((Reads.u8 _).bind ?_)
    rw [hform]
    have hread : Reads (do return .increment index (← i16) : Reader DecodeError (Instruction Int))
        (start + 1 + 1 + (wordBytes index).length) (signedBytes 2 delta.toInt)
        (.increment index (Int16.ofInt delta.toInt)) := (reads_i16 _).map _
    rw [Int16.ofInt_toInt] at hread
    exact (Reads.wordBytes index).bind hread

/-- An opcode that names a constant pushes it. -/
theorem reads_named {opcode : Opcode} {value : Value}
    (h : Form.ofOpcode opcode = .constant value) :
    Reads (instruction pool) start [opcode] (.const value) :=
  reads_instruction h (Reads.pure _)

theorem ofOpcode_int {n : Int} (h : -1 ≤ n) (h' : n ≤ 5) :
    Form.ofOpcode (UInt8.ofNat (n + 3).toNat) = .constant (.int (Int32.ofInt n)) := by
  interval_cases n <;> rfl

theorem ofOpcode_float {bits : UInt32} {i : Nat} (h : floatConstants.idxOf? bits = some i) :
    Form.ofOpcode (UInt8.ofNat (0x0b + i)) = .constant (.float bits) := by
  have hget := getElem?_of_idxOf? h
  have hlt : i < 3 := (List.getElem?_eq_some_iff.1 hget).1
  interval_cases i <;> cases hget <;> rfl

theorem ofOpcode_double {bits : UInt64} {i : Nat} (h : doubleConstants.idxOf? bits = some i) :
    Form.ofOpcode (UInt8.ofNat (0x0e + i)) = .constant (.double bits) := by
  have hget := getElem?_of_idxOf? h
  have hlt : i < 2 := (List.getElem?_eq_some_iff.1 hget).1
  interval_cases i <;> cases hget <;> rfl

/-- The opcode that a constant has to itself is read as this constant. -/
theorem ofOpcode_shortConstant {value : Value} {opcode : Opcode}
    (h : shortConstant? value = some opcode) : Form.ofOpcode opcode = .constant value := by
  cases value with
  | int v =>
      obtain ⟨hrange, hopcode⟩ := Option.ite_none_right_eq_some.1 h
      cases hopcode
      rw [ofOpcode_int hrange.1 hrange.2, Int32.ofInt_toInt]
  | long v =>
      simp only [shortConstant?] at h
      by_cases h0 : v = 0
      · rw [if_pos h0] at h
        cases h
        subst h0
        rfl
      · rw [if_neg h0] at h
        obtain ⟨rfl, hopcode⟩ := Option.ite_none_right_eq_some.1 h
        cases hopcode
        rfl
  | float bits =>
      obtain ⟨i, hi, rfl⟩ := Option.map_eq_some_iff.1 h
      exact ofOpcode_float hi
  | double bits =>
      obtain ⟨i, hi, rfl⟩ := Option.map_eq_some_iff.1 h
      exact ofOpcode_double hi

/-- Numbers of a byte, whose sign is extended. -/
theorem reads_byteConstant {v : Int32} (hlo : -128 ≤ v.toInt) (hhi : v.toInt ≤ 127) :
    Reads (instruction pool) start (0x10 :: signedBytes 1 v.toInt) (.const (.int v)) := by
  have hv : (Int8.ofInt v.toInt).toInt32 = v := by
    apply Int32.toInt_inj.1
    rw [Int8.toInt_toInt32, Int8.toInt_ofInt_of_le (by omega) (by omega)]
  have hread : Reads (operands pool start 0x10 .byteConstant) (start + 1)
      (signedBytes 1 v.toInt) (.const (.int (Int8.ofInt v.toInt).toInt32)) :=
    (reads_i8 _).map _
  rw [hv] at hread
  exact reads_instruction rfl hread

theorem reads_wordConstant {v : Int32} (hlo : -32768 ≤ v.toInt) (hhi : v.toInt ≤ 32767) :
    Reads (instruction pool) start (0x11 :: signedBytes 2 v.toInt) (.const (.int v)) := by
  have hv : (Int16.ofInt v.toInt).toInt32 = v := by
    apply Int32.toInt_inj.1
    rw [Int16.toInt_toInt32, Int16.toInt_ofInt_of_le (by omega) (by omega)]
  have hread : Reads (operands pool start 0x11 .shortConstant) (start + 1)
      (signedBytes 2 v.toInt) (.const (.int (Int16.ofInt v.toInt).toInt32)) :=
    (reads_i16 _).map _
  rw [hv] at hread
  exact reads_instruction rfl hread

/-- What is read from an index depends on the pool, and the length of the index on
the opcode. -/
theorem reads_poolLoad {opcode : Opcode} {bytes : Bytes}
    (hform : Form.ofOpcode opcode = .poolConstant)
    (hlength : bytes.length = if opcode = Opcode.ldc then 1 else 2) :
    Reads (instruction pool) start (opcode :: bytes) (poolLoad pool opcode bytes) := by
  refine reads_instruction hform ?_
  unfold operands
  rw [← hlength]
  exact (Reads.take bytes).map _

/-- The constant at an index is loaded by an opcode of its width. -/
theorem poolLoad_eq_const {opcode : Opcode} {bytes : Bytes} {value : Value}
    (h : Pool.resolve? pool (UInt16.ofNat (ofBigEndian bytes)) = some value)
    (hwidth : value.slots = 2 ↔ opcode = Opcode.ldc2W) :
    poolLoad pool opcode bytes = .const value := by
  by_cases h2 : value.slots = 2
  · simp [poolLoad, h, h2, hwidth.1 h2]
  · simp [poolLoad, h, h2, mt hwidth.2 h2]

/-- Where an index holds no number of the opcode's width, the load stays as it
is. -/
theorem poolLoad_eq_verbatim {opcode : Opcode} {bytes : Bytes}
    (h : ∀ value, Pool.resolve? pool (UInt16.ofNat (ofBigEndian bytes)) = some value →
      ¬ (value.slots = 2 ↔ opcode = Opcode.ldc2W)) :
    poolLoad pool opcode bytes = .verbatim opcode bytes := by
  unfold poolLoad
  cases hvalue : Pool.resolve? pool (UInt16.ofNat (ofBigEndian bytes)) with
  | none => rfl
  | some value =>
      refine if_neg fun heq => h value hvalue ?_
      by_cases h2 : value.slots = 2 <;> by_cases hop : opcode = Opcode.ldc2W <;> simp_all

/-- A constant that is written as a pool index is read back where the index
holds it. -/
theorem reads_pooled {value : Value} {index : UInt16}
    (h : Pool.resolve? pool index = some value) :
    Reads (instruction pool) start (pooledBytes value.slots index) (.const value) := by
  have hword : UInt16.ofNat (ofBigEndian (wordBytes index)) = index := by
    simp [wordBytes]
  unfold pooledBytes
  by_cases h2 : value.slots = 2
  · rw [if_pos h2]
    have hwidth : value.slots = 2 ↔ Opcode.ldc2W = Opcode.ldc2W := iff_of_true h2 rfl
    rw [← poolLoad_eq_const (by rwa [hword]) hwidth]
    exact reads_poolLoad rfl rfl
  · by_cases h255 : index ≤ 255
    · rw [if_neg h2, if_pos h255]
      have hbyte : UInt16.ofNat (ofBigEndian [index.toUInt8]) = index := by
        have hread : ofBigEndian [index.toUInt8] = index.toUInt8.toUInt16.toNat := by
          simp [ofBigEndian]
        rw [hread, toUInt16_toUInt8 h255, UInt16.ofNat_toNat]
      have hwidth : value.slots = 2 ↔ Opcode.ldc = Opcode.ldc2W := iff_of_false h2 (by decide)
      rw [← poolLoad_eq_const (by rwa [hbyte]) hwidth]
      exact reads_poolLoad rfl rfl
    · rw [if_neg h2, if_neg h255]
      have hwidth : value.slots = 2 ↔ Opcode.ldcW = Opcode.ldc2W := iff_of_false h2 (by decide)
      rw [← poolLoad_eq_const (by rwa [hword]) hwidth]
      exact reads_poolLoad rfl rfl

/-- A constant that needs the pool has no opcode of its own. -/
theorem shortConstant?_of_needsPool {value : Value} (h : needsPool value) :
    shortConstant? value = none := by
  cases value with
  | int v =>
      simp only [needsPool, Bool.and_eq_true, Option.isNone_iff_eq_none] at h
      exact h.1
  | _ => simpa only [needsPool, Option.isNone_iff_eq_none] using h

/-- A constant that needs the pool is written as its index there. -/
theorem constantBytes_of_needsPool {value : Value} {index : UInt16} (h : needsPool value) :
    constantBytes value (some index) = pooledBytes value.slots index := by
  simp only [constantBytes, shortConstant?_of_needsPool h]

/-- The spellings of a constant that has a pool index if it needs one. What holds
of each of them holds of the bytes that are written. -/
theorem constantBytes_cases {value : Value} {pooled : Option UInt16} {P : Bytes → Prop}
    (h : needsPool value → pooled.isSome)
    (hshort : ∀ {opcode}, shortConstant? value = some opcode → P [opcode])
    (hpooled : ∀ {index}, shortConstant? value = none → pooled = some index →
      P (pooledBytes value.slots index))
    (hbyte : ∀ {v}, shortConstant? value = none → pooled = none → value = .int v →
      -128 ≤ v.toInt → v.toInt ≤ 127 → P (0x10 :: signedBytes 1 v.toInt))
    (hword : ∀ {v}, shortConstant? value = none → pooled = none → value = .int v →
      ¬ (-128 ≤ v.toInt ∧ v.toInt ≤ 127) → -32768 ≤ v.toInt → v.toInt ≤ 32767 →
      P (0x11 :: signedBytes 2 v.toInt)) :
    P (constantBytes value pooled) := by
  unfold constantBytes
  cases hs : shortConstant? value with
  | some opcode => exact hshort hs
  | none =>
      cases pooled with
      | some index => exact hpooled hs rfl
      | none =>
          -- Without an index the constant needs none, so it is an int of 16 bits.
          have hfits : needsPool value = false := by simpa using h
          cases value with
          | int v =>
              simp only [needsPool, hs, Option.isNone_none, Bool.true_and, Bool.not_eq_false',
                Bool.and_eq_true, decide_eq_true_eq] at hfits
              dsimp only
              by_cases hv : -128 ≤ v.toInt ∧ v.toInt ≤ 127
              · rw [if_pos hv]
                exact hbyte hs rfl rfl hv.1 hv.2
              · rw [if_neg hv]
                exact hword hs rfl rfl hv hfits.1 hfits.2
          | _ => simp [needsPool, hs] at hfits

/-- A constant is read back if the index that it is written as holds it. -/
theorem reads_constantBytes {value : Value} {pooled : Option UInt16}
    (h : needsPool value → pooled.isSome)
    (hresolve : ∀ index ∈ pooled, Pool.resolve? pool index = some value) :
    Reads (instruction pool) start (constantBytes value pooled) (.const value) := by
  refine constantBytes_cases (P := fun bytes => Reads _ start bytes _) h (fun hs => ?_)
    (fun _ hindex => ?_) (fun _ _ hv hlo hhi => ?_) (fun _ _ hv _ hlo hhi => ?_)
  · exact reads_named (ofOpcode_shortConstant hs)
  · exact reads_pooled (hresolve _ hindex)
  · rw [hv]
    exact reads_byteConstant hlo hhi
  · rw [hv]
    exact reads_wordConstant hlo hhi

end JvmOptimizer.Code
