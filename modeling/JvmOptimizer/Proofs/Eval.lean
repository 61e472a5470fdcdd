import JvmOptimizer.Code.Form
import JvmOptimizer.Eval
import Mathlib.Data.Int.Bitwise
import Mathlib.Data.List.Basic

/-!
# Arithmetic of the machine

An operation on numbers of a fixed width gives the exact result on integers,
reduced to the width. The exact results (`exactResult`) are defined on integers
of any size and know the width only where the machine's own rules refer to it:
distances of shifts count modulo the width, and a logical shift takes its operand
for an unsigned number.

The operations on words are compared with integers once for every width; ints and
longs are the words of 32 and 64 bits. Which operands an operation takes at all is
a table (`ArithOp.operandKinds?`), and evaluation refuses all others.
-/

namespace JvmOptimizer

/-- The width of an integer kind, in bits. -/
def Kind.width? : Kind → Option Nat
  | int => some 32
  | long => some 64
  | float => none
  | double => none

/-- The integer that a value is. -/
def Value.integer? : Value → Option Int
  | int v => some v.toInt
  | long v => some v.toInt
  | float _ => none
  | double _ => none

/-- The kinds of the operands, deepest first, of an operation that the machine
has. The distance of a shift is an int. -/
def ArithOp.operandKinds? (op : ArithOp) (kind : Kind) : Option (List Kind) :=
  match op with
  | add | sub | mul | div | rem => some [kind, kind]
  | neg => some [kind]
  | shl | shr | ushr => if kind.width?.isSome then some [kind, .int] else none
  | and | or | xor => if kind.width?.isSome then some [kind, kind] else none

namespace Eval

/-- The distance of a shift: as many low bits as the width can count. -/
def distance (width : Nat) (b : Int) : Nat := (b % width).toNat

/-- The exact result of an operation on integers of the given width. Quotients
are rounded toward zero. -/
def exactResult (width : Nat) : ArithOp → List Int → Int
  | .add, [a, b] => a + b
  | .sub, [a, b] => a - b
  | .mul, [a, b] => a * b
  | .div, [a, b] => a.tdiv b
  | .rem, [a, b] => a.tmod b
  | .neg, [a] => -a
  | .shl, [a, b] => a * 2 ^ distance width b
  | .shr, [a, b] => a / 2 ^ distance width b
  | .ushr, [a, b] => a % 2 ^ width / 2 ^ distance width b
  | .and, [a, b] => Int.land a b
  | .or, [a, b] => Int.lor a b
  | .xor, [a, b] => Int.xor a b
  | _, _ => 0

/-- A division or a remainder by zero. -/
def DividesByZero (op : ArithOp) (numbers : List Int) : Prop :=
  (op = .div ∨ op = .rem) ∧ numbers[1]? = some 0

/-! ### Words -/

section Words

variable {w : Nat} (x y : BitVec w) (d : Nat)

theorem toInt_shl : (x <<< d).toInt = (x.toInt * 2 ^ d).bmod (2 ^ w) := by
  rw [BitVec.toInt_shiftLeft, BitVec.toInt_eq_toNat_bmod x, Int.bmod_mul_bmod, Nat.shiftLeft_eq]
  push_cast
  rfl

theorem toInt_shr : (x.sshiftRight d).toInt = (x.toInt / 2 ^ d).bmod (2 ^ w) := by
  rw [← BitVec.toInt_bmod_cancel, BitVec.toInt_sshiftRight, Int.shiftRight_eq_div_pow]
  push_cast
  rfl

/-- The unsigned number of a word. -/
theorem toNat_eq_toInt_emod : (x.toNat : Int) = x.toInt % 2 ^ w := by
  have hlt : (x.toNat : Int) < (2 ^ w : Nat) := by exact_mod_cast x.isLt
  have hmod := Int.emod_eq_of_lt (Int.natCast_nonneg x.toNat) hlt
  rw [← Int.bmod_emod, ← BitVec.toInt_eq_toNat_bmod] at hmod
  push_cast at hmod
  exact hmod.symm

theorem toInt_ushr : (x >>> d).toInt = (x.toInt % 2 ^ w / 2 ^ d).bmod (2 ^ w) := by
  rw [BitVec.toInt_eq_toNat_bmod, BitVec.toNat_ushiftRight, Nat.shiftRight_eq_div_pow,
    ← toNat_eq_toInt_emod]
  push_cast
  rfl

theorem getLsbD_ofInt {i : Nat} (hi : i < w) (n : Int) :
    (BitVec.ofInt w n).getLsbD i = n.testBit i := by
  cases n with
  | ofNat n => simp only [Int.ofNat_eq_natCast, BitVec.ofInt_natCast, BitVec.getLsbD_ofNat, hi,
      decide_true, Bool.true_and, Int.testBit]
  | negSucc n => simp only [BitVec.ofInt_negSucc_eq_not_ofNat, BitVec.getLsbD_not,
      BitVec.getLsbD_ofNat, hi, decide_true, Bool.true_and, Int.testBit]

/-- The bits of a word are the low bits of its integer. -/
theorem testBit_toInt {i : Nat} (hi : i < w) : x.toInt.testBit i = x.getLsbD i := by
  rw [← getLsbD_ofInt hi, BitVec.ofInt_toInt]

/-- A word with the low bits of an integer is the integer reduced to its width. -/
theorem toInt_of_testBit {n : Int} (h : ∀ i < w, x.getLsbD i = n.testBit i) :
    x.toInt = n.bmod (2 ^ w) := by
  have hx : x = BitVec.ofInt w n :=
    BitVec.eq_of_getLsbD_eq fun i hi => (h i hi).trans (getLsbD_ofInt hi n).symm
  rw [hx, BitVec.toInt_ofInt]

theorem toInt_and : (x &&& y).toInt = (Int.land x.toInt y.toInt).bmod (2 ^ w) :=
  toInt_of_testBit _ fun i hi => by
    rw [BitVec.getLsbD_and, Int.testBit_land, testBit_toInt x hi, testBit_toInt y hi]

theorem toInt_or : (x ||| y).toInt = (Int.lor x.toInt y.toInt).bmod (2 ^ w) :=
  toInt_of_testBit _ fun i hi => by
    rw [BitVec.getLsbD_or, Int.testBit_lor, testBit_toInt x hi, testBit_toInt y hi]

theorem toInt_xor : (x ^^^ y).toInt = (Int.xor x.toInt y.toInt).bmod (2 ^ w) :=
  toInt_of_testBit _ fun i hi => by
    rw [BitVec.getLsbD_xor, Int.testBit_lxor, testBit_toInt x hi, testBit_toInt y hi]

end Words

/-- An operation on words; a shift is by `d`. -/
def wordOp {w : Nat} (op : ArithOp) (x y : BitVec w) (d : Nat) : BitVec w :=
  match op with
  | .add => x + y
  | .sub => x - y
  | .mul => x * y
  | .div => x.sdiv y
  | .rem => x.srem y
  | .neg => -x
  | .shl => x <<< d
  | .shr => x.sshiftRight d
  | .ushr => x >>> d
  | .and => x &&& y
  | .or => x ||| y
  | .xor => x ^^^ y

/-- **Words compute exact results**, reduced to their width. -/
theorem toInt_wordOp {w : Nat} {op : ArithOp} (hop : op ≠ .neg) (x y : BitVec w) (b : Int) :
    (wordOp op x y (distance w b)).toInt =
      (exactResult w op [x.toInt, if op.isShift then b else y.toInt]).bmod (2 ^ w) := by
  cases op with
  | add => exact BitVec.toInt_add x y
  | sub => exact BitVec.toInt_sub
  | mul => exact BitVec.toInt_mul x y
  | div => exact BitVec.toInt_sdiv x y
  | rem =>
      refine (BitVec.toInt_bmod_cancel (x.srem y)).symm.trans ?_
      rw [BitVec.toInt_srem]
      rfl
  | neg => exact absurd rfl hop
  | shl => exact toInt_shl x _
  | shr => exact toInt_shr x _
  | ushr => exact toInt_ushr x _
  | and => exact toInt_and x y
  | or => exact toInt_or x y
  | xor => exact toInt_xor x y

/-! ### Distances -/

theorem distance_lt {width : Nat} (hwidth : 0 < width) (b : Int) : distance width b < width := by
  have hlt := Int.emod_lt_of_pos b (b := width) (by omega)
  simp only [distance]
  omega

/-- The low bits of a word are the distance of a shift. A shift reduces it once
more, which changes nothing. -/
theorem masked_distance {w k : Nat} (hk : k + 1 < w) {x y b : BitVec w}
    (hy : y = x &&& BitVec.ofNat w (2 ^ k - 1)) (hb : b = BitVec.ofNat w (2 ^ k)) :
    (y.smod b).toNat = distance (2 ^ k) x.toInt ∧ (y % b).toNat = distance (2 ^ k) x.toInt := by
  have hpow : 2 ^ (k + 1) < 2 ^ w := Nat.pow_lt_pow_right (by decide) hk
  rw [Nat.pow_succ] at hpow
  have hpos := Nat.two_pow_pos k
  have hdvd : (2 ^ k : Int) ∣ 2 ^ w := pow_dvd_pow 2 (by omega)
  have hbits : b.toNat = 2 ^ k := by
    rw [hb, BitVec.toNat_ofNat, Nat.mod_eq_of_lt (by omega)]
  have hmask : y.toNat = distance (2 ^ k) x.toInt := by
    have hmod := congrArg (· % (2 ^ k : Int)) (toNat_eq_toInt_emod x)
    simp only [Int.emod_emod_of_dvd _ hdvd] at hmod
    rw [hy, BitVec.toNat_and, BitVec.toNat_ofNat, Nat.mod_eq_of_lt (by omega),
      Nat.and_two_pow_sub_one_eq_mod, distance]
    push_cast
    rw [← hmod]
    norm_cast
  have hlt : y.toNat < b.toNat := by
    rw [hmask, hbits]
    exact distance_lt hpos _
  have hmod : y % b = y := BitVec.umod_eq_of_lt hlt
  have hmsb : b.msb = false ∧ y.msb = false := by
    rw [BitVec.msb_eq_false_iff_two_mul_lt, BitVec.msb_eq_false_iff_two_mul_lt]
    omega
  have hsmod : y.smod b = y := by
    rw [BitVec.smod_eq, hmsb.1, hmsb.2]
    exact hmod
  rw [hsmod, hmod]
  exact ⟨hmask, hmask⟩

/-! ### Ints and longs -/

theorem ne_zero_of_not_dividesByZero {op : ArithOp} {a b : Int} (hop : op = .div ∨ op = .rem)
    (hzero : ¬ DividesByZero op [a, b]) : b ≠ 0 :=
  fun h => hzero ⟨hop, congrArg some h⟩

theorem intOp_eq_ok {op : ArithOp} {a b : Int32} (hop : op ≠ .neg)
    (hzero : ¬ DividesByZero op [a.toInt, b.toInt]) : intOp op a b =
      .ok (.ofBitVec (wordOp op a.toBitVec b.toBitVec (distance 32 b.toInt))) := by
  have hdistance : ((b &&& 31).toBitVec.smod 32).toNat = distance 32 b.toInt ∧
      ((b &&& 31).toBitVec % 32).toNat = distance 32 b.toInt :=
    masked_distance (k := 5) (x := b.toBitVec) (by decide) rfl rfl
  have hb (hop : op = .div ∨ op = .rem) : b ≠ 0 := fun h =>
    ne_zero_of_not_dividesByZero hop hzero (congrArg Int32.toInt h)
  cases op with
  | div => exact if_neg (hb (.inl rfl))
  | rem => exact if_neg (hb (.inr rfl))
  | neg => exact absurd rfl hop
  | shl =>
      rw [← hdistance.1]
      rfl
  | shr =>
      rw [← hdistance.1]
      rfl
  | ushr =>
      rw [← hdistance.2]
      rfl
  | _ => rfl

theorem longOp_eq_ok {op : ArithOp} {a b : Int64} (hop : op ≠ .neg) (hshift : ¬ op.isShift)
    (hzero : ¬ DividesByZero op [a.toInt, b.toInt]) (d : Nat) :
    longOp op a b = .ok (.ofBitVec (wordOp op a.toBitVec b.toBitVec d)) := by
  have hb (hop : op = .div ∨ op = .rem) : b ≠ 0 := fun h =>
    ne_zero_of_not_dividesByZero hop hzero (congrArg Int64.toInt h)
  cases op with
  | div => exact if_neg (hb (.inl rfl))
  | rem => exact if_neg (hb (.inr rfl))
  | neg => exact absurd rfl hop
  | shl => exact absurd rfl hshift
  | shr => exact absurd rfl hshift
  | ushr => exact absurd rfl hshift
  | _ => rfl

theorem longShift_eq_ok {op : ArithOp} (hshift : op.isShift) (a : Int64) (b : Int32)
    (y : BitVec 64) :
    longShift op a b = .ok (.ofBitVec (wordOp op a.toBitVec y (distance 64 b.toInt))) := by
  have hdistance : ((b.toInt64 &&& 63).toBitVec.smod 64).toNat = distance 64 b.toInt64.toInt ∧
      ((b.toInt64 &&& 63).toBitVec % 64).toNat = distance 64 b.toInt64.toInt :=
    masked_distance (k := 6) (x := b.toInt64.toBitVec) (by decide) rfl rfl
  rw [← Int32.toInt_toInt64]
  cases op with
  | shl =>
      rw [← hdistance.1]
      rfl
  | shr =>
      rw [← hdistance.1]
      rfl
  | ushr =>
      rw [← hdistance.2]
      rfl
  | _ => cases hshift

/-! ### Operands -/

section Operands

variable {op : ArithOp} {kind : Kind} {operands : List Value}

theorem arity_eq_two (hop : op ≠ .neg) : op.arity = 2 := by
  cases op with
  | neg => exact absurd rfl hop
  | _ => rfl

theorem length_of_operandKinds? {kinds : List Kind} (h : op.operandKinds? kind = some kinds) :
    kinds.length = op.arity := by
  cases op <;> grind [ArithOp.operandKinds?, ArithOp.arity]

/-- The kinds of two operands. Only the integer kinds have shifts and bit
operations. -/
theorem operandKinds?_eq_pair_iff {k k' : Kind} (hop : op ≠ .neg) :
    op.operandKinds? kind = some [k, k'] ↔ k = kind ∧ k' = (if op.isShift then .int else kind) ∧
      (op ∈ Code.integerOps → kind.width?.isSome) := by
  cases op <;> grind [ArithOp.operandKinds?, ArithOp.isShift, Code.integerOps]

/-- The result has the kind that the instruction names, not the kinds of the
operands: a long that is shifted takes an int. -/
theorem kind_arithmetic {v : Value} (h : arithmetic op kind operands = .ok v) :
    v.kind = kind := by
  have hmap : ∀ {α : Type} {f : α → Value} {x : Except EvalError α}, f <$> x = .ok v →
      ∃ a, v = f a := by
    intro α f x hx
    cases x with
    | error e => cases hx
    | ok a =>
        cases hx
        exact ⟨a, rfl⟩
  rcases operands with _ | ⟨a, _ | ⟨b, _ | _⟩⟩
  · cases h
  · simp only [arithmetic] at h
    split at h
    · unfold negate at h
      split at h <;> cases h <;> rfl
    · cases h
  · simp only [arithmetic] at h
    split at h
    · cases h
    · unfold binary at h
      split at h
      · obtain ⟨x, rfl⟩ := hmap h
        rfl
      · obtain ⟨x, rfl⟩ := hmap h
        rfl
      · obtain ⟨x, rfl⟩ := hmap h
        rfl
      · obtain ⟨x, rfl⟩ := hmap h
        rfl
      · obtain ⟨x, rfl⟩ := hmap h
        rfl
      · cases h
  · cases h

theorem negate_eq_typeMismatch_iff {a : Value} :
    negate kind a = .error .typeMismatch ↔ a.kind ≠ kind := by
  cases kind <;> cases a <;> simp [negate, Value.kind]

theorem map_eq_error_iff {α β ε : Type} {f : α → β} {x : Except ε α} {e : ε} :
    f <$> x = .error e ↔ x = .error e := by
  cases x <;> simp [Functor.map, Except.map]

theorem intOp_ne_typeMismatch (hop : op ≠ .neg) (a b : Int32) :
    intOp op a b ≠ .error .typeMismatch := by
  cases op <;> grind [intOp]

theorem longOp_eq_typeMismatch_iff (hop : op ≠ .neg) {a b : Int64} :
    longOp op a b = .error .typeMismatch ↔ op.isShift := by
  cases op <;> grind [longOp, ArithOp.isShift]

theorem longShift_eq_typeMismatch_iff {a : Int64} {b : Int32} :
    longShift op a b = .error .typeMismatch ↔ ¬ op.isShift := by
  cases op <;> simp [longShift, ArithOp.isShift]

theorem floatOp_eq_typeMismatch_iff (hop : op ≠ .neg) {f : Binary.Format} {a b : Nat} :
    floatOp f op a b = .error .typeMismatch ↔ op ∈ Code.integerOps := by
  cases op <;> simp [floatOp, Code.integerOps] at hop ⊢

/-- An operation refuses its operands exactly when the instruction does not take
operands of these kinds. -/
theorem binary_eq_typeMismatch_iff (hop : op ≠ .neg) {a b : Value} :
    binary op kind a b = .error .typeMismatch ↔ op.operandKinds? kind ≠ some [a.kind, b.kind] := by
  have hmem : op.isShift → op ∈ Code.integerOps := by cases op <;> decide
  rw [ne_eq, operandKinds?_eq_pair_iff hop]
  by_cases hshift : op.isShift
  · cases kind <;> cases a <;> cases b <;>
      simp [binary, map_eq_error_iff, Value.kind, Kind.width?, intOp_ne_typeMismatch hop,
        longOp_eq_typeMismatch_iff hop, longShift_eq_typeMismatch_iff,
        floatOp_eq_typeMismatch_iff hop, hshift, hmem hshift]
  · cases kind <;> cases a <;> cases b <;>
      simp [binary, map_eq_error_iff, Value.kind, Kind.width?, intOp_ne_typeMismatch hop,
        longOp_eq_typeMismatch_iff hop, longShift_eq_typeMismatch_iff,
        floatOp_eq_typeMismatch_iff hop, hshift]

/-- Evaluation refuses operands that are not those of the operation. -/
theorem arithmetic_eq_typeMismatch_iff :
    arithmetic op kind operands = .error .typeMismatch ↔
      op.operandKinds? kind ≠ some (operands.map Value.kind) := by
  by_cases hlength : operands.length = op.arity
  · by_cases hop : op = .neg
    · subst hop
      obtain ⟨a, rfl⟩ := List.length_eq_one_iff.1 hlength
      rw [arithmetic, if_pos rfl, negate_eq_typeMismatch_iff]
      simp [ArithOp.operandKinds?, eq_comm]
    · obtain ⟨a, b, rfl⟩ := List.length_eq_two.1 (hlength.trans (arity_eq_two hop))
      rw [arithmetic, if_neg hop, binary_eq_typeMismatch_iff hop]
      rfl
  · refine iff_of_true ?_ fun h => hlength ?_
    · rcases operands with _ | ⟨a, _ | ⟨b, _ | ⟨c, rest⟩⟩⟩
      · rfl
      · exact if_neg fun hop => hlength (by rw [hop]; rfl)
      · exact if_pos (by_contra fun hop => hlength (arity_eq_two hop).symm)
      · rfl
    · rw [← length_of_operandKinds? h, List.length_map]

end Operands

/-! ### Integers -/

section Integers

variable {op : ArithOp} {kind : Kind} {width : Nat}

theorem intOp_of_dividesByZero {a b : Int32} (h : DividesByZero op [a.toInt, b.toInt]) :
    intOp op a b = .error (.divisionByZero op) := by
  obtain ⟨hop, hb⟩ := h
  obtain rfl : b = 0 := Int32.toInt_inj.1 (Option.some.inj hb)
  rcases hop with rfl | rfl <;> rfl

theorem longOp_of_dividesByZero {a b : Int64} (h : DividesByZero op [a.toInt, b.toInt]) :
    longOp op a b = .error (.divisionByZero op) := by
  obtain ⟨hop, hb⟩ := h
  obtain rfl : b = 0 := Int64.toInt_inj.1 (Option.some.inj hb)
  rcases hop with rfl | rfl <;> rfl

/-- An operation on two integers of its kinds. -/
theorem binary_of_integers (hop : op ≠ .neg) {a b : Value} {x y : Int}
    (hwidth : kind.width? = some width)
    (hkinds : op.operandKinds? kind = some [a.kind, b.kind])
    (hx : a.integer? = some x) (hy : b.integer? = some y) :
    (DividesByZero op [x, y] → binary op kind a b = .error (.divisionByZero op)) ∧
    (¬ DividesByZero op [x, y] → ∃ v, binary op kind a b = .ok v ∧
      v.integer? = some ((exactResult width op [x, y]).bmod (2 ^ width))) := by
  obtain ⟨ha, hb, -⟩ := (operandKinds?_eq_pair_iff hop).1 hkinds
  cases kind with
  | int =>
      cases hwidth
      cases a <;> cases ha
      rw [ite_self] at hb
      cases b <;> cases hb
      rename_i a b
      cases hx
      cases hy
      refine ⟨fun h => by rw [binary, intOp_of_dividesByZero h]; rfl, fun h => ?_⟩
      have hexact := toInt_wordOp hop a.toBitVec b.toBitVec b.toInt
      have hsame : (if op.isShift then b.toInt else b.toBitVec.toInt) = b.toInt := ite_self _
      rw [hsame] at hexact
      refine ⟨.int (.ofBitVec _), ?_, congrArg some hexact⟩
      rw [binary, intOp_eq_ok hop h]
      rfl
  | long =>
      cases hwidth
      cases a <;> cases ha
      rename_i a
      cases hx
      -- A shift takes its distance as an int, whatever is shifted.
      by_cases hshift : op.isShift
      · rw [if_pos hshift] at hb
        cases b <;> cases hb
        rename_i b
        cases hy
        refine ⟨fun h => ?_, fun _ => ?_⟩
        · rcases h.1 with rfl | rfl <;> cases hshift
        · have hexact := toInt_wordOp hop a.toBitVec 0 b.toInt
          rw [if_pos hshift] at hexact
          refine ⟨.long (.ofBitVec _), ?_, congrArg some hexact⟩
          rw [binary, longShift_eq_ok hshift]
          rfl
      · rw [if_neg hshift] at hb
        cases b <;> cases hb
        rename_i b
        cases hy
        refine ⟨fun h => by rw [binary, longOp_of_dividesByZero h]; rfl, fun h => ?_⟩
        have hexact := toInt_wordOp hop a.toBitVec b.toBitVec 0
        rw [if_neg hshift] at hexact
        refine ⟨.long (.ofBitVec _), ?_, congrArg some hexact⟩
        rw [binary, longOp_eq_ok hop hshift h]
        rfl
  | float => cases hwidth
  | double => cases hwidth

/-- Negation wraps at the smallest number, as the other operations do. -/
theorem negate_of_integer {a : Value} {x : Int} (hwidth : kind.width? = some width)
    (ha : a.kind = kind) (hx : a.integer? = some x) :
    ∃ v, negate kind a = .ok v ∧ v.integer? = some ((-x).bmod (2 ^ width)) := by
  subst ha
  cases a with
  | int a =>
      cases hwidth
      cases hx
      exact ⟨_, rfl, congrArg some (Int32.toInt_neg a)⟩
  | long a =>
      cases hwidth
      cases hx
      exact ⟨_, rfl, congrArg some (Int64.toInt_neg a)⟩
  | float bits => cases hwidth
  | double bits => cases hwidth

/-- **Integer arithmetic is exact up to the width**, and fails only where it
divides by zero. -/
theorem arithmetic_of_integers {operands : List Value} {numbers : List Int}
    (hwidth : kind.width? = some width)
    (hkinds : op.operandKinds? kind = some (operands.map Value.kind))
    (hnumbers : operands.map Value.integer? = numbers.map some) :
    (DividesByZero op numbers → arithmetic op kind operands = .error (.divisionByZero op)) ∧
    (¬ DividesByZero op numbers → ∃ v, arithmetic op kind operands = .ok v ∧
      v.integer? = some ((exactResult width op numbers).bmod (2 ^ width))) := by
  have hlength : operands.length = op.arity := by
    rw [← length_of_operandKinds? hkinds, List.length_map]
  have hcount : operands.length = numbers.length := by
    simpa using congrArg List.length hnumbers
  by_cases hop : op = .neg
  · subst hop
    obtain ⟨a, rfl⟩ := List.length_eq_one_iff.1 hlength
    obtain ⟨x, rfl⟩ := List.length_eq_one_iff.1 hcount.symm
    simp only [List.map_cons, List.map_nil, List.cons.injEq, and_true] at hnumbers
    have ha : a.kind = kind := by simpa [ArithOp.operandKinds?, eq_comm] using hkinds
    refine ⟨fun h => ?_, fun _ => negate_of_integer hwidth ha hnumbers⟩
    rcases h.1 with hop | hop <;> cases hop
  · have hpair := arity_eq_two hop
    obtain ⟨a, b, rfl⟩ := List.length_eq_two.1 (hlength.trans hpair)
    obtain ⟨x, y, rfl⟩ := List.length_eq_two.1 (hcount.symm.trans (hlength.trans hpair))
    simp only [List.map_cons, List.map_nil, List.cons.injEq, and_true] at hnumbers
    rw [arithmetic, if_neg hop]
    exact binary_of_integers hop hwidth hkinds hnumbers.1 hnumbers.2

end Integers

/-- **Arithmetic is the machine's.** Operands are refused if and only if their
number or kinds are not those of the operation, and a result has the kind of the
operation. On integers only a division or remainder by zero fails; any other
result is the exact one, reduced to the width of the kind. Quotient and remainder
belong together, and the remainder has the sign of the dividend. -/
theorem arithmetic_exact (op : ArithOp) (kind : Kind) (operands : List Value) :
    (arithmetic op kind operands = .error .typeMismatch ↔
      op.operandKinds? kind ≠ some (operands.map Value.kind)) ∧
    (∀ v, arithmetic op kind operands = .ok v → v.kind = kind) ∧
    (∀ width numbers, kind.width? = some width →
      op.operandKinds? kind = some (operands.map Value.kind) →
      operands.map Value.integer? = numbers.map some →
      (DividesByZero op numbers → arithmetic op kind operands = .error (.divisionByZero op)) ∧
      (¬ DividesByZero op numbers → ∃ v, arithmetic op kind operands = .ok v ∧ v.kind = kind ∧
        v.integer? = some ((exactResult width op numbers).bmod (2 ^ width)))) ∧
    (∀ width a b, b ≠ 0 →
      b * exactResult width .div [a, b] + exactResult width .rem [a, b] = a ∧
      (exactResult width .rem [a, b]).natAbs < b.natAbs ∧
      (0 ≤ a → 0 ≤ exactResult width .rem [a, b]) ∧
      (a ≤ 0 → exactResult width .rem [a, b] ≤ 0)) := by
  refine ⟨arithmetic_eq_typeMismatch_iff, fun _ => kind_arithmetic, ?_, ?_⟩
  · intro width numbers hwidth hkinds hnumbers
    obtain ⟨hzero, hresult⟩ := arithmetic_of_integers hwidth hkinds hnumbers
    refine ⟨hzero, fun h => ?_⟩
    obtain ⟨v, hv, hexact⟩ := hresult h
    exact ⟨v, hv, kind_arithmetic hv, hexact⟩
  · intro width a b hb
    refine ⟨Int.mul_tdiv_add_tmod a b, ?_, Int.tmod_nonneg b, fun ha => ?_⟩
    · exact (Int.natAbs_tmod a b).trans_lt (Nat.mod_lt _ (Int.natAbs_pos.2 hb))
    · have hneg := Int.tmod_nonneg b (Int.neg_nonneg_of_nonpos ha)
      rw [Int.neg_tmod] at hneg
      exact Int.nonpos_of_neg_nonneg hneg

/-- The one quotient that does not fit, a distance that is negative, a remainder
by zero, and a negative dividend. -/
theorem arithmetic_exact_extremes :
    (∃ v, arithmetic .div .int [.int (-2147483648), .int (-1)] = .ok v ∧ v.kind = .int ∧
      v.integer? = some (-2147483648)) ∧
    (∃ v, arithmetic .ushr .long [.long (-2), .int (-1)] = .ok v ∧ v.kind = .long ∧
      v.integer? = some 1) ∧
    arithmetic .rem .long [.long 10, .long 0] = .error (.divisionByZero .rem) ∧
    (3 : Int) * exactResult 32 .div [-7, 3] + exactResult 32 .rem [-7, 3] = -7 := by
  refine ⟨?_, ?_, ?_, ?_⟩
  · have hexact : (exactResult 32 .div [-2147483648, -1]).bmod (2 ^ 32) = -2147483648 := by
      decide +kernel
    rw [← hexact]
    exact ((arithmetic_exact .div .int [.int (-2147483648), .int (-1)]).2.2.1 32
      [-2147483648, -1] rfl rfl (by decide +kernel)).2 (by simp [DividesByZero])
  · have hexact : (exactResult 64 .ushr [-2, -1]).bmod (2 ^ 64) = 1 := by decide +kernel
    rw [← hexact]
    exact ((arithmetic_exact .ushr .long [.long (-2), .int (-1)]).2.2.1 64 [-2, -1] rfl rfl
      (by decide +kernel)).2 (by simp [DividesByZero])
  · exact ((arithmetic_exact .rem .long [.long 10, .long 0]).2.2.1 64 [10, 0] rfl rfl rfl).1
      ⟨.inr rfl, rfl⟩
  · exact ((arithmetic_exact .rem .int []).2.2.2 32 (-7) 3 (by decide)).1

end Eval

end JvmOptimizer
