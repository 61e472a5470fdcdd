import JvmOptimizer.ClassFile.ConstantPool
import JvmOptimizer.Pool.Literal
import Mathlib.Data.List.Infix

/-!
# Pools grow at the end

A constant pool is a row of slots, and its numbers are read off single slots.
Putting in a number leaves the slots in use as they are: the number already
stands in one of them, or it goes behind the last. So an index keeps its meaning
in every later pool (`Pool.Extends`).
-/

namespace JvmOptimizer

/-- What stands at an index of a row of slots, which are numbered from 1 on. -/
def slotAt? {σ : Type} (slots : List σ) (index : UInt16) : Option σ :=
  if index = 0 then none else slots[index.toNat - 1]?

/-- The laws of a pool, in terms of its slots. -/
class LawfulPool (π : Type) [Pool π] where
  /-- What a slot holds. -/
  Slot : Type
  /-- The slots in use. -/
  slots : π → List Slot
  /-- The number in a slot. -/
  number? : Slot → Option Value
  resolve?_eq : ∀ p index, Pool.resolve? p index = (slotAt? (slots p) index).bind number?
  /-- A number is put in behind the slots in use, of which none is too many for
  an index. -/
  intern_eq_ok : ∀ {v : Value} {p q : π} {index : UInt16}, (slots p).length ≤ 65535 →
    Pool.intern v p = .ok (index, q) →
      slots p <+: slots q ∧ (slots q).length ≤ 65535 ∧ Pool.resolve? q index = some v

/-- A pool that never puts in a number that it holds: the number is found at its
first index, and the pool stays as it is. -/
class SearchedPool (π : Type) [Pool π] : Prop where
  intern_of_resolve? : ∀ {p : π} {index : UInt16} {v : Value}, Pool.resolve? p index = some v →
    ∃ first, first ≤ index ∧ Pool.intern v p = .ok (first, p) ∧ Pool.resolve? p first = some v

/-! ### Slots -/

section Slots

variable {σ : Type} {slots slots' : List σ} {index : UInt16}

/-- Slot numbers count from one. -/
theorem slotAt?_ofNat {i : Nat} (h : i < 65535) :
    slotAt? slots (UInt16.ofNat (i + 1)) = slots[i]? := by
  have hnat : (UInt16.ofNat (i + 1)).toNat = i + 1 :=
    UInt16.toNat_ofNat_of_lt' (by simp only [UInt16.size]; omega)
  have hne : UInt16.ofNat (i + 1) ≠ 0 := by
    intro h0
    rw [h0] at hnat
    simp at hnat
  rw [slotAt?, if_neg hne, hnat, Nat.add_sub_cancel]

theorem le_length_of_slotAt? {a : σ} (h : slotAt? slots index = some a) :
    index.toNat ≤ slots.length := by
  unfold slotAt? at h
  by_cases h0 : index = 0
  · simp [h0]
  · rw [if_neg h0] at h
    have := (List.getElem?_eq_some_iff.1 h).1
    omega

/-- A slot in use stays as it is when slots are added at the end. -/
theorem slotAt?_of_isPrefix (h : slots <+: slots') (hindex : index.toNat ≤ slots.length) :
    slotAt? slots' index = slotAt? slots index := by
  unfold slotAt?
  by_cases h0 : index = 0
  · rw [if_pos h0, if_pos h0]
  · have hpos : index.toNat ≠ 0 := fun hz => h0 (UInt16.toNat_inj.1 hz)
    obtain ⟨added, rfl⟩ := h
    rw [if_neg h0, if_neg h0, List.getElem?_append_left (by omega)]

end Slots

namespace Pool

variable {π : Type} [Pool π] [LawfulPool π]

/-- Number of slots in use. -/
def size (p : π) : Nat := (LawfulPool.slots p).length

/-- The second pool has the slots of the first, and perhaps more behind them. -/
def Extends (p q : π) : Prop := LawfulPool.slots p <+: LawfulPool.slots q

namespace Extends

variable {p q r : π} {index : UInt16} {v : Value}

theorem refl (p : π) : Extends p p := List.prefix_refl _

theorem trans (hpq : Extends p q) (hqr : Extends q r) : Extends p r := List.IsPrefix.trans hpq hqr

/-- An index in use keeps its meaning. -/
theorem resolve?_eq (h : Extends p q) (hindex : index.toNat ≤ size p) :
    resolve? q index = resolve? p index := by
  rw [LawfulPool.resolve?_eq, LawfulPool.resolve?_eq, slotAt?_of_isPrefix h hindex]

theorem resolve?_eq_some (h : Extends p q) (hv : resolve? p index = some v) :
    resolve? q index = some v := by
  rw [← hv]
  rw [LawfulPool.resolve?_eq, Option.bind_eq_some_iff] at hv
  obtain ⟨slot, hslot, -⟩ := hv
  exact h.resolve?_eq (le_length_of_slotAt? hslot)

end Extends

/-- The second pool is what the first becomes when numbers are put into it. -/
inductive Later {π : Type} [Pool π] (p : π) : π → Prop
  | refl : Later p p
  | intern {q r : π} {v : Value} {index : UInt16} (before : Later p q)
      (step : Pool.intern v q = .ok (index, r)) : Later p r

namespace Later

theorem trans {π : Type} [Pool π] {p q r : π} (hpq : Later p q) (hqr : Later q r) : Later p r := by
  induction hqr with
  | refl => exact hpq
  | intern _ step ih => exact ih.intern step

/-- A pool that is made later has all that the earlier one has, at the same
numbers. -/
theorem grows {p q : π} (h : Later p q) (hsize : size p ≤ 65535) :
    Extends p q ∧ size q ≤ 65535 := by
  induction h with
  | refl => exact ⟨Extends.refl p, hsize⟩
  | intern _ step ih =>
      obtain ⟨hgrows, hsize', -⟩ := LawfulPool.intern_eq_ok ih.2 step
      exact ⟨ih.1.trans hgrows, hsize'⟩

end Later

end Pool

/-! ### The two kinds of pools -/

section Search

variable {σ : Type} {s : σ} {P : σ → Bool}

/-- The index of a slot that a search has found. -/
theorem slotAt?_of_findIdx? {slots : Array σ} {i : Nat} (hsize : slots.size ≤ 65535)
    (hP : ∀ a, P a → a = s) (h : slots.findIdx? P = some i) :
    slotAt? slots.toList (UInt16.ofNat (i + 1)) = some s := by
  obtain ⟨hi, hs, -⟩ := Array.findIdx?_eq_some_iff_getElem.1 h
  rw [slotAt?_ofNat (by omega), Array.getElem?_toList, Array.getElem?_eq_getElem hi, hP _ hs]

/-- What stands at an index is found there, or in front of it. -/
theorem exists_findIdx?_of_slotAt? {slots : Array σ} {index : UInt16}
    (hP : ∀ a, P a ↔ a = s) (h : slotAt? slots.toList index = some s) :
    ∃ i, slots.findIdx? P = some i ∧ UInt16.ofNat (i + 1) ≤ index ∧
      slotAt? slots.toList (UInt16.ofNat (i + 1)) = some s := by
  have hne : index ≠ 0 := by
    intro h0
    simp [slotAt?, h0] at h
  have hpos : index.toNat ≠ 0 := fun h0 => hne (UInt16.toNat_inj.1 h0)
  have hlt := index.toNat_lt
  rw [slotAt?, if_neg hne, Array.getElem?_toList] at h
  obtain ⟨hsize, hs⟩ := Array.getElem?_eq_some_iff.1 h
  have hsome : (slots.findIdx? P).isSome := by
    rw [Array.findIdx?_isSome, Array.any_eq_true]
    exact ⟨index.toNat - 1, hsize, (hP _).2 hs⟩
  obtain ⟨i, hi⟩ := Option.isSome_iff_exists.1 hsome
  obtain ⟨hlength, hat, hfirst⟩ := Array.findIdx?_eq_some_iff_getElem.1 hi
  have hle : i ≤ index.toNat - 1 := by
    by_contra hgt
    exact hfirst _ (Nat.lt_of_not_le hgt) ((hP _).2 hs)
  refine ⟨i, hi, ?_, ?_⟩
  · rw [UInt16.le_iff_toNat_le, UInt16.toNat_ofNat_of_lt' (by simp only [UInt16.size]; omega)]
    omega
  · rw [slotAt?_ofNat (by omega), Array.getElem?_toList, Array.getElem?_eq_getElem hlength,
      (hP _).1 hat]

/-- The index of a slot that was put at the end. -/
theorem slotAt?_append_cons {slots rest : List σ} (hsize : slots.length < 65535) :
    slotAt? (slots ++ s :: rest) (UInt16.ofNat (slots.length + 1)) = some s := by
  rw [slotAt?_ofNat hsize]
  simp

end Search

namespace LiteralPool

/-- The number in a slot of a literal pool. -/
def Entry.number? : Entry → Option Value
  | literal v => some v
  | _ => none

theorem entry?_eq_slotAt? (p : LiteralPool) (index : UInt16) :
    p.entry? index = slotAt? p.entries.toList index := by
  simp [slotAt?, entry?]

theorem Entry.slots_pos (e : Entry) : 0 < e.slots := by
  cases e with
  | literal v => rcases v.slots_eq with hs | hs <;> simp [Entry.slots, hs]
  | member descriptor => exact Nat.one_pos
  | upperHalf => exact Nat.one_pos

/-- An entry goes behind the slots in use, with a second slot if it is wide. -/
theorem push_cases {e : Entry} {p q : LiteralPool} {index : UInt16}
    (h : p.push e = .ok (index, q)) :
    p.size + e.slots ≤ 65534 ∧ index = UInt16.ofNat (p.size + 1) ∧
      q.entries.toList = p.entries.toList ++ e :: if e.slots = 2 then [.upperHalf] else [] := by
  unfold push at h
  by_cases hfull : p.size + 1 + e.slots > 65535
  · simp [hfull] at h
  · simp only [if_neg hfull] at h
    cases h
    refine ⟨by omega, rfl, ?_⟩
    split <;> simp

/-- An entry that is put in stands at the index it is given, and nothing in
front of it has changed. -/
theorem push_eq_ok {e : Entry} {p q : LiteralPool} {index : UInt16}
    (h : p.push e = .ok (index, q)) :
    p.entries.toList <+: q.entries.toList ∧ q.size ≤ 65535 ∧
      slotAt? q.entries.toList index = some e := by
  obtain ⟨hroom, rfl, hq⟩ := push_cases h
  have hpos := e.slots_pos
  have hlength : p.entries.toList.length = p.size := Array.length_toList
  refine ⟨⟨_, hq.symm⟩, ?_, ?_⟩
  · rw [size, ← Array.length_toList, hq, List.length_append, hlength]
    split <;> simp <;> omega
  · rw [hq, ← hlength]
    exact slotAt?_append_cons (by omega)

end LiteralPool

instance : LawfulPool LiteralPool where
  Slot := LiteralPool.Entry
  slots p := p.entries.toList
  number? := LiteralPool.Entry.number?
  resolve?_eq p index := by
    simp only [Pool.resolve?, LiteralPool.entry?_eq_slotAt?]
    cases slotAt? p.entries.toList index with
    | none => rfl
    | some e => cases e <;> rfl
  intern_eq_ok {v p q index} hsize h := by
    simp only [Pool.resolve?, Pool.intern, LiteralPool.entry?_eq_slotAt?] at h ⊢
    cases hfind : p.entries.findIdx? (· = .literal v) with
    | some i =>
        simp only [hfind, Except.ok.injEq, Prod.mk.injEq] at h
        obtain ⟨rfl, rfl⟩ := h
        rw [slotAt?_of_findIdx? hsize (fun a ha => of_decide_eq_true ha) hfind]
        exact ⟨List.prefix_refl _, hsize, rfl⟩
    | none =>
        simp only [hfind] at h
        obtain ⟨hgrows, hq, hslot⟩ := LiteralPool.push_eq_ok h
        rw [hslot]
        exact ⟨hgrows, hq, rfl⟩

theorem LiteralPool.resolve?_eq_some_iff {p : LiteralPool} {index : UInt16} {v : Value} :
    Pool.resolve? p index = some v ↔ slotAt? p.entries.toList index = some (.literal v) := by
  simp only [Pool.resolve?, entry?_eq_slotAt?]
  cases slotAt? p.entries.toList index with
  | none => simp
  | some e => cases e <;> simp

instance : SearchedPool LiteralPool where
  intern_of_resolve? {p index v} h := by
    simp only [LiteralPool.resolve?_eq_some_iff] at h ⊢
    obtain ⟨i, hfind, hle, hslot⟩ := exists_findIdx?_of_slotAt? (fun a => decide_eq_true_iff) h
    refine ⟨_, hle, ?_, hslot⟩
    simp only [Pool.intern, hfind]

namespace Constant

/-- The number that a constant is. -/
def number? : Constant → Option Value
  | number v => some v
  | _ => none

theorem slots_pos (c : Constant) : 0 < c.slots := by
  unfold slots
  split <;> decide

/-- The upper half of a wide constant is the same as nothing, itself included, so
a search never finds it. -/
theorem isSame_iff {c sought : Constant} :
    c.isSame sought ↔ c = sought ∧ sought ≠ .upperHalf := by
  simp only [isSame, Bool.and_eq_true, decide_eq_true_eq]
  constructor
  · rintro ⟨rfl, hne⟩
    exact ⟨rfl, hne⟩
  · rintro ⟨rfl, hne⟩
    exact ⟨rfl, hne⟩

theorem isSame_number {c : Constant} {v : Value} : c.isSame (.number v) ↔ c = .number v := by
  simp [isSame_iff]

/-- The slots that a constant takes in the pool of a class. -/
def row (c : Constant) : List Constant := c :: if c.isWide then [.upperHalf] else []

end Constant

namespace ConstantPool

/-- A constant stands in its slot; the second slot of a wide number holds
nothing. -/
theorem get?_eq_slotAt? (p : ConstantPool) (index : UInt16) :
    p.get? index = (slotAt? p.constants.toList index).filter (· ≠ .upperHalf) := by
  unfold get? slotAt?
  split <;> simp

theorem toList_push (p : ConstantPool) (c : Constant) :
    (p.push c).constants.toList = p.constants.toList ++ c.row := by
  unfold push Constant.row
  split <;> simp

theorem size_push (p : ConstantPool) (c : Constant) : (p.push c).size = p.size + c.slots := by
  simp only [size, ← Array.length_toList, toList_push, Constant.row, Constant.slots]
  split <;> simp

/-- A constant is found, or put behind the slots in use. -/
theorem add_cases {c : Constant} {p q : ConstantPool} {index : UInt16}
    (h : p.add c = .ok (index, q)) :
    (∃ i, p.constants.findIdx? (·.isSame c) = some i ∧ index = UInt16.ofNat (i + 1) ∧ q = p) ∨
      p.size + c.slots ≤ 65534 ∧ index = UInt16.ofNat (p.size + 1) ∧ q = p.push c := by
  unfold add at h
  cases hfind : p.constants.findIdx? (·.isSame c) with
  | some i =>
      simp only [hfind, Except.ok.injEq, Prod.mk.injEq] at h
      exact .inl ⟨i, rfl, h.1.symm, h.2.symm⟩
  | none =>
      simp only [hfind] at h
      by_cases hfull : p.size + c.slots > 65534
      · simp [hfull] at h
      · simp only [if_neg hfull, Except.ok.injEq, Prod.mk.injEq] at h
        exact .inr ⟨by omega, h.1.symm, h.2.symm⟩

/-- A constant that is added stands at the index it is given, and nothing in
front of it has changed. -/
theorem add_eq_ok {c : Constant} {p q : ConstantPool} {index : UInt16} (hsize : p.size ≤ 65535)
    (h : p.add c = .ok (index, q)) :
    p.constants.toList <+: q.constants.toList ∧ q.size ≤ 65535 ∧
      slotAt? q.constants.toList index = some c := by
  obtain ⟨i, hfind, rfl, rfl⟩ | ⟨hfits, rfl, rfl⟩ := add_cases h
  · exact ⟨List.prefix_refl _, hsize,
      slotAt?_of_findIdx? hsize (fun a ha => (Constant.isSame_iff.1 ha).1) hfind⟩
  · have hpos := c.slots_pos
    have hlt : p.constants.toList.length < 65535 := by
      rw [Array.length_toList, ← size]
      omega
    refine ⟨⟨_, (p.toList_push c).symm⟩, by rw [size_push]; omega, ?_⟩
    rw [toList_push, Constant.row, size, ← Array.length_toList, slotAt?_append_cons hlt]

end ConstantPool

instance : LawfulPool ConstantPool where
  Slot := Constant
  slots p := p.constants.toList
  number? := Constant.number?
  resolve?_eq p index := by
    simp only [Pool.resolve?, ConstantPool.number?, ConstantPool.get?_eq_slotAt?]
    cases slotAt? p.constants.toList index with
    | none => rfl
    | some c => cases c <;> rfl
  intern_eq_ok {v p q index} hsize h := by
    obtain ⟨hgrows, hq, hslot⟩ := ConstantPool.add_eq_ok hsize h
    refine ⟨hgrows, hq, ?_⟩
    simp only [Pool.resolve?, ConstantPool.number?, ConstantPool.get?_eq_slotAt?, hslot]
    rfl

theorem ConstantPool.resolve?_eq_some_iff {p : ConstantPool} {index : UInt16} {v : Value} :
    Pool.resolve? p index = some v ↔ slotAt? p.constants.toList index = some (.number v) := by
  simp only [Pool.resolve?, number?, get?_eq_slotAt?]
  cases slotAt? p.constants.toList index with
  | none => simp
  | some c => cases c <;> simp [Option.filter]

instance : SearchedPool ConstantPool where
  intern_of_resolve? {p index v} h := by
    simp only [ConstantPool.resolve?_eq_some_iff] at h ⊢
    obtain ⟨i, hfind, hle, hslot⟩ :=
      exists_findIdx?_of_slotAt? (fun a => Constant.isSame_number) h
    refine ⟨_, hle, ?_, hslot⟩
    simp only [Pool.intern, ConstantPool.add, hfind]

end JvmOptimizer
