import JvmOptimizer.Proofs.Fold.Steps
import Mathlib.Data.Nat.Basic
import Mathlib.Data.List.Basic

/-!
# What is known about variables

The table of known slots has one entry for a slot at most, so to forget is to
filter: an entry goes when its value reaches into a slot that is written. From
this everything else follows. A table **fits** the variables of a running
machine if each of its values stands where it says, and it keeps fitting as long
as what is written is forgotten.
-/

namespace JvmOptimizer.Fold.Locals

open Machine

variable {Ref : Type} {l l' : Locals} {e : Nat × Value} {slot index : Nat} {slots : List Nat}
  {vars : Variables Ref} {v : Value}

/-- No slot has two entries. -/
def Functional (l : Locals) : Prop := l.entries.Pairwise fun a b => a.1 ≠ b.1

/-- The value of an entry does not reach into a slot. -/
def Avoids (e : Nat × Value) (slot : Nat) : Prop := ¬ (e.1 ≤ slot ∧ slot < e.1 + e.2.slots)

/-! ### Looking up -/

theorem mem_of_get? (h : l.get? slot = some v) : (slot, v) ∈ l.entries := by
  obtain ⟨entries⟩ := l
  simp only [get?] at h ⊢
  induction entries with
  | nil => simp at h
  | cons a entries ih =>
      obtain ⟨k, w⟩ := a
      rw [List.lookup_cons] at h
      by_cases hk : slot = k
      · subst hk
        simp only [beq_self_eq_true, Option.some.injEq] at h
        subst h
        exact List.mem_cons_self
      · simp only [beq_eq_false_iff_ne.2 hk] at h
        exact List.mem_cons_of_mem _ (ih h)

theorem Functional.get?_eq (hl : l.Functional) (h : (slot, v) ∈ l.entries) :
    l.get? slot = some v := by
  obtain ⟨entries⟩ := l
  simp only [get?, Functional] at h hl ⊢
  induction entries with
  | nil => simp at h
  | cons a entries ih =>
      obtain ⟨k, w⟩ := a
      rw [List.pairwise_cons] at hl
      rw [List.lookup_cons]
      rcases List.mem_cons.1 h with heq | hmem
      · cases heq
        simp
      · have hk : slot ≠ k := (hl.1 _ hmem).symm
        simp only [beq_eq_false_iff_ne.2 hk]
        exact ih hl.2 hmem

theorem mem_of_ofKind? {kind : LocalKind} (h : l.ofKind? kind slot = some v) :
    (slot, v) ∈ l.entries ∧ LocalKind.number v.kind = kind := by
  obtain ⟨hget, hkind⟩ := Option.filter_eq_some_iff.1 h
  exact ⟨mem_of_get? hget, by simpa using hkind⟩

/-! ### Forgetting -/

theorem Functional.erase (hl : l.Functional) : (l.erase slot).Functional := List.Pairwise.filter _ hl

theorem mem_erase : e ∈ (l.erase slot).entries ↔ e ∈ l.entries ∧ e.1 ≠ slot := by
  simp [Locals.erase]

theorem Functional.isWide_iff (hl : l.Functional) :
    l.isWide slot ↔ ∃ v, (slot, v) ∈ l.entries ∧ v.slots = 2 := by
  constructor
  · intro h
    cases hg : l.get? slot with
    | none => simp [isWide, hg] at h
    | some v => exact ⟨v, mem_of_get? hg, by simpa [isWide, hg] using h⟩
  · rintro ⟨v, hmem, hv⟩
    simp [isWide, hl.get?_eq hmem, hv]

theorem Functional.forget (hl : l.Functional) (slot : Nat) : (l.forget slot).Functional := by
  unfold Locals.forget
  dsimp only
  split
  · exact hl.erase.erase
  · exact hl.erase

/-- Forgetting a slot drops the entries that share a slot with it, a wide one
whose upper half it is included. -/
theorem Functional.mem_forget (hl : l.Functional) :
    e ∈ (l.forget slot).entries ↔ e ∈ l.entries ∧ Avoids e slot := by
  obtain ⟨k, v⟩ := e
  have hv := v.slots_eq
  unfold Locals.forget Avoids
  dsimp only
  split
  · rename_i h
    obtain ⟨hpos, hwide⟩ := h
    obtain ⟨w, hw, hslots⟩ := hl.erase.isWide_iff.1 hwide
    simp only [mem_erase, and_assoc]
    refine and_congr_right fun hmem => ⟨?_, ?_⟩
    · rintro ⟨h₁, h₂⟩
      omega
    · intro h
      refine ⟨fun heq => h (by omega), fun heq => ?_⟩
      have : v = w := by
        have h₁ := hl.get?_eq (heq ▸ hmem)
        have h₂ := hl.get?_eq (mem_erase.1 hw).1
        exact Option.some.inj (h₁.symm.trans h₂)
      subst this
      omega
  · rename_i h
    simp only [mem_erase]
    refine and_congr_right fun hmem => ⟨?_, ?_⟩
    · intro hne hin
      have hslots : v.slots = 2 := by omega
      refine h ⟨by omega, hl.erase.isWide_iff.2 ⟨v, ?_, hslots⟩⟩
      have hk : slot - 1 = k := by omega
      rw [hk]
      exact mem_erase.2 ⟨hmem, hne⟩
    · intro h heq
      omega

theorem Functional.forgetAll (hl : l.Functional) : (l.forgetAll slots).Functional := by
  unfold Locals.forgetAll
  induction slots generalizing l with
  | nil => exact hl
  | cons slot slots ih => exact ih (hl.forget slot)

/-- **To forget is to filter.** -/
theorem Functional.mem_forgetAll (hl : l.Functional) :
    e ∈ (l.forgetAll slots).entries ↔ e ∈ l.entries ∧ ∀ slot ∈ slots, Avoids e slot := by
  induction slots generalizing l with
  | nil => simp [Locals.forgetAll]
  | cons slot slots ih =>
      have hrest := ih (hl.forget slot)
      rw [Locals.forgetAll] at hrest ⊢
      rw [List.foldl_cons, hrest, hl.mem_forget, and_assoc, List.forall_mem_cons]

theorem Functional.insert (hl : l.Functional) : (l.insert slot v).Functional := by
  refine List.pairwise_cons.2 ⟨fun e he => ?_, hl.erase⟩
  exact (mem_erase.1 he).2.symm

theorem mem_insert : e ∈ (l.insert slot v).entries ↔ e = (slot, v) ∨ e ∈ l.entries ∧ e.1 ≠ slot := by
  rw [Locals.insert, List.mem_cons, mem_erase]

/-! ### Meeting -/

theorem Functional.meet {ls : List Locals} (h : ∀ l ∈ ls, l.Functional) :
    (Locals.meet ls).Functional := by
  cases ls with
  | nil => exact List.Pairwise.nil
  | cons l ls => exact List.Pairwise.filter _ (h l List.mem_cons_self)

/-- What is known where paths meet is known on each of them. -/
theorem mem_of_mem_meet {ls : List Locals} (he : e ∈ (Locals.meet ls).entries) (hl : l ∈ ls) :
    e ∈ l.entries := by
  cases ls with
  | nil => cases hl
  | cons first ls =>
      obtain ⟨hmem, hall⟩ := List.mem_filter.1 he
      rcases List.mem_cons.1 hl with rfl | hl
      · exact hmem
      · rw [List.all_eq_true] at hall
        exact mem_of_get? (by simpa using hall l hl)

/-! ### Writes -/

/-- A store leaves one entry for each slot. -/
theorem Functional.stored {kind : LocalKind} {index : UInt16} {value : Option Value}
    (hl : l.Functional) : (l.stored kind index value).Functional := by
  cases value with
  | none => exact hl.forgetAll
  | some v =>
      simp only [Locals.stored]
      split
      · exact hl.forgetAll.insert
      · exact hl.forgetAll

theorem Functional.incremented {index : UInt16} {delta : Int16} (hl : l.Functional) :
    (l.incremented index delta).Functional := by
  unfold Locals.incremented
  split
  · exact hl.insert
  · exact hl.forgetAll

/-- Every known value stands in its variable. -/
def Fits (l : Locals) (vars : Variables Ref) : Prop :=
  ∀ e ∈ l.entries, vars e.1 = some (.number e.2)

theorem fits_empty (vars : Variables Ref) : Fits {} vars := by
  intro e he
  cases he

/-- Knowing less is always right. -/
theorem Fits.mono (h : l.Fits vars) (hsub : l'.entries ⊆ l.entries) : l'.Fits vars :=
  fun e he => h e (hsub he)

theorem slots_number (v : Value) : (Datum.number v : Datum Ref).slots = v.slots := rfl

/-- A write leaves alone what does not reach into its slots. -/
theorem Fits.write (h : l.Fits vars) (d : Datum Ref)
    (ha : ∀ e ∈ l.entries, ∀ slot ∈ List.range' index d.slots, Avoids e slot)
    (hd : 0 < d.slots) : l.Fits (vars.write index d) := by
  intro e he
  have hv := e.2.slots_eq
  have hfit := h e he
  have havoid : ∀ slot, index ≤ slot → slot < index + d.slots → Avoids e slot := by
    intro slot h₁ h₂
    exact ha e he slot (List.mem_range'_1.2 ⟨h₁, h₂⟩)
  unfold Variables.write
  have hindex := havoid index le_rfl (by omega)
  unfold Avoids at hindex
  rw [if_neg (by omega), if_neg, if_neg, hfit]
  · rintro ⟨heq, hwide⟩
    rw [hfit] at hwide
    have : e.2.slots = 2 := of_decide_eq_true hwide
    omega
  · rintro ⟨hd2, heq⟩
    have hnext := havoid (index + 1) (by omega) (by omega)
    unfold Avoids at hnext
    omega

theorem Fits.exchange (h : l.Fits vars) (d : Datum Ref)
    (ha : ∀ e ∈ l.entries, e.1 ≠ index) : l.Fits (vars.exchange index d) := by
  intro e he
  unfold Variables.exchange
  rw [if_neg (ha e he), h e he]

theorem slots_pos (d : Datum Ref) : 0 < d.slots := by
  cases d with
  | number v =>
      have := v.slots_eq
      rw [slots_number]
      omega
  | reference r => exact Nat.one_pos

/-- **A store** is followed by what is known. -/
theorem Fits.stored {kind : LocalKind} {index : UInt16} {value : Option Value} {d : Datum Ref}
    (hl : l.Functional) (h : l.Fits vars) (hd : d.kind = kind)
    (hvalue : ∀ v, value = some v → d = .number v) :
    (l.stored kind index value).Fits (vars.write index.toNat d) := by
  have hrest : (l.forgetAll (Instruction.store (τ := Nat) kind index).writtenSlots).Fits
      (vars.write index.toNat d) := by
    refine Fits.write (h.mono fun e he => (hl.mem_forgetAll.1 he).1) d (fun e he slot hs => ?_)
      (slots_pos d)
    rw [Datum.slots, hd] at hs
    exact (hl.mem_forgetAll.1 he).2 slot hs
  cases value with
  | none => exact hrest
  | some v =>
      simp only [Locals.stored]
      split
      · intro e he
        rcases mem_insert.1 he with rfl | ⟨he, -⟩
        · unfold Variables.write
          rw [if_pos rfl, hvalue v rfl]
        · exact hrest e he
      · exact hrest

/-- **An increment** is followed by what is known. -/
theorem Fits.incremented {index : UInt16} {delta : Int16} {w : Int32} (hl : l.Functional)
    (h : l.Fits vars) (hw : vars index.toNat = some (.number (.int w))) :
    (l.incremented index delta).Fits
      (vars.exchange index.toNat (.number (.int (w + delta.toInt32)))) := by
  unfold Locals.incremented
  split
  · rename_i v hv
    have hfit := h _ (mem_of_get? hv)
    rw [hw] at hfit
    cases hfit
    intro e he
    unfold Variables.exchange
    rcases mem_insert.1 he with rfl | ⟨he, hne⟩
    · rw [if_pos rfl]
    · rw [if_neg hne, h e he]
  · refine Fits.exchange (h.mono fun e he => (hl.mem_forgetAll.1 he).1) _ fun e he heq => ?_
    have havoid := (hl.mem_forgetAll.1 he).2 index.toNat List.mem_cons_self
    have := e.2.slots_eq
    unfold Avoids at havoid
    omega

end JvmOptimizer.Fold.Locals
