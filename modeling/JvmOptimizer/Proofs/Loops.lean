import JvmOptimizer.Proofs.CodeStream.Reached

/-!
# What loops write

The slots that a loop writes are read off the stream as it is now: it is followed
from the head of the loop up to where the tail stood when the loops were collected.
As long as positions ascend, that is a question about live nodes and their positions
only. So it can be asked of a stream that has been edited since.
-/

namespace JvmOptimizer

variable {τ : Type}

/-! ### Writes -/

/-- An instruction writes a local slot. -/
inductive Instruction.Writes : Instruction τ → Nat → Prop
  | store {kind index} : Writes (.store kind index) index.toNat
  | upperHalf {kind index} (hwide : kind.slots = 2) :
      Writes (.store kind index) (index.toNat + 1)
  | increment {index delta} : Writes (.increment index delta) index.toNat

theorem Instruction.mem_writtenSlots {insn : Instruction τ} {slot : Nat} :
    slot ∈ insn.writtenSlots ↔ insn.Writes slot := by
  constructor
  · intro h
    cases insn with
    | store kind index =>
        have hslots : kind.slots ≤ 2 := by
          rcases kind with (_ | _ | _ | _) | _ <;> decide
        obtain ⟨hle, hlt⟩ := List.mem_range'_1.1 h
        by_cases heq : slot = index.toNat
        · rw [heq]
          exact .store
        · obtain rfl : slot = index.toNat + 1 := by omega
          exact .upperHalf (by omega)
    | increment index delta =>
        rw [List.mem_singleton.1 h]
        exact .increment
    | _ => cases h
  · intro h
    cases h with
    | @store kind =>
        have hslots : 0 < kind.slots := by
          rcases kind with (_ | _ | _ | _) | _ <;> decide
        exact List.mem_range'_1.2 ⟨Nat.le_refl _, by omega⟩
    | upperHalf hwide => exact List.mem_range'_1.2 ⟨by omega, by omega⟩
    | increment => exact List.mem_singleton.2 rfl

/-! ### Following the stream -/

section Ascending

variable {α : Type} {l : List α} {p : α → Bool}

/-- What holds of an element holds of all in front of it: then the elements at the
front are all. -/
theorem takeWhile_eq_filter (h : l.Pairwise fun a b => p b → p a) :
    l.takeWhile p = l.filter p := by
  induction l with
  | nil => rfl
  | cons a l ih =>
      obtain ⟨ha, hl⟩ := List.pairwise_cons.1 h
      rw [List.takeWhile_cons, List.filter_cons, ih hl]
      split
      · rfl
      · rename_i hpa
        exact (List.filter_eq_nil_iff.2 fun b hb hpb => hpa (ha b hb hpb)).symm

theorem dropWhile_eq_filter (h : l.Pairwise fun a b => p b → p a) :
    l.dropWhile p = l.filter fun a => !p a := by
  induction l with
  | nil => rfl
  | cons a l ih =>
      obtain ⟨ha, hl⟩ := List.pairwise_cons.1 h
      rw [List.dropWhile_cons, List.filter_cons]
      split
      · rename_i hpa
        rw [ih hl, hpa]
        rfl
      · rename_i hpa
        rw [List.filter_eq_self.2 fun b hb => ?_]
        · simp [hpa]
        · simpa using fun hpb => hpa (ha b hb hpb)

end Ascending

namespace CodeStream

variable {s : CodeStream} {e : LoopExtent} {loops : List LoopExtent} {n id slot : Nat}

/-- From a live node on there are the live nodes that are not in front of it. -/
theorem mem_following (hid : s.isLive id) : n ∈ s.following id ↔ s.isLive n ∧ id ≤ n := by
  have hfollowing : s.following id = s.ids.dropWhile (· < id) := if_pos hid
  rw [hfollowing, dropWhile_eq_filter, List.mem_filter, mem_ids]
  · simp
  · refine pairwise_ids.imp fun {a b} hab hb => ?_
    have := of_decide_eq_true hb
    exact decide_eq_true (by omega)

/-- A live node writes a slot, at a position from `first` on and before `last`. -/
def WritesIn (s : CodeStream) (first last slot : Nat) : Prop :=
  ∃ n insn, s.isLive n ∧ first ≤ s.position n ∧ s.position n < last ∧
    s.instruction? n = some insn ∧ insn.Writes slot

theorem mem_writtenSlots : slot ∈ s.writtenSlots n ↔
    ∃ insn, s.instruction? n = some insn ∧ insn.Writes slot := by
  rw [writtenSlots]
  cases s.instruction? n with
  | none => simp
  | some insn => simp [Instruction.mem_writtenSlots]

theorem IsAscending.le_iff (ha : s.IsAscending) (hid : s.isLive id) (hn : s.isLive n) :
    s.position id ≤ s.position n ↔ id ≤ n := by
  constructor
  · intro hle
    by_contra hlt
    have := ha hn hid (Nat.lt_of_not_le hlt)
    omega
  · intro hle
    rcases Nat.eq_or_lt_of_le hle with rfl | hlt
    · exact Nat.le_refl _
    · exact (ha hid hn hlt).le

/-- **What an extent writes**, if its tail has not moved in front of its end. -/
theorem mem_changedIn (ha : s.IsAscending) (hhead : s.isLive e.head)
    (htail : e.last ≤ s.position e.tail) :
    slot ∈ s.changedIn e ↔ s.WritesIn (s.position e.head) e.last slot := by
  -- A node before the end is not the tail.
  have hbefore : ∀ {k}, (k ≠ e.tail ∧ s.position k < e.last) ↔ s.position k < e.last := by
    intro k
    refine ⟨And.right, fun hlt => ⟨?_, hlt⟩⟩
    rintro rfl
    omega
  have hpairwise : (s.following e.head).Pairwise fun a b =>
      decide (s.position b < e.last) → decide (s.position a < e.last) := by
    have hids : (s.following e.head).Pairwise (· < ·) := by
      rw [following, if_pos hhead]
      exact pairwise_ids.sublist (List.dropWhile_sublist _)
    refine hids.imp_of_mem fun {a b} ha' hb' hab hlt => ?_
    have hle := ha ((mem_following hhead).1 ha').1 ((mem_following hhead).1 hb').1 hab
    have := of_decide_eq_true hlt
    exact decide_eq_true (by omega)
  simp only [changedIn, hbefore, takeWhile_eq_filter hpairwise, List.mem_flatMap,
    List.mem_filter, mem_following hhead, decide_eq_true_eq, mem_writtenSlots]
  constructor
  · rintro ⟨k, ⟨⟨hk, hle⟩, hlt⟩, insn, hi, hw⟩
    exact ⟨k, insn, hk, (ha.le_iff hhead hk).2 hle, hlt, hi, hw⟩
  · rintro ⟨k, insn, hk, hle, hlt, hi, hw⟩
    exact ⟨k, ⟨⟨hk, (ha.le_iff hhead hk).1 hle⟩, hlt⟩, insn, hi, hw⟩

/-- **What is written in the loops with one head.** -/
theorem mem_changedAtHead (ha : s.IsAscending) (hid : s.isLive id)
    (htail : ∀ e ∈ loops, e.last ≤ s.position e.tail) :
    slot ∈ Loops.changedAtHead loops s id ↔
      ∃ e ∈ loops, e.head = id ∧ s.WritesIn (s.position id) e.last slot := by
  rw [Loops.changedAtHead, List.mem_mergeSort, List.mem_eraseDups, List.mem_flatMap]
  simp only [List.mem_filter, beq_iff_eq]
  constructor
  · rintro ⟨e, ⟨he, rfl⟩, hslot⟩
    exact ⟨e, he, rfl, (mem_changedIn ha hid (htail e he)).1 hslot⟩
  · rintro ⟨e, he, rfl, hslot⟩
    exact ⟨e, ⟨he, rfl⟩, (mem_changedIn ha hid (htail e he)).2 hslot⟩

/-- **What may change around a node** is what a loop around it writes: some transfer
leads from behind the node back to it or further, and the slot is written in between. -/
theorem changesAround_iff (ha : s.IsAscending) (hs : s.IsClosed) :
    Loops.changesAround s.loops s n slot ↔ ∃ source target, s.isLive source ∧
      target ∈ s.targets source ∧ s.position target ≤ s.position n ∧
      s.position n < s.position source ∧
      s.WritesIn (s.position target) (s.position source) slot := by
  simp only [Loops.changesAround, List.any_eq_true, Bool.and_eq_true, LoopExtent.contains,
    decide_eq_true_eq, List.contains_iff_mem]
  constructor
  · rintro ⟨e, he, ⟨hle, hlt⟩, hslot⟩
    obtain ⟨head, tail, htail, hmem, -, rfl⟩ := mem_loops_iff.1 he
    have hhead := hs.target htail hmem
    exact ⟨tail, head, htail, hmem, hle, hlt,
      (mem_changedIn ha hhead (Nat.le_refl _)).1 hslot⟩
  · rintro ⟨tail, head, htail, hmem, hle, hlt, hslot⟩
    have hhead := hs.target htail hmem
    refine ⟨⟨head, tail, s.position head, s.position tail⟩,
      mem_loops_iff.2 ⟨head, tail, htail, hmem, (hle.trans hlt.le), rfl⟩, ⟨hle, hlt⟩, ?_⟩
    exact (mem_changedIn ha hhead (Nat.le_refl _)).2 hslot

end CodeStream

end JvmOptimizer
