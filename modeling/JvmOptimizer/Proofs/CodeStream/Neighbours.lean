import JvmOptimizer.CodeStream.Edit
import JvmOptimizer.Loops
import Mathlib.Data.Nat.Basic
import Mathlib.Order.Basic

/-!
# Neighbours in a code stream

Facts about who is live and who comes next. The central notion is `ahead`: the
first live node from some place on, or the end of the arena. It is where a
reference to that place leads once the dead nodes are passed over, and every
deletion is described by what it does to `ahead`.
-/

namespace JvmOptimizer.CodeStream

variable {s s' : CodeStream} {n t u id : Nat}

/-- The first live node from a place on, or the end. -/
def ahead (s : CodeStream) (place : Nat) : Nat := (s.firstFrom place).getD s.nodes.size

/-! ### Live nodes -/

theorem lt_size_of_isLive (h : s.isLive n) : n < s.nodes.size := by
  by_contra hn
  have : s.nodes[n]? = none := by simp; omega
  simp [isLive, this] at h

theorem exists_instruction_of_lt (h : n < s.nodes.size) :
    ∃ insn, s.instruction? n = some insn := by
  simp [instruction?, h]

/-- The list of live nodes is complete. -/
@[simp]
theorem mem_ids : n ∈ s.ids ↔ s.isLive n := by
  simp only [ids, List.mem_filter, List.mem_range, and_iff_right_iff_imp]
  exact lt_size_of_isLive

/-- The live nodes are listed in ascending order. -/
theorem pairwise_ids : s.ids.Pairwise (· < ·) :=
  List.pairwise_lt_range.filter _

/-- A loop is a transfer to a node that does not stand behind it. -/
theorem mem_loops_iff {e : LoopExtent} :
    e ∈ s.loops ↔ ∃ head tail, s.isLive tail ∧ head ∈ s.targets tail ∧
      s.position head ≤ s.position tail ∧
      e = ⟨head, tail, s.position head, s.position tail⟩ := by
  simp only [loops, loopsAt, List.mem_flatMap, List.mem_map, List.mem_filter,
    List.mem_eraseDups, mem_ids, decide_eq_true_eq]
  constructor
  · rintro ⟨tail, hlive, head, ⟨hmem, hle⟩, rfl⟩
    exact ⟨head, tail, hlive, hmem, hle, rfl⟩
  · rintro ⟨head, tail, hlive, hmem, hle, rfl⟩
    exact ⟨tail, hlive, head, ⟨hmem, hle⟩, rfl⟩

/-! ### The first live node from a place on -/

/-- The search forward stops at the first live node. -/
theorem firstFrom_eq_some_iff :
    s.firstFrom t = some n ↔ t ≤ n ∧ s.isLive n ∧ ∀ k, t ≤ k → k < n → ¬ s.isLive k := by
  -- By induction along the search: the node at hand is live, is dead, or is the end.
  fun_induction firstFrom s t with
  | case1 t ht hl =>
      simp only [Option.some.injEq]
      constructor
      · rintro rfl
        exact ⟨le_rfl, hl, fun k _ _ => by omega⟩
      · rintro ⟨htn, -, hk⟩
        by_contra hne
        exact hk t le_rfl (by omega) hl
  | case2 t ht hl ih =>
      rw [ih]
      constructor
      · rintro ⟨htn, hn, hk⟩
        refine ⟨by omega, hn, fun k hk₁ hk₂ => ?_⟩
        rcases Nat.eq_or_lt_of_le hk₁ with rfl | hlt
        · exact hl
        · exact hk k hlt hk₂
      · rintro ⟨htn, hn, hk⟩
        have hne : t ≠ n := by
          rintro rfl
          exact hl hn
        exact ⟨by omega, hn, fun k hk₁ hk₂ => hk k (by omega) hk₂⟩
  | case3 t ht =>
      simp only [reduceCtorEq, false_iff]
      rintro ⟨htn, hn, -⟩
      have := lt_size_of_isLive hn
      omega

theorem firstFrom_eq_none_iff : s.firstFrom t = none ↔ ∀ k, t ≤ k → ¬ s.isLive k := by
  constructor
  · intro h k htk hk
    -- The least live node from `t` on would be found.
    induction k using Nat.strongRecOn with
    | ind k ih =>
        have hne : s.firstFrom t ≠ some k := by simp [h]
        refine hne (firstFrom_eq_some_iff.2 ⟨htk, hk, fun j htj hjk hj => ?_⟩)
        exact ih j hjk htj hj
  · intro h
    cases hf : s.firstFrom t with
    | none => rfl
    | some n =>
        obtain ⟨htn, hn, -⟩ := firstFrom_eq_some_iff.1 hf
        exact absurd hn (h n htn)

/-- `ahead` is the only place with its three properties. -/
theorem ahead_eq (htn : t ≤ n) (hn : s.isLive n ∨ n = s.nodes.size)
    (hdead : ∀ k, t ≤ k → k < n → ¬ s.isLive k) : s.ahead t = n := by
  rcases hn with hn | rfl
  · rw [ahead, firstFrom_eq_some_iff.2 ⟨htn, hn, hdead⟩]
    rfl
  · rw [ahead, firstFrom_eq_none_iff.2 ?_]
    · rfl
    · intro k htk hk
      exact hdead k htk (lt_size_of_isLive hk) hk

theorem isLive_ahead_or (s : CodeStream) (t : Nat) :
    s.isLive (s.ahead t) ∨ s.ahead t = s.nodes.size := by
  cases hf : s.firstFrom t with
  | none =>
      right
      simp [ahead, hf]
  | some n =>
      left
      simp [ahead, hf, (firstFrom_eq_some_iff.1 hf).2.1]

theorem isLive_ahead (h : s.ahead t < s.nodes.size) : s.isLive (s.ahead t) := by
  rcases s.isLive_ahead_or t with hl | he
  · exact hl
  · omega

theorem ahead_le_size (s : CodeStream) (t : Nat) : s.ahead t ≤ s.nodes.size := by
  rcases s.isLive_ahead_or t with hl | he
  · exact (lt_size_of_isLive hl).le
  · exact he.le

theorem le_ahead (h : t ≤ s.nodes.size) : t ≤ s.ahead t := by
  cases hf : s.firstFrom t with
  | none => simpa [ahead, hf] using h
  | some n => simpa [ahead, hf] using (firstFrom_eq_some_iff.1 hf).1

theorem not_isLive_of_lt_ahead (htn : t ≤ n) (hn : n < s.ahead t) : ¬ s.isLive n := by
  cases hf : s.firstFrom t with
  | none => exact firstFrom_eq_none_iff.1 hf n htn
  | some k =>
      have hk : s.ahead t = k := by simp [ahead, hf]
      exact (firstFrom_eq_some_iff.1 hf).2.2 n htn (hk ▸ hn)

theorem ahead_of_isLive (h : s.isLive t) : s.ahead t = t :=
  ahead_eq le_rfl (.inl h) fun k _ _ => by omega

/-- The look ahead never passes a live node. -/
theorem ahead_le_of_isLive (htn : t ≤ n) (hn : s.isLive n) : s.ahead t ≤ n := by
  by_contra hlt
  exact not_isLive_of_lt_ahead htn (by omega) hn

/-- For a live node, to lie behind a place and behind what is ahead of the
place is the same. -/
theorem ahead_le_iff (ht : t ≤ s.nodes.size) (hn : s.isLive n) : s.ahead t ≤ n ↔ t ≤ n :=
  ⟨fun h => (le_ahead ht).trans h, fun h => ahead_le_of_isLive h hn⟩

/-- Dead nodes are passed over. -/
theorem ahead_eq_of_dead (htu : t ≤ u) (hu : u ≤ s.nodes.size)
    (hdead : ∀ k, t ≤ k → k < u → ¬ s.isLive k) : s.ahead t = s.ahead u := by
  refine ahead_eq (htu.trans (le_ahead hu)) (s.isLive_ahead_or u) fun k htk hk => ?_
  by_cases hku : k < u
  · exact hdead k htk hku
  · exact not_isLive_of_lt_ahead (by omega) hk

theorem ahead_of_not_isLive (ht : t < s.nodes.size) (h : ¬ s.isLive t) :
    s.ahead t = s.ahead (t + 1) := by
  refine ahead_eq_of_dead (by omega) ht fun k htk hk => ?_
  obtain rfl : k = t := by omega
  exact h

theorem ahead_eq_size_of_le (h : s.nodes.size ≤ t) : s.ahead t = s.nodes.size := by
  have : s.firstFrom t = none := firstFrom_eq_none_iff.2 fun k htk hk => by
    have := lt_size_of_isLive hk
    omega
  simp [ahead, this]

/-- The search forward and the look ahead differ at the end only, where the one
finds nothing and the other stops behind the last node. -/
theorem firstFrom_eq_ahead :
    s.firstFrom t = if s.ahead t < s.nodes.size then some (s.ahead t) else none := by
  cases hf : s.firstFrom t with
  | none => simp [ahead, hf]
  | some n => simp [ahead, hf, lt_size_of_isLive (firstFrom_eq_some_iff.1 hf).2.1]

/-- Only the live nodes count for `ahead`. -/
theorem ahead_congr (hsize : s'.nodes.size = s.nodes.size)
    (hlive : ∀ n, s'.isLive n = s.isLive n) : s'.ahead t = s.ahead t := by
  by_cases ht : t ≤ s.nodes.size
  · refine ahead_eq (le_ahead ht) ?_ fun k htk hk => ?_
    · rw [hlive, hsize]
      exact s.isLive_ahead_or t
    · rw [hlive]
      exact not_isLive_of_lt_ahead htk hk
  · rw [ahead_eq_size_of_le (by omega), ahead_eq_size_of_le (by omega), hsize]

/-- Where nodes have only died, one may pass over the dead in two steps. -/
theorem ahead_ahead (hsize : s'.nodes.size = s.nodes.size)
    (hlive : ∀ n, s'.isLive n → s.isLive n) : s'.ahead (s.ahead t) = s'.ahead t := by
  by_cases ht : t ≤ s.nodes.size
  · refine (ahead_eq_of_dead (le_ahead ht) ?_ fun k htk hk hl => ?_).symm
    · rw [hsize]
      exact ahead_le_size s t
    · exact not_isLive_of_lt_ahead htk hk (hlive k hl)
  · rw [ahead_eq_size_of_le (s := s) (by omega), ahead_eq_size_of_le (by omega),
      ahead_eq_size_of_le (by omega)]

/-- When a live node dies, what led to it leads to the node behind it. -/
theorem ahead_of_dies (hsize : s'.nodes.size = s.nodes.size)
    (hlive : ∀ n, s'.isLive n = (s.isLive n && n != id)) (hid : s.isLive id) :
    s'.ahead t = if s.ahead t = id then s.ahead (id + 1) else s.ahead t := by
  have hlt := lt_size_of_isLive hid
  by_cases ht : t ≤ s.nodes.size
  -- If the look ahead stopped at the node that dies, it now goes on behind it.
  · have hle := le_ahead ht
    split
    · rename_i heq
      have hnext : id + 1 ≤ s.ahead (id + 1) := le_ahead (by omega)
      refine ahead_eq (by omega) ?_ fun k htk hk => ?_
      · rw [hlive, hsize]
        rcases s.isLive_ahead_or (id + 1) with hl | he
        · left
          simp only [hl, Bool.true_and, bne_iff_ne]
          omega
        · exact .inr he
      · rw [hlive]
        rcases Nat.lt_trichotomy k id with hki | rfl | hki
        · simp [not_isLive_of_lt_ahead htk (heq ▸ hki)]
        · simp
        · simp [not_isLive_of_lt_ahead (by omega : id + 1 ≤ k) hk]
    · rename_i hne
      refine ahead_eq hle ?_ fun k htk hk => ?_
      · rw [hlive, hsize]
        rcases s.isLive_ahead_or t with hl | he
        · left
          simp [hl, hne]
        · exact .inr he
      · rw [hlive]
        simp [not_isLive_of_lt_ahead htk hk]
  · rw [ahead_eq_size_of_le (s := s') (by omega), ahead_eq_size_of_le (s := s) (by omega), hsize,
      if_neg (by omega)]

/-! ### Next and previous -/

theorem next?_eq (h : s.isLive n) : s.next? n = s.firstFrom (n + 1) := by simp [next?, h]

theorem next?_eq_some_iff :
    s.next? n = some u ↔ s.isLive n ∧ s.ahead (n + 1) = u ∧ u < s.nodes.size := by
  by_cases hn : s.isLive n
  · rw [next?_eq hn, firstFrom_eq_ahead]
    split
    · simp only [Option.some.injEq, hn, true_and]
      constructor
      · rintro rfl
        exact ⟨rfl, by assumption⟩
      · exact fun h => h.1
    · simp only [reduceCtorEq, hn, true_and, false_iff, not_and]
      rintro rfl
      assumption
  · simp [next?, hn]

theorem next?_eq_none_iff (hn : s.isLive n) :
    s.next? n = none ↔ s.ahead (n + 1) = s.nodes.size := by
  rw [next?_eq hn, firstFrom_eq_ahead]
  have := ahead_le_size s (n + 1)
  split
  · simp only [reduceCtorEq, false_iff]
    omega
  · simp only [true_iff]
    omega

/-- The search backward stops at the nearest live node. -/
theorem lastBefore_eq_some_iff :
    s.lastBefore t = some n ↔ n < t ∧ s.isLive n ∧ ∀ k, n < k → k < t → ¬ s.isLive k := by
  -- By induction on where the search starts; the node before it is live or dead.
  induction t with
  | zero => simp [lastBefore]
  | succ t ih =>
      rw [lastBefore]
      split
      · rename_i hl
        simp only [Option.some.injEq]
        constructor
        · rintro rfl
          exact ⟨by omega, hl, fun k _ _ => by omega⟩
        · rintro ⟨hnt, -, hk⟩
          by_contra hne
          exact hk t (by omega) (by omega) hl
      · rename_i hl
        rw [ih]
        constructor
        · rintro ⟨hnt, hn, hk⟩
          refine ⟨by omega, hn, fun k hk₁ hk₂ => ?_⟩
          rcases Nat.eq_or_lt_of_le (Nat.le_of_lt_succ hk₂) with rfl | hlt
          · exact hl
          · exact hk k hk₁ hlt
        · rintro ⟨hnt, hn, hk⟩
          have hne : n ≠ t := by
            rintro rfl
            exact hl hn
          exact ⟨by omega, hn, fun k hk₁ hk₂ => hk k hk₁ (by omega)⟩

/-- The node in front of a live node is live, and none lives in between. -/
theorem prev?_eq_some_iff : s.prev? t = some n ↔
    s.isLive t ∧ n < t ∧ s.isLive n ∧ ∀ k, n < k → k < t → ¬ s.isLive k := by
  rw [prev?]
  split
  · rename_i h
    rw [lastBefore_eq_some_iff]
    simp [h]
  · rename_i h
    simp [h]

/-- The node before another is the one that leads to it. -/
theorem ahead_succ_of_prev? (h : s.prev? t = some n) : s.ahead (n + 1) = t := by
  obtain ⟨ht, hnt, -, hk⟩ := prev?_eq_some_iff.1 h
  exact ahead_eq (by omega) (.inl ht) fun k hk₁ hk₂ => hk k (by omega) hk₂

/-! ### References -/

theorem isHandlerEntry_iff : s.isHandlerEntry n ↔ ∃ h ∈ s.handlers, h.entry = n := by
  simp [isHandlerEntry]

/-- A node is targeted if a handler starts there or another live node names
it. -/
theorem isTargeted_iff : s.isTargeted n ↔
    s.isHandlerEntry n ∨ ∃ k, s.isLive k ∧ k ≠ n ∧ n ∈ s.targets k := by
  simp [isTargeted, targeters, List.filter_eq_nil_iff]

theorem targets_of_instruction? {insn : Instruction Nat} (h : s.instruction? n = some insn) :
    s.targets n = insn.targets := by
  simp [targets, h]

end JvmOptimizer.CodeStream
