import JvmOptimizer.Proofs.CodeStream.Exchange
import Mathlib.Data.List.Sort

/-!
# Nodes side by side

Which live nodes stand next to each other, which is the first and which the
last, and how this changes when a node is taken out or added at the end. All of
it comes down to stretches without a live node (`Clear`): without a node, the
stretches on both sides of it become one.
-/

namespace JvmOptimizer.CodeStream

variable {s : CodeStream} {n t low high id : Nat}

/-! ### Nodes side by side -/

/-- No node from `low` up to `high` is live. -/
def Clear (s : CodeStream) (low high : Nat) : Prop :=
  ∀ k, low ≤ k → k < high → ¬ s.isLive k

/-- Two live nodes with none in between. -/
def Adjacent (s : CodeStream) (n t : Nat) : Prop :=
  s.isLive n ∧ s.isLive t ∧ n < t ∧ s.Clear (n + 1) t

/-- A live node with none in front. -/
def IsFirst (s : CodeStream) (n : Nat) : Prop := s.isLive n ∧ s.Clear 0 n

/-- A live node with none behind. -/
def IsLast (s : CodeStream) (n : Nat) : Prop := s.isLive n ∧ s.Clear (n + 1) s.nodes.size

/-- The search forward and the one backward find the same pairs, so that each node
is the one before the one after it. -/
theorem next?_eq_some_iff_adjacent : s.next? n = some t ↔ s.Adjacent n t := by
  by_cases hn : s.isLive n
  · rw [next?_eq hn, firstFrom_eq_some_iff, Adjacent, Nat.succ_le_iff, Clear]
    tauto
  · simp [next?, Adjacent, hn]

theorem prev?_eq_some_iff_adjacent : s.prev? t = some n ↔ s.Adjacent n t := by
  rw [prev?_eq_some_iff, Adjacent, Clear]
  simp only [Nat.succ_le_iff]
  tauto

theorem firstFrom_zero_eq_some_iff : s.firstFrom 0 = some n ↔ s.IsFirst n := by
  rw [firstFrom_eq_some_iff, IsFirst, Clear]
  simp

theorem isLast_iff : s.IsLast n ↔ s.isLive n ∧ s.next? n = none := by
  rw [IsLast, and_congr_right_iff]
  intro hn
  rw [next?_eq hn, firstFrom_eq_none_iff]
  constructor
  · exact fun h k hk hl => h k hk (lt_size_of_isLive hl) hl
  · exact fun h k hk _ => h k hk

theorem lastBefore_eq_none_iff : s.lastBefore t = none ↔ s.Clear 0 t := by
  induction t with
  | zero => simp [lastBefore, Clear]
  | succ t ih =>
      rw [lastBefore]
      split
      · rename_i hl
        simp only [reduceCtorEq, false_iff]
        exact fun h => h t (Nat.zero_le t) (Nat.lt_succ_self t) hl
      · rename_i hl
        rw [ih]
        constructor
        · intro h k h₀ hk
          rcases Nat.lt_succ_iff_lt_or_eq.1 hk with hlt | rfl
          · exact h k h₀ hlt
          · exact hl
        · exact fun h k h₀ hk => h k h₀ (Nat.lt_succ_of_lt hk)

theorem isFirst_iff : s.IsFirst n ↔ s.isLive n ∧ s.prev? n = none := by
  rw [IsFirst, and_congr_right_iff]
  intro hn
  rw [prev?, if_pos hn, lastBefore_eq_none_iff]

theorem lastBefore_size_eq_some_iff : s.lastBefore s.nodes.size = some n ↔ s.IsLast n := by
  rw [lastBefore_eq_some_iff, IsLast, Clear]
  simp only [Nat.succ_le_iff]
  exact ⟨fun h => h.2, fun h => ⟨lt_size_of_isLive h.1, h⟩⟩

/-- A node has one successor at most, since no live node lies in between. -/
theorem Adjacent.eq_of_right {t' : Nat} (h : s.Adjacent n t) (h' : s.Adjacent n t') : t = t' :=
  Option.some.inj ((next?_eq_some_iff_adjacent.2 h).symm.trans (next?_eq_some_iff_adjacent.2 h'))

theorem Adjacent.eq_of_left {n' : Nat} (h : s.Adjacent n t) (h' : s.Adjacent n' t) : n = n' :=
  Option.some.inj ((prev?_eq_some_iff_adjacent.2 h).symm.trans (prev?_eq_some_iff_adjacent.2 h'))

theorem Adjacent.irrefl (n : Nat) : ¬ s.Adjacent n n := fun h => Nat.lt_irrefl n h.2.2.1

theorem IsFirst.eq (h : s.IsFirst n) (h' : s.IsFirst t) : n = t :=
  Option.some.inj ((firstFrom_zero_eq_some_iff.2 h).symm.trans (firstFrom_zero_eq_some_iff.2 h'))

theorem IsLast.eq (h : s.IsLast n) (h' : s.IsLast t) : n = t := by
  rcases Nat.lt_trichotomy n t with hlt | heq | hlt
  · exact absurd h'.1 (h.2 t hlt (lt_size_of_isLive h'.1))
  · exact heq
  · exact absurd h.1 (h'.2 n hlt (lt_size_of_isLive h.1))

/-! ### Parts of the stream -/

/-- The live nodes from a place on begin with the first of them. -/
theorem filter_ids_eq_cons (h : s.firstFrom t = some n) :
    s.ids.filter (t ≤ ·) = n :: s.ids.filter (n + 1 ≤ ·) := by
  obtain ⟨htn, hn, hk⟩ := firstFrom_eq_some_iff.1 h
  refine (pairwise_ids.filter _).eq_of_mem_iff ?_ fun k => ?_
  · refine List.pairwise_cons.2 ⟨fun k hmem => ?_, pairwise_ids.filter _⟩
    simp only [List.mem_filter, decide_eq_true_eq] at hmem
    omega
  · simp only [List.mem_filter, mem_ids, decide_eq_true_eq, List.mem_cons]
    grind

/-- Nothing comes behind the last live node. -/
theorem filter_ids_eq_nil (h : s.firstFrom t = none) : s.ids.filter (t ≤ ·) = [] := by
  rw [List.filter_eq_nil_iff]
  intro k hk hle
  exact firstFrom_eq_none_iff.1 h k (of_decide_eq_true hle) (mem_ids.1 hk)

/-- The live nodes from a node to one behind it are the node and those from its
neighbour on. -/
theorem filter_ids_of_adjacent {last : Nat} (h : s.Adjacent n t) (hlast : n ≤ last) :
    (s.ids.filter fun k => n ≤ k ∧ k ≤ last) =
      n :: s.ids.filter fun k => t ≤ k ∧ k ≤ last := by
  obtain ⟨hn, ht, hlt, hclear⟩ := h
  refine (pairwise_ids.filter _).eq_of_mem_iff ?_ fun k => ?_
  · refine List.pairwise_cons.2 ⟨fun k hk => ?_, pairwise_ids.filter _⟩
    simp only [List.mem_filter, decide_eq_true_eq] at hk
    omega
  · have := hclear k
    simp only [List.mem_filter, mem_ids, decide_eq_true_eq, List.mem_cons]
    grind

theorem filter_ids_eq_singleton (hn : s.isLive n) :
    (s.ids.filter fun k => n ≤ k ∧ k ≤ n) = [n] := by
  refine (pairwise_ids.filter _).eq_of_mem_iff (List.pairwise_singleton _ _) fun k => ?_
  simp only [List.mem_filter, mem_ids, decide_eq_true_eq, List.mem_singleton]
  grind

/-- The place of a node in the list of live nodes is the number of those before
it. -/
theorem idxOf_ids (hn : s.isLive n) : s.ids.idxOf n = s.rank n := by
  obtain ⟨hlt, hget⟩ := List.getElem?_eq_some_iff.1 (getElem?_ids hn)
  calc s.ids.idxOf n
    _ = s.ids.idxOf s.ids[s.rank n] := by rw [hget]
    _ = s.rank n := nodup_ids.idxOf_getElem _ hlt

/-! ### Taking out a node and adding one -/

/-- A place is clear without a node if it was before, or falls in two clear
places around the node. -/
theorem clear_unlink : (s.unlink id).Clear low high ↔
    s.Clear low high ∨ low ≤ id ∧ id < high ∧ s.Clear low id ∧ s.Clear (id + 1) high := by
  have hdead : ∀ k, ¬ (s.unlink id).isLive k ↔ ¬ s.isLive k ∨ k = id := by
    intro k
    rw [isLive_unlink]
    simp [imp_iff_not_or]
  simp only [Clear, hdead]
  constructor
  · intro h
    by_cases hin : low ≤ id ∧ id < high
    · refine .inr ⟨hin.1, hin.2, fun k h₁ h₂ => ?_, fun k h₁ h₂ => ?_⟩
      · exact (h k h₁ (by omega)).resolve_right (by omega)
      · exact (h k (by omega) h₂).resolve_right (by omega)
    · exact .inl fun k h₁ h₂ => (h k h₁ h₂).resolve_right (by omega)
  · rintro (h | ⟨-, -, h, h'⟩) k h₁ h₂
    · exact .inl (h k h₁ h₂)
    · rcases Nat.lt_trichotomy k id with hk | hk | hk
      · exact .inl (h k h₁ hk)
      · exact .inr hk
      · exact .inl (h' k hk h₂)

section Unlink

variable (hid : s.isLive id)

include hid

/-- Where a node goes, its neighbours become neighbours. -/
theorem adjacent_unlink : (s.unlink id).Adjacent n t ↔
    s.Adjacent n t ∧ n ≠ id ∧ t ≠ id ∨ s.Adjacent n id ∧ s.Adjacent id t := by
  simp only [Adjacent, isLive_unlink, Bool.and_eq_true, bne_iff_ne, clear_unlink]
  grind

/-- The first node stays first unless it goes; then its successor takes its place.
-/
theorem isFirst_unlink : (s.unlink id).IsFirst n ↔
    s.IsFirst n ∧ n ≠ id ∨ s.IsFirst id ∧ s.Adjacent id n := by
  simp only [IsFirst, Adjacent, isLive_unlink, Bool.and_eq_true, bne_iff_ne, clear_unlink]
  grind

/-- The last node stays last unless it goes; then its predecessor takes its place.
-/
theorem isLast_unlink : (s.unlink id).IsLast n ↔
    s.IsLast n ∧ n ≠ id ∨ s.IsLast id ∧ s.Adjacent n id := by
  have hlt := lt_size_of_isLive hid
  simp only [IsLast, Adjacent, isLive_unlink, Bool.and_eq_true, bne_iff_ne, clear_unlink,
    size_unlink]
  grind

theorem length_unlink : (s.unlink id).length = s.length - 1 := by
  have hids : (s.unlink id).ids = s.ids.erase id := by
    rw [nodup_ids.erase_eq_filter, ids, ids, List.filter_filter, size_unlink]
    refine List.filter_congr fun n _ => ?_
    rw [isLive_unlink, Bool.and_comm]
  rw [length, hids, List.length_erase_of_mem (mem_ids.2 hid), length]

end Unlink

section Push

/-- The stream with a node behind all others. -/
def push (s : CodeStream) (node : Node) : CodeStream := { s with nodes := s.nodes.push node }

variable {node : Node} (hlive : node.live)

@[simp]
theorem size_push : (s.push node).nodes.size = s.nodes.size + 1 := by simp [push]

include hlive

theorem isLive_push : (s.push node).isLive n ↔ s.isLive n ∨ n = s.nodes.size := by
  rw [isLive, push, Array.getElem?_push]
  by_cases heq : n = s.nodes.size
  · simp [heq, hlive]
  · simp [heq, isLive]

theorem clear_push : (s.push node).Clear low high ↔
    s.Clear low high ∧ ¬ (low ≤ s.nodes.size ∧ s.nodes.size < high) := by
  simp only [Clear, isLive_push hlive, not_or]
  grind

/-- A new node comes behind the one that was last, and all other pairs stay. -/
theorem adjacent_push : (s.push node).Adjacent n t ↔
    s.Adjacent n t ∨ s.IsLast n ∧ t = s.nodes.size := by
  have hsize := @lt_size_of_isLive s
  simp only [Adjacent, IsLast, isLive_push hlive, clear_push hlive]
  grind

/-- A new node is first only where nothing was alive. -/
theorem isFirst_push : (s.push node).IsFirst n ↔
    s.IsFirst n ∨ s.Clear 0 s.nodes.size ∧ n = s.nodes.size := by
  have hsize := @lt_size_of_isLive s
  simp only [IsFirst, isLive_push hlive, clear_push hlive]
  grind

theorem isLast_push : (s.push node).IsLast n ↔ n = s.nodes.size := by
  have hsize := @lt_size_of_isLive s
  have hclear : s.Clear (s.nodes.size + 1) (s.nodes.size + 1) := fun k h₁ h₂ => by omega
  simp only [IsLast, isLive_push hlive, clear_push hlive, size_push]
  grind

theorem length_push : (s.push node).length = s.length + 1 := by
  have hids : (s.push node).ids = s.ids ++ [s.nodes.size] := by
    rw [ids, size_push, List.range_succ, List.filter_append, ids]
    congr 1
    · refine List.filter_congr fun n hn => ?_
      rw [Bool.eq_iff_iff, isLive_push hlive]
      have := List.mem_range.1 hn
      simp only [or_iff_left_iff_imp]
      omega
    · simp [(isLive_push hlive).2 (.inr rfl)]
  rw [length, hids, List.length_append, length, List.length_singleton]

omit hlive in
theorem foldl_push (nodes : List Node) :
    nodes.foldl push s = { s with nodes := s.nodes ++ nodes } := by
  induction nodes generalizing s with
  | nil => simp
  | cons node nodes ih =>
      rw [List.foldl_cons, ih]
      simp [push]

end Push

end JvmOptimizer.CodeStream
