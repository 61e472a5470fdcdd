import JvmOptimizer.Proofs.CodeStream.Neighbours
import JvmOptimizer.Proofs.Instruction

/-!
# What an edit does to a code stream

Each primitive is described once by its effect on the views of a stream: which
nodes are live, what their instructions and positions are, and who handles
exceptions. Nothing behind this module looks at the arena of nodes again.
-/

namespace JvmOptimizer.CodeStream

variable {s s' : CodeStream} {n t id old new : Nat} {insn : Instruction Nat}

/-! ### Unlinking -/

@[simp]
theorem size_unlink : (s.unlink id).nodes.size = s.nodes.size := by simp [unlink]

@[simp]
theorem handlers_unlink : (s.unlink id).handlers = s.handlers := rfl

theorem isLive_unlink : (s.unlink id).isLive n = (s.isLive n && n != id) := by
  by_cases hn : n < s.nodes.size
  · by_cases hid : id = n <;> simp [isLive, unlink, Array.getElem_modify, hn, hid]
    intro _ h
    exact hid h.symm
  · simp [isLive, unlink, hn]

/-- A dead node keeps its instruction: it is only marked. -/
@[simp]
theorem instruction?_unlink : (s.unlink id).instruction? n = s.instruction? n := by
  by_cases hn : n < s.nodes.size
  · by_cases hid : id = n <;> simp [instruction?, unlink, Array.getElem_modify, hn, hid]
  · simp [instruction?, unlink, hn]

@[simp]
theorem position_unlink : (s.unlink id).position n = s.position n := by
  by_cases hn : n < s.nodes.size
  · by_cases hid : id = n <;> simp [position, unlink, Array.getElem_modify, hn, hid]
  · simp [position, unlink, hn]

/-! ### Replacing -/

@[simp]
theorem size_replace : (s.replace id insn).nodes.size = s.nodes.size := by simp [replace]

@[simp]
theorem handlers_replace : (s.replace id insn).handlers = s.handlers := rfl

@[simp]
theorem isLive_replace : (s.replace id insn).isLive n = s.isLive n := by
  by_cases hn : n < s.nodes.size
  · by_cases hid : id = n <;> simp [isLive, replace, Array.getElem_modify, hn, hid]
  · simp [isLive, replace, hn]

@[simp]
theorem position_replace : (s.replace id insn).position n = s.position n := by
  by_cases hn : n < s.nodes.size
  · by_cases hid : id = n <;> simp [position, replace, Array.getElem_modify, hn, hid]
  · simp [position, replace, hn]

theorem instruction?_replace_self (h : id < s.nodes.size) :
    (s.replace id insn).instruction? id = some insn := by
  simp [instruction?, replace, Array.getElem_modify, h]

theorem instruction?_replace_of_ne (h : n ≠ id) :
    (s.replace id insn).instruction? n = s.instruction? n := by
  by_cases hn : n < s.nodes.size
  · simp [instruction?, replace, Array.getElem_modify, hn, h.symm]
  · simp [instruction?, replace, hn]

@[simp]
theorem ahead_replace : (s.replace id insn).ahead t = s.ahead t :=
  ahead_congr size_replace fun _ => isLive_replace

/-! ### Redirecting -/

@[simp]
theorem size_redirect : (s.redirect old new).nodes.size = s.nodes.size := by simp [redirect]

@[simp]
theorem isLive_redirect : (s.redirect old new).isLive n = s.isLive n := by
  by_cases hn : n < s.nodes.size
  · simp only [isLive, redirect, Array.getElem?_mapIdx, hn, Array.getElem?_eq_getElem,
      Option.map_some, Option.getD_some]
    split <;> rfl
  · simp [isLive, redirect, hn]

@[simp]
theorem position_redirect : (s.redirect old new).position n = s.position n := by
  by_cases hn : n < s.nodes.size
  · simp only [position, redirect, Array.getElem?_mapIdx, hn, Array.getElem?_eq_getElem,
      Option.map_some, Option.getD_some]
    split <;> rfl
  · simp [position, redirect, hn]

/-- Only live nodes other than the one that goes get new targets. -/
theorem instruction?_redirect (hn : s.isLive n) (hne : n ≠ old) :
    (s.redirect old new).instruction? n = (s.instruction? n).map (·.retarget old new) := by
  have hlt := lt_size_of_isLive hn
  have hlive : s.nodes[n].live = true := by simpa [isLive, hlt] using hn
  simp [instruction?, redirect, hlt, hlive, hne]

theorem instruction?_redirect_of_not (h : ¬ (s.isLive n ∧ n ≠ old)) :
    (s.redirect old new).instruction? n = s.instruction? n := by
  by_cases hlt : n < s.nodes.size
  · have hlive : ¬ (s.nodes[n].live = true ∧ n ≠ old) := by simpa [isLive, hlt] using h
    simp only [instruction?, redirect, Array.getElem?_mapIdx, hlt, Array.getElem?_eq_getElem,
      Option.map_some, if_neg hlive]
  · simp [instruction?, redirect, hlt]

/-! ### Renumbering -/

/-- The number of live nodes in front of a place. -/
def rank (s : CodeStream) (place : Nat) : Nat := (List.range place).countP s.isLive

/-- Ranks count live nodes one by one. -/
theorem rank_succ (s : CodeStream) (n : Nat) :
    s.rank (n + 1) = s.rank n + if s.isLive n then 1 else 0 := by
  simp [rank, List.range_succ, List.countP_append, List.countP_cons]

theorem rank_mono (h : n ≤ t) : s.rank n ≤ s.rank t := by
  induction h with
  | refl => exact le_rfl
  | step _ ih =>
      rw [rank_succ]
      omega

/-- A live node counts for everything behind it. -/
theorem rank_lt_rank (hn : s.isLive n) (h : n < t) : s.rank n < s.rank t := by
  have hs := rank_succ s n
  have hm : s.rank (n + 1) ≤ s.rank t := rank_mono h
  rw [if_pos hn] at hs
  omega

/-- Dead nodes do not count. -/
theorem rank_eq_of_dead (hnt : n ≤ t) (hdead : ∀ k, n ≤ k → k < t → ¬ s.isLive k) :
    s.rank n = s.rank t := by
  induction hnt with
  | refl => rfl
  | @step t hnt ih =>
      rw [ih fun k hk₁ hk₂ => hdead k hk₁ (by omega), rank_succ,
        if_neg (hdead t hnt (by omega))]
      rfl

/-- A place and what is ahead of it have the same rank. -/
theorem rank_ahead (ht : t ≤ s.nodes.size) : s.rank (s.ahead t) = s.rank t :=
  (rank_eq_of_dead (le_ahead ht) fun _ => not_isLive_of_lt_ahead).symm

theorem length_numberFrom (k : Nat) (l : List Node) : (numberFrom k l).length = l.length := by
  induction l generalizing k with
  | nil => rfl
  | cons node l ih =>
      rw [numberFrom]
      split <;> simp [ih]

/-- Renumbering changes the positions of live nodes only: they are counted. -/
theorem getElem?_numberFrom (k : Nat) (l : List Node) (n : Nat) :
    (numberFrom k l)[n]? = l[n]?.map fun node =>
      if node.live then { node with position := k + (l.take n).countP (·.live) } else node := by
  induction l generalizing k n with
  | nil => simp [numberFrom]
  | cons node l ih =>
      rw [numberFrom]
      cases n with
      | zero => split <;> simp_all
      | succ n =>
          split
          · rename_i h
            simp only [List.getElem?_cons_succ, ih, List.take_succ_cons, List.countP_cons, h,
              if_true]
            congr 1
            funext x
            split
            · simp only [Node.mk.injEq, true_and, and_true]
              omega
            · rfl
          · rename_i h
            simp only [List.getElem?_cons_succ, ih, List.take_succ_cons, List.countP_cons, h,
              Bool.false_eq_true, if_false, Nat.add_zero]

@[simp]
theorem size_renumber : s.renumber.nodes.size = s.nodes.size := by
  simp [renumber, length_numberFrom]

@[simp]
theorem handlers_renumber : s.renumber.handlers = s.handlers := rfl

/-- Renumbering gives each live node its rank as its position; dead nodes keep the
one that they had. -/
theorem getElem?_renumber (s : CodeStream) (n : Nat) :
    s.renumber.nodes[n]? = s.nodes[n]?.map fun node =>
      if node.live then
        { node with position := (s.nodes.toList.take n).countP (·.live) }
      else node := by
  simp [renumber, getElem?_numberFrom]

@[simp]
theorem isLive_renumber : s.renumber.isLive n = s.isLive n := by
  rw [isLive, getElem?_renumber, isLive]
  cases s.nodes[n]? with
  | none => rfl
  | some node =>
      simp only [Option.map_some, Option.getD_some]
      split <;> simp_all

@[simp]
theorem instruction?_renumber : s.renumber.instruction? n = s.instruction? n := by
  rw [instruction?, getElem?_renumber, instruction?]
  cases s.nodes[n]? with
  | none => rfl
  | some node =>
      simp only [Option.map_some]
      split <;> rfl

@[simp]
theorem ahead_renumber : s.renumber.ahead t = s.ahead t :=
  ahead_congr size_renumber fun _ => isLive_renumber

/-- The counter of the loop is the rank. -/
theorem countP_take_eq_rank (h : n ≤ s.nodes.size) :
    (s.nodes.toList.take n).countP (·.live) = s.rank n := by
  induction n with
  | zero => simp [rank]
  | succ n ih =>
      have hn : n < s.nodes.size := h
      rw [rank_succ, List.take_add_one, List.countP_append, ih (by omega)]
      simp [isLive, hn, List.countP_cons]

/-- A live node is numbered by the live nodes in front of it. -/
theorem position_renumber (h : s.isLive n) : s.renumber.position n = s.rank n := by
  have hlt := lt_size_of_isLive h
  have hlive : s.nodes[n].live = true := by simpa [isLive, hlt] using h
  rw [position, getElem?_renumber]
  simp only [hlt, Array.getElem?_eq_getElem, Option.map_some, hlive, if_true, Option.getD_some]
  exact countP_take_eq_rank hlt.le

/-! ### Deleting one node -/

/-- What leads to `old` leads to `new` instead. -/
def moved (old new t : Nat) : Nat := if t = old then new else t

theorem moved_of_ne (h : t ≠ old) : moved old new t = t := if_neg h

@[simp]
theorem moved_self : moved old new old = new := if_pos rfl

/-- The ways in which a live node is deleted: it hands its references over to
the node behind it, or it is the last one and nothing refers to it. -/
theorem deleteOne_eq_ok_iff (hid : s.isLive id) : s.deleteOne id = .ok s' ↔
    (s.ahead (id + 1) < s.nodes.size ∧ s' = (s.redirect id (s.ahead (id + 1))).unlink id) ∨
    (s.ahead (id + 1) = s.nodes.size ∧ ¬ s.isTargeted id ∧
      s' = { s with handlers := s.handlersWithoutLast id }.unlink id) := by
  rw [deleteOne, if_neg (by simp [hid])]
  cases hn : s.next? id with
  | some succ =>
      obtain ⟨-, rfl, hlt⟩ := next?_eq_some_iff.1 hn
      simp only [Except.ok.injEq]
      constructor
      · rintro rfl
        exact .inl ⟨hlt, rfl⟩
      · rintro (⟨-, rfl⟩ | ⟨heq, -⟩)
        · rfl
        · omega
  | none =>
      have heq := (next?_eq_none_iff hid).1 hn
      simp only [heq, lt_self_iff_false, false_and, true_and, false_or]
      split
      · simp_all
      · rename_i ht
        simp only [Except.ok.injEq, ht, Bool.false_eq_true, not_false_eq_true, true_and]
        exact eq_comm

/-- A dead node is not deleted again. -/
theorem deleteOne_of_not_isLive (h : ¬ s.isLive id) : s.deleteOne id = .ok s := by
  simp [deleteOne, h]

section DeleteOne

variable (h : s.deleteOne id = .ok s') (hid : s.isLive id)

include h hid

theorem size_deleteOne : s'.nodes.size = s.nodes.size := by
  rcases (deleteOne_eq_ok_iff hid).1 h with ⟨-, rfl⟩ | ⟨-, -, rfl⟩ <;> simp

/-- Deleting one node kills this one only. -/
theorem isLive_deleteOne : s'.isLive n = (s.isLive n && n != id) := by
  rcases (deleteOne_eq_ok_iff hid).1 h with ⟨-, rfl⟩ | ⟨-, -, rfl⟩
  · rw [isLive_unlink, isLive_redirect]
  · rw [isLive_unlink]
    rfl

theorem position_deleteOne : s'.position n = s.position n := by
  rcases (deleteOne_eq_ok_iff hid).1 h with ⟨-, rfl⟩ | ⟨-, -, rfl⟩
  · rw [position_unlink, position_redirect]
  · rw [position_unlink]
    rfl

/-- What led to the node now leads to the next live one behind it. -/
theorem ahead_deleteOne : s'.ahead t = moved id (s.ahead (id + 1)) (s.ahead t) :=
  ahead_of_dies (size_deleteOne h hid) (fun _ => isLive_deleteOne h hid) hid

/-- Every other live instruction follows: a target that was the node is now the
one behind it. -/
theorem instruction?_deleteOne (hn : s.isLive n) (hne : n ≠ id) :
    s'.instruction? n = (s.instruction? n).map (·.mapTargets (moved id (s.ahead (id + 1)))) := by
  rcases (deleteOne_eq_ok_iff hid).1 h with ⟨-, rfl⟩ | ⟨-, ht, rfl⟩
  · rw [instruction?_unlink, instruction?_redirect hn hne]
    rfl
  · rw [instruction?_unlink]
    change s.instruction? n = _
    cases hi : s.instruction? n with
    | none => rfl
    | some insn =>
        rw [Option.map_some, Instruction.mapTargets_eq_self]
        intro t hmem
        apply moved_of_ne
        rintro rfl
        exact ht (isTargeted_iff.2 (.inr ⟨n, hn, hne, by rwa [targets_of_instruction? hi]⟩))

/-- Only what is left is handed over to the node behind. -/
theorem instruction?_deleteOne_of_not (hn : ¬ (s.isLive n ∧ n ≠ id)) :
    s'.instruction? n = s.instruction? n := by
  rcases (deleteOne_eq_ok_iff hid).1 h with ⟨-, rfl⟩ | ⟨-, -, rfl⟩
  · rw [instruction?_unlink, instruction?_redirect_of_not hn]
  · rw [instruction?_unlink]
    rfl

/-- An instruction without targets stays as it is, that of a dead node too. -/
theorem instruction?_deleteOne_of_targets (hi : s.instruction? n = some insn)
    (ht : insn.targets = []) : s'.instruction? n = some insn := by
  by_cases hn : s.isLive n ∧ n ≠ id
  · rw [instruction?_deleteOne h hid hn.1 hn.2, hi, Option.map_some,
      Instruction.mapTargets_of_targets_eq_nil ht]
  · rw [instruction?_deleteOne_of_not h hid hn, hi]

end DeleteOne

/-! ### Deleting a run -/

/-- A run is deleted if the stream leads from its first node to its last, and
nothing outside refers to a node of it. -/
theorem deleteRange_eq_ok_iff {first last count : Nat} :
    s.deleteRange first last = .ok (count, s') ↔
      ∃ members, s.run? first last = some members ∧ s.referenceInto? members = none ∧
        count = members.length ∧
        s' = members.foldl unlink
          { s with handlers := s.handlersWithout members (s.next? last) } := by
  rw [deleteRange]
  cases hr : s.run? first last with
  | none => simp
  | some members =>
      simp only [Option.some.injEq, exists_eq_left']
      cases hf : s.referenceInto? members with
      | some node => simp
      | none =>
          simp only [Except.ok.injEq, Prod.mk.injEq, true_and]
          exact and_congr eq_comm eq_comm

/-- A run is made of the live nodes between two live ones, ends included. -/
theorem run?_eq_some_iff {first last : Nat} {members : List Nat} :
    s.run? first last = some members ↔
      s.isLive first ∧ s.isLive last ∧ first ≤ last ∧
        members = s.ids.filter fun id => first ≤ id ∧ id ≤ last := by
  rw [run?]
  split
  · rename_i h
    simp only [Option.some.injEq, h, true_and]
    exact eq_comm
  · rename_i h
    simp only [reduceCtorEq, false_iff]
    rintro ⟨h₁, h₂, h₃, -⟩
    exact h ⟨h₁, h₂, h₃⟩

/-- No transfer from outside leads into the nodes that are to go, and no handler
enters there. A handler may start or stop there. -/
theorem referenceInto?_eq_none_iff {members : List Nat} :
    s.referenceInto? members = none ↔
      (∀ n t, s.isLive n → n ∉ members → t ∈ s.targets n → t ∉ members) ∧
        ∀ h ∈ s.handlers, h.entry ∉ members := by
  simp only [referenceInto?, List.find?_eq_none, List.mem_append, List.mem_flatMap,
    List.mem_filter, mem_ids, List.mem_map, decide_eq_true_eq]
  constructor
  · intro h
    exact ⟨fun n t hn hm ht => h t (.inl ⟨n, ⟨hn, hm⟩, ht⟩),
      fun r hr => h r.entry (.inr ⟨r, hr, rfl⟩)⟩
  · rintro ⟨h₁, h₂⟩ t (⟨n, ⟨hn, hm⟩, ht⟩ | ⟨r, hr, rfl⟩)
    · exact h₁ n t hn hm ht
    · exact h₂ r hr

section Unlinks

variable (ids : List Nat)

@[simp]
theorem size_foldl_unlink : (ids.foldl unlink s).nodes.size = s.nodes.size := by
  induction ids generalizing s with
  | nil => rfl
  | cons id ids ih => rw [List.foldl_cons, ih, size_unlink]

@[simp]
theorem handlers_foldl_unlink : (ids.foldl unlink s).handlers = s.handlers := by
  induction ids generalizing s with
  | nil => rfl
  | cons id ids ih => rw [List.foldl_cons, ih, handlers_unlink]

theorem isLive_foldl_unlink : (ids.foldl unlink s).isLive n = (s.isLive n && n ∉ ids) := by
  induction ids generalizing s with
  | nil => simp
  | cons id ids ih =>
      rw [List.foldl_cons, ih, isLive_unlink]
      by_cases hn : n = id
      · simp [hn]
      · have hne : (n != id) = true := bne_iff_ne.2 hn
        simp [hn, hne]

@[simp]
theorem instruction?_foldl_unlink : (ids.foldl unlink s).instruction? n = s.instruction? n := by
  induction ids generalizing s with
  | nil => rfl
  | cons id ids ih => rw [List.foldl_cons, ih, instruction?_unlink]

@[simp]
theorem position_foldl_unlink : (ids.foldl unlink s).position n = s.position n := by
  induction ids generalizing s with
  | nil => rfl
  | cons id ids ih => rw [List.foldl_cons, ih, position_unlink]

end Unlinks

section DeleteRange

variable {first last count : Nat} (h : s.deleteRange first last = .ok (count, s'))

include h

theorem isLive_of_deleteRange : s.isLive first ∧ s.isLive last ∧ first ≤ last := by
  obtain ⟨members, hr, -, -, -⟩ := deleteRange_eq_ok_iff.1 h
  obtain ⟨h₁, h₂, h₃, -⟩ := run?_eq_some_iff.1 hr
  exact ⟨h₁, h₂, h₃⟩

theorem size_deleteRange : s'.nodes.size = s.nodes.size := by
  obtain ⟨members, -, -, -, rfl⟩ := deleteRange_eq_ok_iff.1 h
  simp

/-- Exactly the nodes of the run are dead afterwards. -/
theorem isLive_deleteRange : s'.isLive n ↔ s.isLive n ∧ ¬ (first ≤ n ∧ n ≤ last) := by
  obtain ⟨members, hr, -, -, rfl⟩ := deleteRange_eq_ok_iff.1 h
  obtain ⟨-, -, -, rfl⟩ := run?_eq_some_iff.1 hr
  rw [isLive_foldl_unlink]
  change (s.isLive n && _) = true ↔ _
  simp only [Bool.and_eq_true, decide_eq_true_eq, List.mem_filter, mem_ids]
  exact and_congr_right fun hn => by simp only [hn, true_and]

theorem position_deleteRange : s'.position n = s.position n := by
  obtain ⟨members, -, -, -, rfl⟩ := deleteRange_eq_ok_iff.1 h
  rw [position_foldl_unlink]
  rfl

/-- No target has to be moved, since none from outside leads into the run. -/
theorem instruction?_deleteRange : s'.instruction? n = s.instruction? n := by
  obtain ⟨members, -, -, -, rfl⟩ := deleteRange_eq_ok_iff.1 h
  rw [instruction?_foldl_unlink]
  rfl

/-- Nothing that stays leads into the run. -/
theorem targets_deleteRange (hn : s'.isLive n) (ht : t ∈ s.targets n) (hl : s.isLive t) :
    s'.isLive t := by
  obtain ⟨members, hr, href, -, -⟩ := deleteRange_eq_ok_iff.1 h
  obtain ⟨-, -, -, rfl⟩ := run?_eq_some_iff.1 hr
  rw [isLive_deleteRange h] at hn ⊢
  simp only [referenceInto?_eq_none_iff, List.mem_filter, mem_ids, decide_eq_true_eq] at href
  exact ⟨hl, fun hin => href.1 n t hn.1 (fun h => hn.2 h.2) ht ⟨hl, hin⟩⟩

/-- No handler starts in the run. -/
theorem entry_deleteRange {r : HandlerRange} (hr : r ∈ s.handlers) (hl : s.isLive r.entry) :
    s'.isLive r.entry := by
  obtain ⟨members, hrun, href, -, -⟩ := deleteRange_eq_ok_iff.1 h
  obtain ⟨-, -, -, rfl⟩ := run?_eq_some_iff.1 hrun
  simp only [referenceInto?_eq_none_iff, List.mem_filter, mem_ids, decide_eq_true_eq] at href
  exact (isLive_deleteRange h).2 ⟨hl, fun hin => href.2 r hr ⟨hl, hin⟩⟩

/-- What led into the run leads behind it. -/
theorem ahead_deleteRange :
    s'.ahead t =
      if first ≤ s.ahead t ∧ s.ahead t ≤ last then s.ahead (last + 1) else s.ahead t := by
  obtain ⟨-, hlast, hle⟩ := isLive_of_deleteRange h
  have hlt := lt_size_of_isLive hlast
  have hsize := size_deleteRange h
  by_cases ht : t ≤ s.nodes.size
  · have hta := le_ahead ht
    -- Looking ahead from `t` either ends up in the run, and then goes on behind it, or is
    -- not touched by the deletion.
    split
    · rename_i hin
      have hnext : last + 1 ≤ s.ahead (last + 1) := le_ahead (by omega)
      refine ahead_eq (by omega) ?_ fun k htk hk => ?_
      · rw [isLive_deleteRange h, hsize]
        exact (s.isLive_ahead_or (last + 1)).imp_left fun hl => ⟨hl, by omega⟩
      · rw [isLive_deleteRange h]
        rintro ⟨hlive, hout⟩
        by_cases hka : k < s.ahead t
        · exact not_isLive_of_lt_ahead htk hka hlive
        · exact not_isLive_of_lt_ahead (by omega : last + 1 ≤ k) hk hlive
    · rename_i hout
      refine ahead_eq hta ?_ fun k htk hk => ?_
      · rw [isLive_deleteRange h, hsize]
        exact (s.isLive_ahead_or t).imp_left fun hl => ⟨hl, hout⟩
      · rw [isLive_deleteRange h]
        exact fun hlive => not_isLive_of_lt_ahead htk hk hlive.1
  · rw [ahead_eq_size_of_le (s := s') (by omega), ahead_eq_size_of_le (s := s) (by omega), hsize,
      if_neg (by omega)]

end DeleteRange

end JvmOptimizer.CodeStream
