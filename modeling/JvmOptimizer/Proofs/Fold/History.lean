import JvmOptimizer.Proofs.Fold.Run
import JvmOptimizer.Proofs.Loops

/-!
# What becomes of a node

The walk looks back only through the simulated stack: once a node is neither on
the stack nor still to be visited, it is **retired**, and whether it is live is
settled for good. So is its instruction, if that names no targets. What a
transfer of control knew about the variables is remembered until its target is
reached, and the target of a transfer that stays is never deleted before.
-/

namespace JvmOptimizer.Fold

open Machine CodeStream

namespace Trimmed

variable {m : Method} {i : Nat} {s : CodeStream}

/-- Nodes keep their positions, so these ascend. -/
theorem isAscending (h : Trimmed m i s) : s.IsAscending := by
  intro n t hn ht hnt
  rwa [h.position (h.lt_length hn), h.position (h.lt_length ht)]

/-- The tail of a loop of the method has not moved. -/
theorem last_le {e : LoopExtent} (h : Trimmed m i s) (he : e ∈ (CodeStream.whole m).loops) :
    e.last ≤ s.position e.tail := by
  obtain ⟨head, tail, htail, -, -, rfl⟩ := mem_loops_iff.1 he
  rw [isLive_whole] at htail
  exact (position_whole htail).le.trans (h.position htail).ge

end Trimmed

namespace Run

variable {m : Method} (R : Run m) {i j n t k : Nat} {insn : Instruction Nat}

/-- The walk comes to the node. -/
def Visited (n : Nat) : Prop := (R.before n).stream.isLive n

/-- The state in front of a node has the node's value on its stack, and may still
use it. -/
def Pending (i k : Nat) : Prop := (R.before i).reachable ∧ Pushed (R.before i).stack k

@[simp]
theorem stream_arrival : (R.arrival i).stream = (R.before i).stream := stream_enter

theorem sound_arrival (h : i ≤ m.code.length) : Sound m i (R.arrival i) := (R.sound h).enter

theorem reachable_arrival : (R.arrival i).reachable := Sound.reachable_enter

/-! ### Liveness -/

/-- A node that is live at some point of the run was so at all points before. -/
theorem isLive_of_le (hij : i ≤ j) (hj : j ≤ m.code.length)
    (h : (R.before j).stream.isLive n) : (R.before i).stream.isLive n := by
  induction hij with
  | refl => exact h
  | @step j hij ih =>
      refine ih (by omega) ?_
      by_cases hlive : (R.before j).stream.isLive j
      · obtain ⟨insn, hx⟩ := R.exists_instruction hlive
        have := (R.visit hj hlive hx).isLive_of_isLive h
        rwa [stream_enter] at this
      · rwa [R.pass hlive] at h

theorem isLive_of_final (hi : i ≤ m.code.length) (h : R.final.isLive n) :
    (R.before i).stream.isLive n :=
  R.isLive_of_le hi le_rfl h

theorem visited_zero (h : 0 < m.code.length) : R.Visited 0 := by
  rw [Visited, R.start]
  exact isLive_whole.2 h

/-- What is pending on arrival was pending before. -/
theorem pending_of_pushed_arrival (h : Pushed (R.arrival i).stack k) : R.Pending i k := by
  unfold arrival State.enter at h
  split at h
  · exact absurd h not_pushed_nil
  · rename_i hmerge
    simp only [State.isMerge, Bool.or_eq_true, Bool.not_eq_true', not_or] at hmerge
    exact ⟨by simpa using hmerge.2, h⟩

/-- **A retired node keeps its fate.** -/
theorem retired (hki : k < i) (hp : ¬ R.Pending i k) (hij : i ≤ j) (hj : j ≤ m.code.length) :
    ¬ R.Pending j k ∧ ((R.before j).stream.isLive k ↔ (R.before i).stream.isLive k) := by
  induction hij with
  | refl => exact ⟨hp, Iff.rfl⟩
  | @step j hij ih =>
      have hle : i ≤ j := hij
      obtain ⟨hnp, hiff⟩ := ih (by omega)
      by_cases hlive : (R.before j).stream.isLive j
      · obtain ⟨insn, hx⟩ := R.exists_instruction hlive
        have hv := R.visit hj hlive hx
        have hnot : ¬ Pushed (R.arrival j).stack k :=
          fun h => hnp (R.pending_of_pushed_arrival h)
        have hstream : (R.arrival j).stream = (R.before j).stream := R.stream_arrival
        constructor
        · rintro ⟨-, hpushed⟩
          rcases hv.pushed hpushed with h | rfl
          · exact hnot h
          · omega
        · rw [← hiff]
          constructor
          · intro h
            exact hstream ▸ hv.isLive_of_isLive h
          · intro h
            exact hv.isLive_of_not_pushed (hstream ▸ h) (by omega) hnot
      · unfold Pending at hnp ⊢
        rw [R.pass hlive]
        exact ⟨hnp, hiff⟩

/-- The fate of a node that no value on the stack belongs to any more is decided.
-/
theorem isLive_final_iff (hki : k < i) (hp : ¬ R.Pending i k) (hi : i ≤ m.code.length) :
    R.final.isLive k ↔ (R.before i).stream.isLive k :=
  (R.retired hki hp hi le_rfl).2

/-! ### Instructions -/

/-- A visit changes the instruction of another node only in its targets. -/
theorem instruction_of_visit {σ σ' : State} {x : Instruction Nat}
    (h : Visit σ i x σ') (hn : n ≠ i) (hi : σ.stream.instruction? n = some insn)
    (ht : insn.targets = []) : σ'.stream.instruction? n = some insn := by
  cases h with
  | propagate hv => rw [instruction?_replace_of_ne hn, hi]
  | condense hc hk he hd =>
      rw [instruction?_replace_of_ne hn]
      exact instruction?_deleteAll hd hi ht
  | pass hk he hd => exact instruction?_deleteAll hd hi ht
  | take hk he hp hr hd =>
      refine instruction?_deleteAll hd ?_ ht
      rw [instruction?_deleteRange hr, hi]
  | skip hp hr => rw [instruction?_deleteRange hr, hi]
  | _ => exact hi

/-- An instruction without targets is not changed after its visit. -/
theorem instruction_of_le (hni : n < i) (hx : (R.before i).stream.instruction? n = some insn)
    (ht : insn.targets = []) (hij : i ≤ j) (hj : j ≤ m.code.length) :
    (R.before j).stream.instruction? n = some insn := by
  induction hij with
  | refl => exact hx
  | @step j hij ih =>
      have hle : i ≤ j := hij
      have hbefore := ih (by omega)
      by_cases hlive : (R.before j).stream.isLive j
      · obtain ⟨x, hx⟩ := R.exists_instruction hlive
        refine instruction_of_visit (R.visit hj hlive hx) (by omega) ?_ ht
        rwa [stream_enter]
      · rwa [R.pass hlive]

/-! ### Where paths merge -/

theorem stack_arrival_of_merge (h : (R.before i).isMerge i) :
    (R.arrival i).stack = [] ∧ (R.arrival i).floor = true := by
  unfold arrival State.enter
  rw [if_pos h]
  exact ⟨rfl, rfl⟩

theorem locals_arrival_of_merge (h : (R.before i).isMerge i) :
    (R.arrival i).locals = (R.before i).mergedLocals (whole m).loops i := by
  unfold arrival State.enter
  rw [if_pos h]

theorem arrival_of_not_merge (h : ¬ (R.before i).isMerge i) : R.arrival i = R.before i := by
  unfold arrival State.enter
  rw [if_neg h]

/-- Merging only forgets. -/
theorem mergedLocals_subset (hi : i ≤ m.code.length) {l : Locals}
    (hl : l ∈ (R.before i).incoming i) :
    ((R.before i).mergedLocals (whole m).loops i).entries ⊆ l.entries := by
  intro e he
  obtain ⟨hmerged, -⟩ := (R.sound hi).mem_mergedLocals.1 he
  split at hmerged
  · cases hmerged
  · exact Locals.mem_of_mem_meet hmerged hl

/-- **A transfer that stays** leads to a node that the walk comes to, and paths
merge there. -/
theorem visited_of_target (hn : R.final.isLive n) (hi : m.code[n]? = some insn)
    (ht : t ∈ insn.targets) : R.Visited t ∧ (t ≠ n → (R.before t).isMerge t) := by
  have hlt : t < m.code.length := R.closed.target (List.mem_of_getElem? hi) ht
  have htrim := (R.sound hlt.le).trimmed
  have hlive := R.isLive_of_final hlt.le hn
  have hvisited : (R.before t).stream.isLive t := htrim.target hlive hi ht le_rfl
  refine ⟨hvisited, fun hne => ?_⟩
  rw [State.isMerge, Bool.or_eq_true]
  refine .inl (isTargeted_iff.2 (.inr ⟨n, hlive, hne.symm, ?_⟩))
  rw [htrim.thins.targets hlive hi]
  exact List.mem_map.2 ⟨t, ht, ahead_of_isLive hvisited⟩

/-- **The handler of a node that stays** is visited knowing nothing. -/
theorem visited_of_handler {h : Handler} (hn : R.final.isLive n) (hmem : h ∈ m.handlers)
    (hle : h.start ≤ n) (hlt : n < h.stop) :
    R.Visited h.entry ∧ (R.arrival h.entry).stack = [] ∧ (R.arrival h.entry).floor = true ∧
      (R.arrival h.entry).locals.entries = [] := by
  have hentry := (R.closed.handler hmem).2
  have htrim := (R.sound hentry.le).trimmed
  have hlive := R.isLive_of_final hentry.le hn
  have hvisited : (R.before h.entry).stream.isLive h.entry :=
    htrim.entry hmem hlive hle hlt le_rfl
  have hhandler : (R.before h.entry).stream.isHandlerEntry h.entry := by
    rw [isHandlerEntry_iff]
    exact ⟨_, (htrim.thins.holds_of_covers hmem hlive hle hlt).1, ahead_of_isLive hvisited⟩
  have hmerge : (R.before h.entry).isMerge h.entry := by
    rw [State.isMerge, Bool.or_eq_true]
    exact .inl (isTargeted_iff.2 (.inl hhandler))
  obtain ⟨hstack, hfloor⟩ := R.stack_arrival_of_merge hmerge
  refine ⟨hvisited, hstack, hfloor, List.eq_nil_iff_forall_not_mem.2 fun e he => ?_⟩
  rw [R.locals_arrival_of_merge hmerge, (R.sound hentry.le).mem_mergedLocals,
    if_pos hhandler] at he
  cases he.1

/-! ### Remembered transfers -/

/-- A forward transfer that stays tells its target what is known when it is taken.
-/
theorem edges_of_visit {σ σ' : State} {x : Instruction Nat} (h : Visit σ n x σ')
    (hn : σ'.stream.isLive n) (ht : t ∈ x.targets) (hf : σ.stream.isForward n t) :
    (t, σ.locals) ∈ σ'.edges := by
  have hmem : ∀ {targets : List Nat}, t ∈ targets → (t, σ.locals) ∈ σ.withEdges n targets := by
    intro targets ht
    exact List.mem_append_right _ (List.mem_map.2 ⟨t, List.mem_filter.2 ⟨ht, hf⟩, rfl⟩)
  cases h with
  | compute hc | condense hc =>
      rw [targets_of_computation? hc] at ht
      cases ht
  | branch | jump | switch => exact hmem ht
  | pass hk he hd =>
      rw [isLive_deleteAll hd] at hn
      simp at hn
  | take hk he hp hr hd =>
      have hle := (isLive_of_deleteRange hr).2.2
      rw [isLive_deleteAll hd, isLive_deleteRange hr] at hn
      exact absurd ⟨le_rfl, hle⟩ hn.1.2
  | skip hp hr =>
      have hle := (isLive_of_deleteRange hr).2.2
      rw [isLive_deleteRange hr] at hn
      exact absurd ⟨le_rfl, hle⟩ hn.2
  | _ => simp [Instruction.targets] at ht

theorem edges_subset_of_visit {σ σ' : State} {x : Instruction Nat} (h : Visit σ n x σ') :
    σ.edges ⊆ σ'.edges := by
  cases h with
  | branch | jump | switch => exact List.subset_append_left _ _
  | _ => exact List.Subset.refl _

theorem mem_edges_arrival {l : Locals} (ht : t ≠ i) (h : (t, l) ∈ (R.before i).edges) :
    (t, l) ∈ (R.arrival i).edges := by
  unfold arrival State.enter
  split
  · exact List.mem_filter.2 ⟨h, by simpa using ht⟩
  · exact h

/-- What a transfer knew is remembered until its target is reached. -/
theorem mem_edges (hn : R.final.isLive n) (hi : m.code[n]? = some insn) (ht : t ∈ insn.targets)
    (hnj : n < j) (hjt : j ≤ t) : (t, (R.arrival n).locals) ∈ (R.before j).edges := by
  have htl : t < m.code.length := R.closed.target (List.mem_of_getElem? hi) ht
  induction hnj with
  | refl =>
      have hlive := R.isLive_of_final (by omega : n ≤ m.code.length) hn
      have hs := R.sound (by omega : n ≤ m.code.length)
      have hx := hs.trimmed.instruction le_rfl hlive hi
      have hstream : (R.arrival n).stream = (R.before n).stream := R.stream_arrival
      have htarget : (R.before n).stream.ahead t = t :=
        ahead_of_isLive (hs.isLive_of_le hlive (by omega) htl)
      refine edges_of_visit (R.visit (by omega) hlive hx) (R.isLive_of_final (by omega) hn) ?_ ?_
      · rw [Instruction.targets_mapTargets]
        exact List.mem_map.2 ⟨t, ht, htarget⟩
      · rw [isForward, hstream, hs.trimmed.position (by omega), hs.trimmed.position htl]
        exact decide_eq_true hjt
  | @step j hnj ih =>
      have hbefore := ih (by omega)
      by_cases hlive : (R.before j).stream.isLive j
      · obtain ⟨x, hx⟩ := R.exists_instruction hlive
        exact edges_subset_of_visit (R.visit (by omega) hlive hx)
          (R.mem_edges_arrival (by omega) hbefore)
      · rwa [R.pass hlive]

/-- **A forward transfer that stays** knows all that is known at its target. -/
theorem locals_of_target (hn : R.final.isLive n) (hi : m.code[n]? = some insn)
    (ht : t ∈ insn.targets) (hnt : n < t) :
    (R.arrival t).locals.entries ⊆ (R.arrival n).locals.entries := by
  have htl : t < m.code.length := R.closed.target (List.mem_of_getElem? hi) ht
  rw [R.locals_arrival_of_merge ((R.visited_of_target hn hi ht).2 (by omega))]
  refine R.mergedLocals_subset htl.le (List.mem_append_right _ (List.mem_map.2 ⟨_,
    List.mem_filter.2 ⟨R.mem_edges hn hi ht hnt le_rfl, ?_⟩, rfl⟩))
  exact beq_self_eq_true t

/-! ### Loops -/

/-- Every backward transfer of the method makes a loop. -/
theorem mem_loops {head tail : Nat} (hi : m.code[tail]? = some insn) (ht : head ∈ insn.targets)
    (hle : head ≤ tail) : ⟨head, tail, head, tail⟩ ∈ (whole m).loops := by
  have htail := (List.getElem?_eq_some_iff.1 hi).1
  have hhead : head < m.code.length := by omega
  have ht : head ∈ (whole m).targets tail := by
    rwa [targets_of_instruction? (by rw [instruction?_whole, hi])]
  refine mem_loops_iff.2 ⟨head, tail, isLive_whole.2 htail, ht, ?_⟩
  rw [position_whole htail, position_whole hhead]
  exact ⟨hle, rfl⟩

/-- **At the head of a loop** nothing is known about what the loop writes. -/
theorem avoids_of_loop {head tail : Nat} {x : Instruction Nat} {e : Nat × Value} {slot : Nat}
    (hv : R.Visited head) (hi : m.code[tail]? = some insn) (ht : head ∈ insn.targets)
    (hle : head ≤ k) (hlt : k < tail) (hk : m.code[k]? = some x) (hslot : slot ∈ x.writtenSlots)
    (he : e ∈ (R.arrival head).locals.entries) : Locals.Avoids e slot := by
  have htail := (List.getElem?_eq_some_iff.1 hi).1
  have hs := R.sound (by omega : head ≤ m.code.length)
  have hlive : ∀ {n}, head ≤ n → n < m.code.length → (R.before head).stream.isLive n :=
    fun h₁ h₂ => hs.isLive_of_le hv h₁ h₂
  have hmerge : (R.before head).isMerge head := by
    rw [State.isMerge, Bool.or_eq_true]
    refine .inl (isTargeted_iff.2 (.inr ⟨tail, hlive (by omega) htail, by omega, ?_⟩))
    rw [hs.trimmed.thins.targets (hlive (by omega) htail) hi]
    exact List.mem_map.2 ⟨head, ht, ahead_of_isLive hv⟩
  rw [R.locals_arrival_of_merge hmerge, hs.mem_mergedLocals] at he
  have hloop := mem_loops hi ht (by omega)
  refine he.2 (List.any_eq_true.2 ⟨_, hloop, beq_self_eq_true head⟩) slot ?_
  rw [mem_changedAtHead hs.trimmed.isAscending hv fun e => hs.trimmed.last_le]
  refine ⟨_, hloop, rfl, k, _, hlive hle (by omega), ?_, ?_,
    hs.trimmed.instruction hle (hlive hle (by omega)) hk, ?_⟩
  · rwa [hs.trimmed.position (by omega), hs.trimmed.position (by omega)]
  · rwa [hs.trimmed.position (by omega)]
  · rwa [← Instruction.mem_writtenSlots, Instruction.writtenSlots_mapTargets]

end Run

end JvmOptimizer.Fold
