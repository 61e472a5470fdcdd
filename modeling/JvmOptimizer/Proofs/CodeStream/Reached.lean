import JvmOptimizer.Proofs.CodeStream.Method

/-!
# What every sequence of edits keeps

Between a method and the stream that some edits make of it stand deletions,
renumberings and exchanged instructions, in any order and also where no pass
would make them. Whatever they are, the stream they reach names live nodes only,
so it has a method again, and its positions ascend.

Unlike `Thins`, this does not say what the stream still has to do with the
method: an exchanged instruction may name any live nodes.
-/

namespace JvmOptimizer.CodeStream

variable {s s' : CodeStream} {m : Method} {n t id : Nat} {insn : Instruction Nat}

/-! ### Edits -/

/-- An edit of a code stream. -/
inductive Edit where
  | deleteOne (id : Nat)
  | deleteRange (first last : Nat)
  | renumber
  | replace (id : Nat) (insn : Instruction Nat)

/-- The stream behind an edit. -/
def edit (s : CodeStream) : Edit → Except DanglingTarget CodeStream
  | .deleteOne id => s.deleteOne id
  | .deleteRange first last => (s.deleteRange first last).map (·.2)
  | .renumber => .ok s.renumber
  | .replace id insn => .ok (s.replace id insn)

/-- An instruction may take the place of another if it names live nodes. -/
def Edit.IsAllowed (s : CodeStream) : Edit → Prop
  | .replace _ insn => ∀ t ∈ insn.targets, s.isLive t
  | _ => True

/-- The streams that edits make of a method. An edit that fails leaves the
stream as it was. -/
inductive Reached (m : Method) : CodeStream → Prop
  | ofMethod {s : CodeStream} : CodeStream.ofMethod m = .ok s → Reached m s
  | edit {s s' : CodeStream} (e : Edit) :
      Reached m s → e.IsAllowed s → s.edit e = .ok s' → Reached m s'

/-- As an edit, a deletion forgets how many nodes went. -/
theorem edit_deleteRange_eq_ok_iff {first last : Nat} :
    s.edit (.deleteRange first last) = .ok s' ↔
      ∃ count, s.deleteRange first last = .ok (count, s') := by
  rw [edit]
  cases s.deleteRange first last with
  | error e => simp [Except.map]
  | ok r =>
      obtain ⟨count, t⟩ := r
      simp [Except.map]

/-! ### Names of live nodes -/

/-- What is handed over from a deleted node is a live node again. -/
theorem isLive_moved (hd : s.deleteOne id = .ok s') (hid : s.isLive id)
    (hnext : s.ahead (id + 1) < s.nodes.size) (ht : s.isLive t) :
    s'.isLive (moved id (s.ahead (id + 1)) t) := by
  have hlt := lt_size_of_isLive hid
  have hle : id + 1 ≤ s.ahead (id + 1) := le_ahead hlt
  rw [isLive_deleteOne hd hid]
  by_cases heq : t = id
  · subst heq
    simp only [moved_self, isLive_ahead hnext, Bool.true_and, bne_iff_ne]
    omega
  · simp [moved_of_ne heq, ht, heq]

/-- The handlers behind a deletion are old ones, with what named the node handed
over to the next; without a next one, only ranges up to the node change. -/
theorem mem_handlers_deleteOne (hd : s.deleteOne id = .ok s') (hid : s.isLive id)
    {r : HandlerRange} (hr : r ∈ s'.handlers) : ∃ r₀ ∈ s.handlers,
      (s.ahead (id + 1) < s.nodes.size ∧ r = r₀.redirect id (s.ahead (id + 1))) ∨
      (r₀.start ≠ id ∧ r₀.entry ≠ id ∧
        r = if r₀.stop = some id then { r₀ with stop := none } else r₀) := by
  rcases (deleteOne_eq_ok_iff hid).1 hd with ⟨hnext, rfl⟩ | ⟨-, hnot, rfl⟩
  · rw [handlers_unlink, redirect] at hr
    obtain ⟨r₀, hmem, rfl⟩ := List.mem_map.1 (List.mem_filter.1 hr).1
    exact ⟨r₀, hmem, .inl ⟨hnext, rfl⟩⟩
  · rw [handlers_unlink] at hr
    obtain ⟨r₀, hmem, rfl⟩ := List.mem_map.1 hr
    obtain ⟨hmem, hstart⟩ := List.mem_filter.1 hmem
    refine ⟨r₀, hmem, .inr ⟨by simpa using hstart, fun hentry => hnot ?_, rfl⟩⟩
    exact isTargeted_iff.2 (.inl (isHandlerEntry_iff.2 ⟨r₀, hmem, hentry⟩))

/-- The handlers behind the deletion of a run are old ones, with the same code. -/
theorem exists_entry_of_deleteRange {first last count : Nat}
    (hd : s.deleteRange first last = .ok (count, s')) {r : HandlerRange} (hr : r ∈ s'.handlers) :
    ∃ r₀ ∈ s.handlers, r₀.entry = r.entry := by
  rw [handlers_deleteRange hd] at hr
  obtain ⟨r₀, hmem, hr⟩ := List.mem_filterMap.1 hr
  simp only [Option.filter_eq_some_iff] at hr
  refine ⟨r₀, hmem, ?_⟩
  replace hr := hr.1
  split at hr
  · obtain ⟨start, -, rfl⟩ := Option.map_eq_some_iff.1 hr
    rfl
  · cases hr
    rfl

namespace IsClosed

/-- **Deleting a node** leaves no name of a dead one. -/
theorem deleteOne (h : s.IsClosed) (hd : s.deleteOne id = .ok s') : s'.IsClosed := by
  by_cases hid : s.isLive id
  case neg =>
    rw [deleteOne_of_not_isLive hid] at hd
    cases hd
    exact h
  have hkeep : ∀ {t}, s.isLive t → t ≠ id → s'.isLive t := by
    intro t ht hne
    simp [isLive_deleteOne hd hid, ht, hne]
  -- Targets, then the start, the stop and the entry of each handler. All of them were
  -- live, and the only one that died is the node itself.
  refine ⟨fun {n t} hn ht => ?_, fun {r} hr => ?_, fun {r k} hr hk => ?_, fun {r} hr => ?_⟩
  · obtain ⟨hn, hne⟩ := isLive_of_deleteOne hd hid hn
    obtain ⟨insn, hi⟩ := exists_instruction_of_lt (lt_size_of_isLive hn)
    have hi' := instruction?_deleteOne hd hid hn hne
    rw [hi, Option.map_some] at hi'
    rw [targets_of_instruction? hi', Instruction.targets_mapTargets] at ht
    obtain ⟨u, hu, rfl⟩ := List.mem_map.1 ht
    have hmem : u ∈ s.targets n := by rwa [targets_of_instruction? hi]
    rcases (deleteOne_eq_ok_iff hid).1 hd with ⟨hnext, -⟩ | ⟨-, hnot, -⟩
    · exact isLive_moved hd hid hnext (h.target hn hmem)
    · -- The last node goes only if no other names it.
      have hu : u ≠ id := by
        rintro rfl
        exact hnot (isTargeted_iff.2 (.inr ⟨n, hn, hne, hmem⟩))
      rw [moved_of_ne hu]
      exact hkeep (h.target hn hmem) hu
  · obtain ⟨r₀, hmem, ⟨hnext, rfl⟩ | ⟨hstart, -, rfl⟩⟩ := mem_handlers_deleteOne hd hid hr
    · exact isLive_moved hd hid hnext (h.start hmem)
    · have hlive := hkeep (h.start hmem) hstart
      split <;> exact hlive
  · obtain ⟨r₀, hmem, ⟨hnext, rfl⟩ | ⟨-, -, rfl⟩⟩ := mem_handlers_deleteOne hd hid hr
    · obtain ⟨k₀, hk₀, rfl⟩ := Option.map_eq_some_iff.1 hk
      exact isLive_moved hd hid hnext (h.stop hmem hk₀)
    · split at hk
      · cases hk
      · rename_i hstop
        exact hkeep (h.stop hmem hk) fun heq => hstop (heq ▸ hk)
  · obtain ⟨r₀, hmem, ⟨hnext, rfl⟩ | ⟨-, hentry, rfl⟩⟩ := mem_handlers_deleteOne hd hid hr
    · exact isLive_moved hd hid hnext (h.entry hmem)
    · have hlive := hkeep (h.entry hmem) hentry
      split <;> exact hlive

/-- **Deleting a run** leaves no name of a dead node. -/
theorem deleteRange {first last count : Nat} (h : s.IsClosed)
    (hd : s.deleteRange first last = .ok (count, s')) : s'.IsClosed := by
  have hout : ∀ {t}, s.isLive t → ¬ (s.isLive t ∧ first ≤ t ∧ t ≤ last) → s'.isLive t :=
    fun ht hnot => (isLive_deleteRange hd).2 ⟨ht, fun hin => hnot ⟨ht, hin⟩⟩
  have hbehind : ∀ {t}, s.next? last = some t → s'.isLive t := by
    intro t ht
    obtain ⟨hlast, rfl, hlt⟩ := next?_eq_some_iff.1 ht
    have hle : last + 1 ≤ s.ahead (last + 1) := le_ahead (lt_size_of_isLive hlast)
    exact hout (isLive_ahead hlt) fun hin => by omega
  -- Each handler is an old one whose bounds in the run moved behind it.
  have hrange : ∀ {r}, r ∈ s'.handlers →
      s'.isLive r.start ∧ ∀ k, r.stop = some k → s'.isLive k := by
    intro r hr
    rw [handlers_deleteRange hd] at hr
    obtain ⟨r₀, hmem, hr⟩ := List.mem_filterMap.1 hr
    simp only [Option.filter_eq_some_iff] at hr
    have hstop : ∀ k, (if r₀.stop.any fun k => s.isLive k ∧ first ≤ k ∧ k ≤ last then
        s.next? last else r₀.stop) = some k → s'.isLive k := by
      intro k hk
      split at hk
      · exact hbehind hk
      · rename_i hany
        refine hout (h.stop hmem hk) fun hin => hany ?_
        simp [hk, hin]
    replace hr := hr.1
    split at hr
    · obtain ⟨start, hstart, rfl⟩ := Option.map_eq_some_iff.1 hr
      exact ⟨hbehind hstart, hstop⟩
    · rename_i hnot
      have hstart := hout (h.start hmem) hnot
      cases hr
      exact ⟨hstart, hstop⟩
  refine ⟨fun {n t} hn ht => ?_, fun hr => ?_, fun {r k} hr hk => ?_, fun {r} hr => ?_⟩
  · have htargets : s'.targets n = s.targets n := by
      rw [targets, instruction?_deleteRange hd, targets]
    rw [htargets] at ht
    exact targets_deleteRange hd hn ht (h.target ((isLive_deleteRange hd).1 hn).1 ht)
  · exact (hrange hr).1
  · exact (hrange hr).2 k hk
  · obtain ⟨r₀, hmem, hentry⟩ := exists_entry_of_deleteRange hd hr
    rw [← hentry]
    exact entry_deleteRange hd hmem (h.entry hmem)

theorem renumber (h : s.IsClosed) : s.renumber.IsClosed := by
  refine ⟨fun {n t} hn ht => ?_, fun hr => ?_, fun {r k} hr hk => ?_, fun hr => ?_⟩
  · rw [isLive_renumber] at hn ⊢
    rw [targets, instruction?_renumber] at ht
    exact h.target hn ht
  all_goals rw [isLive_renumber]
  · exact h.start hr
  · exact h.stop hr hk
  · exact h.entry hr

/-- A new instruction may lead to live nodes only. -/
theorem replace (h : s.IsClosed) (hi : ∀ t ∈ insn.targets, s.isLive t) :
    (s.replace id insn).IsClosed := by
  refine ⟨fun {n t} hn ht => ?_, fun hr => ?_, fun {r k} hr hk => ?_, fun hr => ?_⟩
  · rw [isLive_replace] at hn ⊢
    by_cases hne : n = id
    · subst hne
      rw [targets_of_instruction? (instruction?_replace_self (lt_size_of_isLive hn))] at ht
      exact hi t ht
    · rw [targets, instruction?_replace_of_ne hne] at ht
      exact h.target hn ht
  all_goals rw [isLive_replace]
  · exact h.start hr
  · exact h.stop hr hk
  · exact h.entry hr

/-- An edit that names live nodes only leaves a stream that does. -/
theorem edit {e : Edit} (h : s.IsClosed) (he : e.IsAllowed s) (hs : s.edit e = .ok s') :
    s'.IsClosed := by
  cases e with
  | deleteOne id => exact h.deleteOne hs
  | deleteRange first last =>
      obtain ⟨count, hd⟩ := edit_deleteRange_eq_ok_iff.1 hs
      exact h.deleteRange hd
  | renumber =>
      cases hs
      exact h.renumber
  | replace id insn =>
      cases hs
      exact h.replace he

end IsClosed

/-! ### Positions -/

/-- Positions ascend along the stream. -/
def IsAscending (s : CodeStream) : Prop :=
  ∀ {n t}, s.isLive n → s.isLive t → n < t → s.position n < s.position t

/-- Where nodes only die and keep their positions, these ascend still. -/
theorem IsAscending.of_isLive (h : s.IsAscending) (hlive : ∀ {n}, s'.isLive n → s.isLive n)
    (hposition : ∀ n, s'.position n = s.position n) : s'.IsAscending := by
  intro n t hn ht hnt
  rw [hposition, hposition]
  exact h (hlive hn) (hlive ht) hnt

/-- Ranks grow from one live node to the next. -/
theorem isAscending_renumber (s : CodeStream) : s.renumber.IsAscending := by
  intro n t hn ht hnt
  rw [isLive_renumber] at hn ht
  rw [position_renumber hn, position_renumber ht]
  exact rank_lt_rank hn hnt

/-- Deleting nodes leaves the positions of the others, so they still ascend. -/
theorem IsAscending.edit {e : Edit} (h : s.IsAscending) (hs : s.edit e = .ok s') :
    s'.IsAscending := by
  cases e with
  | deleteOne id =>
      by_cases hid : s.isLive id
      · exact h.of_isLive (fun hn => (isLive_of_deleteOne hs hid hn).1)
          fun _ => position_deleteOne hs hid
      · rw [CodeStream.edit, deleteOne_of_not_isLive hid] at hs
        cases hs
        exact h
  | deleteRange first last =>
      obtain ⟨count, hd⟩ := edit_deleteRange_eq_ok_iff.1 hs
      exact h.of_isLive (fun hn => ((isLive_deleteRange hd).1 hn).1)
        fun _ => position_deleteRange hd
  | renumber =>
      cases hs
      exact isAscending_renumber s
  | replace id insn =>
      cases hs
      exact h.of_isLive (fun hn => isLive_replace ▸ hn) fun _ => position_replace

/-! ### Every stream that is reached -/

/-- **Names.** Every stream that is reached names live nodes only. -/
theorem Reached.isClosed (h : Reached m s) : s.IsClosed := by
  induction h with
  | ofMethod hs =>
      obtain ⟨hm, rfl⟩ := ofMethod_eq_ok_iff.1 hs
      exact (thins_whole hm).isClosed
  | edit e _ he hs ih => exact ih.edit he hs

/-- **Positions.** In every stream that is reached the positions ascend. -/
theorem Reached.isAscending (h : Reached m s) : s.IsAscending := by
  induction h with
  | ofMethod hs =>
      obtain ⟨-, rfl⟩ := ofMethod_eq_ok_iff.1 hs
      intro n t hn ht hnt
      rw [position_whole (isLive_whole.1 hn), position_whole (isLive_whole.1 ht)]
      exact hnt
  | edit e _ _ hs ih => exact ih.edit hs

end JvmOptimizer.CodeStream
