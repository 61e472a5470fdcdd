import JvmOptimizer.Proofs.DeadStore.Quiet
import Mathlib.Data.Nat.Find

/-!
# How many rounds it takes

Two sums stay the same all through the pass: the nodes that are there with those
that were deleted (`State.total`), and the stores with those that were exchanged
for a discard (`State.stores`). So there cannot be more changes than the method has
instructions and stores, and each round but the last makes one.

With a limit beyond that number the pass ends with a round that finds nothing to
do. Then each store that is left is there for a reason: a read of its slot comes
behind the last store, or can be reached from it.
-/

namespace JvmOptimizer

/-- Is the instruction a store? -/
def Instruction.isStore {τ : Type} : Instruction τ → Bool
  | .store .. => true
  | _ => false

@[simp]
theorem Instruction.isStore_mapTargets {τ υ : Type} (f : τ → υ) (insn : Instruction τ) :
    (insn.mapTargets f).isStore = insn.isStore := by
  cases insn <;> rfl

namespace CodeStream

variable {s s' : CodeStream} {m : Method} {ids : List Nat} {id : Nat}

/-- The number of stores, those of dead nodes included. -/
def storeCount (s : CodeStream) : Nat := s.nodes.toList.countP (·.instruction.isStore)

/-- The number of stores depends only on which instructions are stores. -/
theorem storeCount_congr
    (h : ∀ n, (s'.instruction? n).map (·.isStore) = (s.instruction? n).map (·.isStore)) :
    s'.storeCount = s.storeCount := by
  have hmap : s'.nodes.toList.map (·.instruction.isStore) =
      s.nodes.toList.map (·.instruction.isStore) := by
    refine List.ext_getElem? fun n => ?_
    simpa [instruction?, Function.comp_def] using h n
  have hcount (t : CodeStream) :
      t.storeCount = (t.nodes.toList.map (·.instruction.isStore)).countP id := by
    rw [List.countP_map]
    rfl
  rw [hcount, hcount, hmap]

theorem storeCount_renumber : s.renumber.storeCount = s.storeCount :=
  storeCount_congr fun _ => by rw [instruction?_renumber]

theorem storeCount_whole : (whole m).storeCount = m.code.countP (·.isStore) := by
  have hmap : (whole m).nodes.toList.map (·.instruction) = m.code := by
    refine List.ext_getElem? fun n => ?_
    simpa [instruction?] using instruction?_whole (m := m) (n := n)
  rw [← hmap, List.countP_map]
  rfl

/-- A deletion marks nodes and moves targets: no store is lost from the count,
which takes in the dead nodes. -/
theorem storeCount_deleteAll (h : s.deleteAll ids = .ok s') : s'.storeCount = s.storeCount := by
  refine deleteAll_induction (P := fun t => t.storeCount = s.storeCount) h rfl ?_
  intro t t' id _ hid hd ht
  refine (storeCount_congr fun n => ?_).trans ht
  by_cases hn : t.isLive n ∧ n ≠ id
  · rw [instruction?_deleteOne hd hid hn.1 hn.2, Option.map_map]
    cases t.instruction? n <;> simp
  · rw [instruction?_deleteOne_of_not hd hid hn]

/-- A store that is exchanged for something else is one store less. -/
theorem storeCount_replace {insn old : Instruction Nat} (hinsn : insn.isStore = false)
    (hi : s.instruction? id = some old) (hold : old.isStore) :
    (s.replace id insn).storeCount + 1 = s.storeCount := by
  obtain ⟨node, hnode, rfl⟩ := Option.map_eq_some_iff.1 hi
  have hat : s.nodes.toList[id]? = some node := by simpa using hnode
  obtain ⟨hlt, rfl⟩ := List.getElem?_eq_some_iff.1 hat
  have hset : (s.replace id insn).nodes.toList =
      s.nodes.toList.set id { s.nodes.toList[id] with instruction := insn } := by
    simp [replace, List.modify_eq_set_getElem?, hat]
  have hpos : 0 < s.storeCount :=
    List.countP_pos_iff.2 ⟨_, List.getElem_mem hlt, hold⟩
  have hcount := List.countP_set (p := fun node : Node => node.instruction.isStore)
    (a := { s.nodes.toList[id] with instruction := insn }) hlt
  rw [storeCount, hset, hcount, if_pos hold, if_neg (by simp [hinsn])]
  exact Nat.sub_add_cancel hpos

end CodeStream

namespace DeadStore

open CodeStream Steps

variable {s s' before : CodeStream} {σ σ' : State} {c : Candidate} {m : Method}
  {limit id slot : Nat} {stats : Stats}

/-! ### What there is to change -/

/-- The stores that are there and those that were exchanged. -/
def State.stores (σ : State) : Nat := σ.stream.storeCount + σ.stats.popped

/-- A store that becomes a discard is counted as popped, so the sum stays. -/
theorem Removal.stores_eq (h : Removal σ c σ') : σ'.stores = σ.stores := by
  cases h with
  | pair hp hd => simp only [State.stores, storeCount_deleteAll hd]
  | @discard kind index hi =>
      have hdiscard : (DeadStore.discard kind).isStore = false := rfl
      have hcount := storeCount_replace hdiscard hi rfl
      simp only [State.stores]
      omega
  | none => rfl

theorem stores_sweep {loops : List LoopExtent} (h : sweep before loops σ = (.ok (), σ')) :
    σ'.stores = σ.stores := by
  refine forM_induction (I := fun _ τ => τ.stores = σ.stores) (fun c _ τ τ' hτ hc => ?_) h rfl
  rw [← hτ]
  replace hc : sweepStep before loops c τ = (.ok (), τ') := hc
  rw [sweepStep_apply] at hc
  split at hc
  · cases hc
    rfl
  · exact (removal_removeStore hc).stores_eq

theorem stores_removePairs (h : removePairs σ = (.ok (), σ')) : σ'.stores = σ.stores := by
  rw [removePairs_apply] at h
  refine forM_induction (I := fun _ τ => τ.stores = σ.stores) (fun pair _ τ τ' hτ hp => ?_) h rfl
  rw [← hτ]
  rcases removePair_eq_ok hp with ⟨-, rfl⟩ | ⟨-, stream, hd, rfl⟩
  · rfl
  · simp only [State.stores, storeCount_deleteAll hd]

/-- All that can be changed, and all that was. -/
def State.budget (σ : State) : Nat := σ.total + σ.stores

/-- What a round changes it also counts, so the budget is the same after it. This
bounds the number of rounds that change anything. -/
theorem budget_round (h : round σ = (.ok (), σ')) : σ'.budget = σ.budget := by
  obtain ⟨τ, hs, hp⟩ := round_eq_ok.1 h
  rw [State.budget, total_round h, stores_removePairs hp, stores_sweep hs]
  simp only [State.budget, State.stores, storeCount_renumber]

/-- Each change is part of the budget. -/
theorem changes_le_budget (σ : State) : σ.stats.changes ≤ σ.budget := by
  simp only [Stats.changes, State.budget, State.total, State.stores]
  omega

/-! ### The last round -/

/-- **Within their budget rounds come to an end**, and the last of them changes
nothing. -/
theorem exists_last_round (h : rounds limit σ = (.ok (), σ'))
    (hlimit : σ.budget < σ.stats.changes + limit) :
    ∃ k τ, σ.stats.changes + k ≤ σ.budget ∧ rounds k σ = (.ok (), τ) ∧
      τ.stats.rounds = σ.stats.rounds + k ∧ Quiet τ.stream.renumber ∧
      σ' = ⟨τ.stream.renumber, { τ.stats with rounds := τ.stats.rounds + 1 }⟩ := by
  induction limit generalizing σ with
  | zero =>
      have := changes_le_budget σ
      omega
  | succ limit ih =>
      obtain ⟨τ, hround, h⟩ := rounds_succ_eq_ok.1 h
      obtain ⟨hcount, hle, hquiet⟩ := counts_round hround
      have hbudget := budget_round hround
      split at h
      · rename_i hne
        obtain ⟨k, ρ, hk, hrounds, hcount', hquiet', hlast⟩ := ih h (by omega)
        refine ⟨k + 1, ρ, by omega, ?_, by omega, hquiet', hlast⟩
        exact rounds_succ_eq_ok.2 ⟨τ, hround, by rwa [if_pos hne]⟩
      · rename_i hsame
        obtain ⟨hq, -⟩ := hquiet (not_not.1 hsame)
        have hidle := hq.round
        rw [hround, h] at hidle
        exact ⟨0, σ, changes_le_budget σ, rfl, rfl, hq, (Prod.mk.inj hidle).2⟩

/-! ### Stores that stay -/

/-- The store to a slot behind which there is no other. -/
structure LastStore (s : CodeStream) (slot id : Nat) : Prop where
  live : s.isLive id
  stored : storedSlot? s id = some slot
  last : ∀ {other}, s.isLive other → storedSlot? s other = some slot →
    s.position other ≤ s.position id

/-- A node reads a slot behind a store to it, or where control may come back to from
the store. -/
structure ReadSince (s : CodeStream) (slot store reader : Nat) : Prop where
  live : s.isLive reader
  read : reads s slot reader
  place : s.position store < s.position reader ∨
    reentry s s.loops (s.position store) ≤ s.position reader ∧
      s.position reader < s.position store

theorem position_le_of_renumber (hs : s.renumber = s) {n k : Nat} (hn : s.isLive n)
    (hk : s.isLive k) (hle : n ≤ k) : s.position n ≤ s.position k := by
  rw [position_of_renumber hs hn, position_of_renumber hs hk]
  exact rank_mono hle

/-- Where there is a store to a slot there is a last one. -/
theorem exists_lastStore (hs : s.renumber = s) (hid : s.isLive id)
    (hslot : storedSlot? s id = some slot) : ∃ store, LastStore s slot store := by
  let P : Nat → Prop := fun n => s.isLive n ∧ storedSlot? s n = some slot
  have hspec : P (Nat.findGreatest P s.nodes.size) :=
    Nat.findGreatest_spec (lt_size_of_isLive hid).le ⟨hid, hslot⟩
  refine ⟨Nat.findGreatest P s.nodes.size, hspec.1, hspec.2, fun {other} hlive hstored => ?_⟩
  exact position_le_of_renumber hs hlive hspec.1
    (Nat.le_findGreatest (lt_size_of_isLive hlive).le ⟨hlive, hstored⟩)

/-- A store does not read the slot that it writes. -/
theorem not_reads_of_storedSlot? (h : storedSlot? s id = some slot) : ¬ reads s slot id := by
  intro hreads
  obtain ⟨kind, index, hi, -⟩ := storedSlot?_eq_some_iff.1 h
  obtain ⟨insn, hinsn, hmem⟩ := reads_iff.1 hreads
  cases hi.symm.trans hinsn
  cases hmem

/-- **In a quiet stream every store is needed.** -/
theorem Quiet.exists_readSince (h : Quiet s) (hs : s.renumber = s) (hid : s.isLive id)
    (hslot : storedSlot? s id = some slot) :
    ∃ store reader, LastStore s slot store ∧ ReadSince s slot store reader := by
  obtain ⟨access, hfind⟩ : ∃ access, (s.ids.reverse.find? fun n =>
      storedSlot? s n = some slot || reads s slot n) = some access :=
    Option.isSome_iff_exists.1 (List.find?_isSome.2 ⟨id, by simpa using hid, by simp [hslot]⟩)
  have haccess : s.isLive access :=
    mem_ids.1 (List.mem_reverse.1 (List.mem_of_find?_eq_some hfind))
  by_cases hreads : reads s slot access
  · -- The last access reads what the last store has stored.
    obtain ⟨store, hstore⟩ := exists_lastStore hs hid hslot
    refine ⟨store, access, hstore, haccess, hreads, .inl ?_⟩
    have hle := le_of_find?_reverse_ids hfind hstore.live (by simp [hstore.stored])
    have hne : store ≠ access := by
      intro heq
      exact not_reads_of_storedSlot? hstore.stored (heq ▸ hreads)
    rw [position_of_renumber hs hstore.live, position_of_renumber hs haccess]
    exact rank_lt_rank hstore.live (by omega)
  · have hstored : storedSlot? s access = some slot := by
      simpa [hreads] using List.find?_some hfind
    -- It is a candidate that the round has kept.
    have hcandidate : candidate? s slot =
        some ⟨slot, access, (s.prev? access).filter (isPurePush s)⟩ := by
      simp only [candidate?, hfind, hreads]
      rfl
    have hmem : slot ∈ (s.ids.filterMap (storedSlot? s)).eraseDups.mergeSort := by
      rw [List.mem_mergeSort, List.mem_eraseDups, List.mem_filterMap]
      exact ⟨id, mem_ids.2 hid, hslot⟩
    have hkept := h.stores _ (List.mem_filterMap.2 ⟨slot, hmem, hcandidate⟩)
    obtain ⟨position, hread, hplace⟩ := List.any_eq_true.1 hkept
    obtain ⟨reader, hreader, rfl⟩ := List.mem_map.1 hread
    obtain ⟨hlive, hreader⟩ := List.mem_filter.1 hreader
    refine ⟨access, reader, ⟨haccess, hstored, fun {other} hother hstored => ?_⟩,
      mem_ids.1 hlive, hreader, .inr (by simpa using hplace)⟩
    exact position_le_of_renumber hs hother haccess
      (le_of_find?_reverse_ids hfind hother (by simp [hstored]))

/-- **Dead store elimination converges.** On the stream of a method, with a limit
beyond the number of its instructions and stores, a pass that succeeds ends with a
round that removes nothing: one round less has the same result. Another pass finds
nothing to do. And each store that is left stores to a slot that is read, behind the
last store to it or where control may come back to from there. -/
theorem removeDeadStores_converges (hs : ofMethod m = .ok s)
    (hlimit : m.code.length + m.code.countP (·.isStore) < limit)
    (h : s.removeDeadStores limit = (.ok stats, s')) :
    (∃ k ≤ m.code.length + m.code.countP (·.isStore), stats.rounds = k + 1 ∧
        s.removeDeadStores k = (.ok { stats with rounds := k }, s')) ∧
      (∀ again, s'.removeDeadStores (again + 1) = (.ok { rounds := 1 }, s')) ∧
      ∀ id slot, s'.isLive id → storedSlot? s' id = some slot →
        ∃ store reader, LastStore s' slot store ∧ ReadSince s' slot store reader := by
  obtain ⟨-, rfl⟩ := ofMethod_eq_ok_iff.1 hs
  have hbudget : State.budget { stream := whole m } =
      m.code.length + m.code.countP (·.isStore) := by
    rw [State.budget, State.total, State.stores, length_whole, storeCount_whole]
    rfl
  unfold removeDeadStores at h
  rcases hr : rounds limit { stream := whole m } with ⟨outcome, final⟩
  rw [hr] at h
  cases outcome with
  | error e => cases h
  | ok _ =>
      cases h
      have hstart : (State.mk (whole m) {}).stats.changes = 0 := rfl
      -- The limit is beyond the budget, so a round before it changed nothing.
      obtain ⟨k, τ, hk, hrounds, hcount, hquiet, rfl⟩ := exists_last_round hr (by omega)
      replace hcount : τ.stats.rounds = k := hcount.trans (Nat.zero_add k)
      dsimp only
      rw [renumber_renumber]
      -- The rounds up to the idle one give the same stream; the idle one would be idle
      -- again; and what is quiet keeps a store only for a read.
      refine ⟨⟨k, by omega, by rw [hcount], ?_⟩, ?_, ?_⟩
      · rw [removeDeadStores, hrounds]
        simp only [← hcount]
      · exact hquiet.removeDeadStores_succ renumber_renumber
      · intro id slot
        exact hquiet.exists_readSince renumber_renumber

theorem removeDeadStores_converges_idleCopy :
    idleCopy.code.length + idleCopy.code.countP (·.isStore) = 10 ∧
      ∃ stats s', (whole idleCopy).removeDeadStores 64 = (.ok stats, s') ∧ s'.length = 4 ∧
        (∃ k ≤ 10, stats.rounds = k + 1 ∧
          (whole idleCopy).removeDeadStores k = (.ok { stats with rounds := k }, s')) ∧
        (∀ again, s'.removeDeadStores (again + 1) = (.ok { rounds := 1 }, s')) ∧
        ∀ id slot, s'.isLive id → storedSlot? s' id = some slot →
          ∃ store reader, LastStore s' slot store ∧ ReadSince s' slot store reader := by
  obtain ⟨stats, s', hr, hlength⟩ := removeDeadStores_idleCopy
  exact ⟨by decide, stats, s', hr, hlength,
    removeDeadStores_converges (m := idleCopy) rfl (by decide) hr⟩

end DeadStore

end JvmOptimizer
