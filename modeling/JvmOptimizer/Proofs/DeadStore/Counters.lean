import JvmOptimizer.Proofs.CodeStream.Exchange
import JvmOptimizer.Proofs.DeadStore.Rounds

/-!
# What dead store elimination counts and what it exchanges

Each removal is inverted once, with the counter that it moves. A removed store
takes its push with it, and a discarded push its discard, so the length of the
stream and twice the counters of removals keep their sum.

What stays is an instruction of the method, or a discard in the place of a
store.
-/

open Relation (ReflTransGen)

namespace JvmOptimizer.DeadStore

open CodeStream Steps

variable {m : Method} {s s' before : CodeStream} {σ σ' : State} {c : Candidate}
  {push take : Nat}

/-! ### Single removals -/

theorem delete_eq_ok {id : Nat} :
    delete id σ = (.ok (), σ') ↔
      ∃ stream, σ.stream.deleteOne id = .ok stream ∧ { σ with stream } = σ' := by
  simp only [delete, bind_apply, get_apply]
  cases hd : σ.stream.deleteOne id with
  | error e => simp
  | ok stream => simp

/-- The two deletions of a pair are one deletion of both, followed by the count.
-/
theorem deletePair_eq_ok {f : Stats → Stats}
    (h : (do delete push; delete take; count f : Step Unit) σ = (.ok (), σ')) :
    ∃ stream, σ.stream.deleteAll [push, take] = .ok stream ∧ σ' = ⟨stream, f σ.stats⟩ := by
  simp only [bind_eq_ok] at h
  obtain ⟨⟨⟩, τ, hpush, ⟨⟩, ρ, htake, h⟩ := h
  obtain ⟨mid, hmid, rfl⟩ := delete_eq_ok.1 hpush
  obtain ⟨stream, hs, rfl⟩ := delete_eq_ok.1 htake
  cases h
  exact ⟨stream, deleteAll_cons_eq_ok.2 ⟨mid, hmid, deleteAll_cons_eq_ok.2 ⟨stream, hs, rfl⟩⟩, rfl⟩

/-- What the removal of a store does. -/
inductive Removal (σ : State) (c : Candidate) : State → Prop
  | pair {producer stream} (hp : c.producer = some producer)
      (hd : σ.stream.deleteAll [producer, c.store] = .ok stream) :
      Removal σ c ⟨stream, { σ.stats with removed := σ.stats.removed + 1 }⟩
  | discard {kind index} (hi : σ.stream.instruction? c.store = some (.store kind index)) :
      Removal σ c
        ⟨σ.stream.replace c.store (discard kind), { σ.stats with popped := σ.stats.popped + 1 }⟩
  /-- There is no store any more. -/
  | none (hi : ∀ kind index, σ.stream.instruction? c.store ≠ some (.store kind index)) :
      Removal σ c σ

/-- The three ways in which the removal of a store succeeds. -/
theorem removal_removeStore (h : removeStore c σ = (.ok (), σ')) : Removal σ c σ' := by
  rw [removeStore, bind_apply, get_apply] at h
  dsimp only at h
  -- An earlier removal may have taken the store: then nothing is done.
  by_cases hstore : ∃ kind index, σ.stream.instruction? c.store = some (.store kind index)
  · obtain ⟨kind, index, hi⟩ := hstore
    rw [hi] at h
    -- A store without a producer, or one that is jumped to, becomes a discard; only
    -- otherwise do both nodes go.
    cases hp : c.producer with
    | none =>
        rw [hp] at h
        cases h
        exact .discard hi
    | some producer =>
        cases ht : σ.stream.isTargeted c.store with
        | true =>
            rw [hp, ht] at h
            cases h
            exact .discard hi
        | false =>
            rw [hp, ht] at h
            obtain ⟨stream, hd, rfl⟩ := deletePair_eq_ok h
            exact .pair hp hd
  · have hsame : σ' = σ := by
      rcases hi : σ.stream.instruction? c.store with _ | insn
      · rw [hi] at h
        cases h
        rfl
      · rw [hi] at h
        cases insn with
        | store kind index => exact absurd ⟨kind, index, hi⟩ hstore
        | _ =>
            cases h
            rfl
    rw [hsame]
    exact .none fun kind index hi => hstore ⟨kind, index, hi⟩

/-- A pair goes where both nodes are still there, and it is counted. -/
theorem removePair_eq_ok (h : removePair push take σ = (.ok (), σ')) :
    (¬ (σ.stream.isLive push ∧ σ.stream.isLive take) ∧ σ' = σ) ∨
      (σ.stream.isLive push ∧ σ.stream.isLive take) ∧ ∃ stream,
        σ.stream.deleteAll [push, take] = .ok stream ∧
        σ' = ⟨stream, { σ.stats with pairs := σ.stats.pairs + 1 }⟩ := by
  rw [removePair, bind_apply, get_apply] at h
  by_cases hlive : σ.stream.isLive push ∧ σ.stream.isLive take
  · simp only [hlive, and_self, if_true] at h
    exact .inr ⟨hlive, deletePair_eq_ok h⟩
  · simp only [hlive, if_false] at h
    cases h
    exact .inl ⟨hlive, rfl⟩

/-! ### Deleted nodes -/

/-- The nodes that are there and those that were deleted. -/
def State.total (σ : State) : Nat := σ.stream.length + 2 * (σ.stats.removed + σ.stats.pairs)

theorem length_deletePair (hd : s.deleteAll [push, take] = .ok s') (hne : push ≠ take)
    (hpush : s.isLive push) (htake : s.isLive take) : s'.length + 2 = s.length := by
  refine length_deleteAll hd (by simpa using hne) fun id hid => ?_
  rcases List.mem_pair.1 hid with rfl | rfl
  · exact hpush
  · exact htake

theorem Last.producer_ne {producer : Nat} (h : Last before c) (hp : c.producer = some producer) :
    producer ≠ c.store :=
  (prev?_eq_some_iff.1 (h.producer hp).1).2.1.ne

/-- Two nodes go for each removal that is counted, so the sum of the nodes there
are and of twice the count stays. -/
theorem Removal.total_eq (h : Removal σ c σ') (hc : Last before c)
    (hlive : ∀ n ∈ c.nodes, σ.stream.isLive n) : σ'.total = σ.total := by
  cases h with
  | pair hp hd =>
      have := length_deletePair hd (hc.producer_ne hp)
        (hlive _ (List.mem_cons_of_mem _ (Option.mem_toList.2 hp)))
        (hlive _ List.mem_cons_self)
      simp only [State.total]
      omega
  | discard hi => simp only [State.total, length_replace]
  | none => rfl

/-- A removal touches no other node. -/
theorem Removal.isLive {n : Nat} (h : Removal σ c σ') (hn : n ∉ c.nodes)
    (hlive : σ.stream.isLive n) : σ'.stream.isLive n := by
  cases h with
  | pair hp hd =>
      refine (isLive_deleteAll hd).2 ⟨hlive, fun hmem => hn ?_⟩
      rcases List.mem_pair.1 hmem with rfl | rfl
      · exact List.mem_cons_of_mem _ (Option.mem_toList.2 hp)
      · exact List.mem_cons_self
  | discard hi =>
      rw [isLive_replace]
      exact hlive
  | none => exact hlive

theorem Last.isLive_of_mem_nodes {n : Nat} (h : Last before c) (hn : n ∈ c.nodes) :
    before.isLive n := by
  rcases List.mem_cons.1 hn with rfl | hn
  · exact h.live
  · exact (prev?_eq_some_iff.1 (h.producer (Option.mem_toList.1 hn)).1).2.2.1

/-- A sweep preserves the total: the candidates have different slots, so no
removal takes a node of another. -/
theorem total_sweep {loops : List LoopExtent} (h : sweep before loops σ = (.ok (), σ'))
    (hσ : σ.stream = before) : σ'.total = σ.total := by
  -- What goes with a store that the sweep has not come to is all there.
  let I : List Candidate → State → Prop := fun l τ =>
    τ.total = σ.total ∧ (∀ c ∈ l, Last before c) ∧ l.Pairwise (·.slot ≠ ·.slot) ∧
      ∀ c ∈ l, ∀ n ∈ c.nodes, τ.stream.isLive n
  refine (forM_induction (I := I) (fun c rest τ τ' hI hc => ?_) h ⟨rfl, fun c => ?_,
    pairwise_candidates, fun c hc n hn => ?_⟩).1
  · obtain ⟨htotal, hlast, hpair, hpending⟩ := hI
    rw [List.forall_mem_cons] at hlast hpending
    rw [List.pairwise_cons] at hpair
    rw [bind_apply, get_apply] at hc
    dsimp only at hc
    split at hc
    · cases hc
      exact ⟨htotal, hlast.2, hpair.2, hpending.2⟩
    · have hr := removal_removeStore hc
      refine ⟨(hr.total_eq hlast.1 hpending.1).trans htotal, hlast.2, hpair.2, ?_⟩
      intro c' hc' n hn
      exact hr.isLive ((hlast.2 c' hc').disjoint hlast.1 (hpair.1 c' hc').symm hn)
        (hpending.2 c' hc' n hn)
  · exact last_of_mem_candidates
  · rw [hσ]
    exact (last_of_mem_candidates hc).isLive_of_mem_nodes hn

theorem total_removePairs (h : removePairs σ = (.ok (), σ')) : σ'.total = σ.total := by
  rw [removePairs, bind_apply, get_apply] at h
  let I : List (Nat × Nat) → State → Prop := fun l τ =>
    τ.total = σ.total ∧ ∀ pair ∈ l, pair.1 ≠ pair.2
  refine (forM_induction (I := I) (fun pair rest τ τ' hI hp => ?_) h ⟨rfl, fun pair hpair => ?_⟩).1
  · obtain ⟨htotal, hne⟩ := hI
    rw [List.forall_mem_cons] at hne
    rcases removePair_eq_ok hp with ⟨-, rfl⟩ | ⟨hlive, stream, hd, rfl⟩
    · exact ⟨htotal, hne.2⟩
    · refine ⟨?_, hne.2⟩
      have := length_deletePair hd hne.1 hlive.1 hlive.2
      simp only [State.total] at htotal ⊢
      omega
  · obtain ⟨take, -, hmap⟩ := List.mem_filterMap.1 hpair
    obtain ⟨push, hpush, rfl⟩ := Option.map_eq_some_iff.1 hmap
    exact (prev?_eq_some_iff.1 (discarded_of_discardedPush? hpush).prev).2.1.ne

/-- A round renumbers, sweeps and takes out pairs. -/
theorem round_eq_ok : round σ = (.ok (), σ') ↔
    ∃ τ, sweep σ.stream.renumber σ.stream.renumber.loops
        ⟨σ.stream.renumber, { σ.stats with rounds := σ.stats.rounds + 1 }⟩ = (.ok (), τ) ∧
      removePairs τ = (.ok (), σ') := by
  rw [round, bind_apply, modify_apply]
  dsimp only
  rw [bind_apply, get_apply]
  dsimp only
  rw [bind_eq_ok]
  constructor
  · rintro ⟨⟨⟩, τ, hs, hp⟩
    exact ⟨τ, hs, hp⟩
  · rintro ⟨τ, hs, hp⟩
    exact ⟨⟨⟩, τ, hs, hp⟩

/-- Rounds go on behind one that has changed something. -/
theorem rounds_succ_eq_ok {limit : Nat} : rounds (limit + 1) σ = (.ok (), σ') ↔
    ∃ τ, round σ = (.ok (), τ) ∧
      if τ.stats.changes ≠ σ.stats.changes then rounds limit τ = (.ok (), σ') else τ = σ' := by
  have hrest (τ : State) : (do
      if (← get).stats.changes ≠ σ.stats.changes then rounds limit : Step Unit) τ = (.ok (), σ') ↔
      if τ.stats.changes ≠ σ.stats.changes then rounds limit τ = (.ok (), σ') else τ = σ' := by
    rw [bind_apply, get_apply]
    dsimp only
    by_cases hne : τ.stats.changes ≠ σ.stats.changes
    · rw [if_pos hne, if_pos hne]
    · rw [if_neg hne, if_neg hne, pure_apply, Prod.mk.injEq, and_iff_right rfl]
  rw [rounds, bind_apply, get_apply]
  dsimp only
  rw [bind_eq_ok]
  constructor
  · rintro ⟨⟨⟩, τ, hround, h⟩
    exact ⟨τ, hround, (hrest τ).1 h⟩
  · rintro ⟨τ, hround, h⟩
    exact ⟨⟨⟩, τ, hround, (hrest τ).2 h⟩

/-- A round deletes two nodes for each store and each pair that it counts. -/
theorem total_round (h : round σ = (.ok (), σ')) : σ'.total = σ.total := by
  obtain ⟨τ, hs, hp⟩ := round_eq_ok.1 h
  rw [total_removePairs hp, total_sweep hs rfl]
  simp only [State.total, length_renumber]

theorem total_rounds {limit : Nat} (h : rounds limit σ = (.ok (), σ')) :
    σ'.total = σ.total := by
  induction limit generalizing σ with
  | zero =>
      cases h
      rfl
  | succ limit ih =>
      obtain ⟨τ, hround, h⟩ := rounds_succ_eq_ok.1 h
      rw [← total_round hround]
      split at h
      · exact ih h
      · rw [h]

/-- The pass is its rounds, started without counts, and a renumbering at the end.
-/
theorem removeDeadStores_eq_ok {limit : Nat} {stats : Stats}
    (h : s.removeDeadStores limit = (.ok stats, s')) :
    ∃ final, rounds limit { stream := s } = (.ok (), final) ∧ stats = final.stats ∧
      s' = final.stream.renumber := by
  unfold removeDeadStores at h
  rcases hr : rounds limit { stream := s } with ⟨outcome, final⟩
  rw [hr] at h
  cases outcome with
  | error e => cases h
  | ok _ =>
      cases h
      exact ⟨final, rfl, rfl, rfl⟩

/-- **Every removal takes two nodes.** -/
theorem length_removeDeadStores {limit : Nat} {stats : Stats}
    (h : s.removeDeadStores limit = (.ok stats, s')) :
    s'.length + 2 * (stats.removed + stats.pairs) = s.length := by
  obtain ⟨final, hr, rfl, rfl⟩ := removeDeadStores_eq_ok h
  rw [length_renumber]
  exact total_rounds hr

/-! ### Exchanged instructions -/

/-- A store was there from the start. -/
theorem getElem?_of_store {kind : LocalKind} {index : UInt16} {n : Nat} (ht : s.Thins m)
    (hf : s.Faithful m) (hn : s.isLive n) (hi : s.instruction? n = some (.store kind index)) :
    m.code[n]? = some (.store kind index) := by
  obtain ⟨insn, hm⟩ := ht.exists_code hn
  obtain ⟨x, hx, hor⟩ := hf.instruction ht hn hm
  rw [hi] at hx
  cases hx
  rcases hor with heq | hr
  · cases insn with
    | store => exact hm.trans (congrArg some heq.symm)
    | _ => cases heq
  · cases hr

/-- Each edit of the pass leaves an instruction that the body has, or a discard in
place of a store of the body. -/
theorem Edit.faithful (h : Edit s s') (ht : s.Thins m) (hf : s.Faithful m) : s'.Faithful m := by
  cases h with
  | renumber => exact hf.renumber
  | discard hl hi hd =>
      exact hf.replace (lt_size_of_isLive hl) (getElem?_of_store ht hf hl hi) .discard
  | pair hs hd => exact hf.deleteAll hd

/-- What a pass that succeeds has done. -/
theorem edits_removeDeadStores {limit : Nat} {stats : Stats} (ht : s.Thins m)
    (h : s.removeDeadStores limit = (.ok stats, s')) : ReflTransGen Edit s s' := by
  have hleads := leads_removeDeadStores ht limit
  rw [h] at hleads
  exact hleads.1

/-- **Dead store elimination exchanges stores for discards only.** -/
theorem faithful_removeDeadStores {limit : Nat} {stats : Stats} (ht : s.Thins m)
    (hf : s.Faithful m) (h : s.removeDeadStores limit = (.ok stats, s')) :
    s'.Thins m ∧ s'.Faithful m := by
  have hedits := edits_removeDeadStores ht h
  clear h
  induction hedits with
  | refl => exact ⟨ht, hf⟩
  | tail _ hedit ih => exact ⟨hedit.thins ih.1, hedit.faithful ih.1 ih.2⟩

/-- Stores and instructions with targets are all that the pass changes. -/
theorem instruction?_removeDeadStores {limit n : Nat} {stats : Stats} {insn : Instruction Nat}
    (ht : s.Thins m) (h : s.removeDeadStores limit = (.ok stats, s'))
    (hi : s.instruction? n = some insn) (htargets : insn.targets = [])
    (hstore : ∀ kind index, insn ≠ .store kind index) : s'.instruction? n = some insn := by
  have hedits := edits_removeDeadStores ht h
  clear h
  induction hedits with
  | refl => exact hi
  | tail _ hedit ih =>
      cases hedit with
      | renumber => exact instruction?_renumber.trans ih
      | @discard store kind index hl hs hd =>
          have hne : n ≠ store := by
            rintro rfl
            rw [hs] at ih
            cases ih
            exact hstore kind index rfl
          rw [instruction?_replace_of_ne hne]
          exact ih
      | pair hs hd => exact instruction?_deleteAll hd ih htargets

end JvmOptimizer.DeadStore
