import JvmOptimizer.Proofs.Fold.History

/-!
# Loop heads while folding

The loops are collected once, before the walk, and asked about while it edits the
stream. That is right at every node that is entered: whatever leads back to the node
then led back to it from the start, so it is the head of a loop that is known, and
what the known loops write there is what the nodes that are left write.

A deleted node hands its references over to the node behind it, which may make that
node a head that no known loop has. But a transfer from behind the walk never comes to
lead to a node that is still to be entered. A node that stays catches such a transfer,
and a node that goes without leaving another in its place was a branch outside of all
loops, or a jump that nothing behind it leads to.
-/

namespace JvmOptimizer.Fold

open CodeStream Steps

variable {m : Method} {s : CodeStream} {σ σ' : State} {loops : List LoopExtent} {i n : Nat}
  {insn : Instruction Nat}

/-! ### Nodes that go -/

theorem stream_fork {target : Nat} (h : fork i target σ = (.ok (), σ')) :
    σ'.stream = σ.stream := by
  simp only [fork, bind_apply, recordEdge, modify_apply, ok_eq_ok, true_and] at h
  rw [← h]
  split <;> rfl

/-- **A branch in a loop stays**, and so does all the rest. -/
theorem stream_visit_of_isInside {condition : Condition} {target : Nat}
    (hx : σ.stream.instruction? i = some (.branch condition target))
    (hin : Loops.isInside loops σ.stream i) (h : Fold.visit loops i σ = (.ok (), σ')) :
    σ'.stream = σ.stream := by
  have hbranch : ∀ {τ}, branch loops i condition target σ = (.ok (), τ) →
      τ.stream = σ.stream := by
    intro τ hb
    rw [branch, bind_eq_ok] at hb
    obtain ⟨slots, ρ, hp, hb⟩ := hb
    obtain ⟨-, -, rfl⟩ := popMany_eq_ok.1 hp
    simp only [bind_apply, get_apply, hin, Bool.not_true, Bool.and_false, Bool.false_and] at hb
    have hfork := stream_fork hb
    exact hfork
  simp only [Fold.visit, bind_apply, get_apply, hx] at h
  rcases he : execute loops i (.branch condition target) σ with ⟨_ | ⟨⟩, τ⟩
  · simp [he] at h
  · simp only [he] at h
    have hstream := hbranch he
    split at h
    · cases h
      exact hstream
    · cases h
      exact hstream

/-- Only branches and jumps go with their own visit. -/
theorem Visit.isLive_or_transfer (h : Visit σ i insn σ') (hσ : Sound m i σ)
    (hi : σ.stream.isLive i) :
    σ'.stream.isLive i ∨ (∃ condition target, insn = .branch condition target) ∨
      ∃ last count, σ.stream.deleteRange i last = .ok (count, σ'.stream) := by
  cases h with
  | propagate hv =>
      left
      rwa [isLive_replace]
  | condense hc hk he hd =>
      left
      rw [isLive_replace, isLive_deleteAll hd]
      refine ⟨hi, fun hmem => ?_⟩
      have := (hσ.held.isLive_of_mem_sites hk i hmem).1
      omega
  | pass | take => exact .inr (.inl ⟨_, _, rfl⟩)
  | skip hp hr => exact .inr (.inr ⟨_, _, hr⟩)
  | _ => exact .inl hi

/-! ### Transfers back over the walk -/

/-- What led from behind the place `i` to a node in front of it still leads in front
of it. -/
structure Anchored (m : Method) (i : Nat) (s : CodeStream) : Prop where
  ahead_lt : ∀ {n insn t}, s.isLive n → m.code[n]? = some insn → t ∈ insn.targets → t < i →
    i ≤ n → s.ahead t < i

namespace Anchored

theorem start : Anchored m 0 s := ⟨fun _ _ _ ht => absurd ht (Nat.not_lt_zero _)⟩

/-- A node that something leads to is not passed over. -/
theorem pass (h : Anchored m i s) (htrim : Trimmed m i s) (hi : ¬ s.isLive i) :
    Anchored m (i + 1) s := by
  refine ⟨fun {n insn t} hn hx ht hti hin => ?_⟩
  rcases Nat.lt_succ_iff_lt_or_eq.1 hti with hlt | rfl
  · exact (h.ahead_lt hn hx ht hlt (by omega)).trans (Nat.lt_succ_self i)
  · exact absurd (htrim.target hn hx ht (Nat.le_refl _)) hi

/-- **A visit** leaves what leads back over the node in front of the next one. -/
theorem visit (h : Anchored m i σ.stream) (hσ : Sound m i σ) (hi : σ.stream.isLive i)
    (hx : σ.stream.instruction? i = some insn)
    (hv : Fold.visit (whole m).loops i σ = (.ok (), σ')) : Anchored m (i + 1) σ'.stream := by
  have hvisit := visit_eq_ok hx hv
  refine ⟨fun {n x t} hn hcode ht hti hin => ?_⟩
  have hnσ := hvisit.isLive_of_isLive hn
  have hlt := hσ.trimmed.lt_length hi
  rcases hvisit.isLive_or_transfer hσ hi with hlive | ⟨condition, target, rfl⟩ |
    ⟨last, count, hrange⟩
  · exact Nat.lt_succ_of_le (ahead_le_of_isLive (by omega) hlive)
  · -- The transfer makes a loop around the branch, which therefore stays.
    have hloop := Run.mem_loops hcode ht (by omega)
    have hinside : Loops.isInside (whole m).loops σ.stream i := by
      refine List.any_eq_true.2 ⟨_, hloop, ?_⟩
      rw [hσ.trimmed.position hlt, LoopExtent.contains, Bool.and_eq_true]
      exact ⟨decide_eq_true (Nat.le_of_lt_succ hti), decide_eq_true hin⟩
    rw [stream_visit_of_isInside hx hinside hv]
    exact Nat.lt_succ_of_le (ahead_le_of_isLive (by omega) hi)
  · rcases Nat.lt_succ_iff_lt_or_eq.1 hti with hti | rfl
    · have hbefore := h.ahead_lt hnσ hcode ht hti (by omega)
      rw [ahead_deleteRange hrange, if_neg (by omega)]
      omega
    · -- The run cannot go, since the transfer leads to its first node.
      have hle := (isLive_of_deleteRange hrange).2.2
      have hmem : t ∈ σ.stream.targets n := by
        rw [hσ.trimmed.thins.targets hnσ hcode]
        exact List.mem_map.2 ⟨t, ht, ahead_of_isLive hi⟩
      have hstays := targets_deleteRange hrange hn hmem hi
      exact absurd ⟨le_rfl, hle⟩ ((isLive_deleteRange hrange).1 hstays).2

end Anchored

/-- Wherever the pass gets, what leads back over it leads in front of it. -/
theorem Enters.anchored (hs : ofMethod m = .ok s) (h : Enters s n σ) :
    Sound m n σ ∧ σ.stream.isLive n ∧ Anchored m n σ.stream := by
  obtain ⟨-, rfl⟩ := ofMethod_eq_ok_iff.1 hs
  obtain ⟨τ, hτ, hanchored, hlive, rfl⟩ := h.induction (P := fun i τ => Anchored m i τ.stream) hs
    .start (fun hτ hi h => h.pass hτ.trimmed hi) fun {i τ τ' insn} hτ hi hx hv h => by
      have hstream : (τ.enter (whole m).loops i).stream = τ.stream := Run.stream_enter
      exact Anchored.visit (hstream ▸ h) hτ.enter (hstream ▸ hi) (hstream ▸ hx) hv
  have hstream : (τ.enter (whole m).loops n).stream = τ.stream := Run.stream_enter
  exact ⟨hτ.enter, hstream ▸ hlive, hstream ▸ hanchored⟩

/-! ### Known loops -/

/-- What leads back to a node that is entered led back to it from the start. -/
theorem Anchored.mem_loops {head : Nat} (h : Anchored m head σ.stream) (hσ : Sound m head σ)
    (hn : σ.stream.isLive n) (ht : head ∈ σ.stream.targets n) (hle : head ≤ n) :
    ⟨head, n, head, n⟩ ∈ (whole m).loops := by
  obtain ⟨insn, hcode⟩ := hσ.trimmed.thins.exists_code hn
  rw [hσ.trimmed.thins.targets hn hcode] at ht
  obtain ⟨t, ht, heq⟩ := List.mem_map.1 ht
  have htsize := lt_size_of_ahead_lt (hσ.trimmed.thins.target hn hcode ht)
  have htle : t ≤ head := heq ▸ le_ahead htsize.le
  have htge : head ≤ t := by
    by_contra hlt
    have := h.ahead_lt hn hcode ht (Nat.lt_of_not_le hlt) hle
    omega
  rw [← Nat.le_antisymm htle htge] at hle ⊢
  exact Run.mem_loops hcode ht hle

/-- **The loops stay exact at their heads.** Whenever the pass enters a node, every
transfer that leads back to it then is a loop with that head, and what the loops with
that head write is what is written by the nodes left between it and where one of
their tails stood. In the fresh stream, a slot changes around a node if and only if a
transfer leads back over the node and the slot is written in between. -/
theorem loops_exact_at_heads (hs : ofMethod m = .ok s) :
    (∀ {head σ}, Enters s head σ →
      (∀ n, σ.stream.isLive n → head ∈ σ.stream.targets n →
        σ.stream.position head ≤ σ.stream.position n →
        ⟨head, n, σ.stream.position head, σ.stream.position n⟩ ∈ s.loops) ∧
      ∀ slot, slot ∈ Loops.changedAtHead s.loops σ.stream head ↔
        ∃ e ∈ s.loops, e.head = head ∧
          σ.stream.WritesIn (σ.stream.position head) e.last slot) ∧
    ∀ n slot, Loops.changesAround s.loops s n slot ↔ ∃ source target, s.isLive source ∧
      target ∈ s.targets source ∧ s.position target ≤ s.position n ∧
      s.position n < s.position source ∧
      s.WritesIn (s.position target) (s.position source) slot := by
  obtain ⟨hclosed, rfl⟩ := ofMethod_eq_ok_iff.1 hs
  have hreached : Reached m (whole m) := .ofMethod hs
  refine ⟨fun {head σ} henters => ?_, fun n slot =>
    changesAround_iff hreached.isAscending hreached.isClosed⟩
  obtain ⟨hσ, hlive, hanchored⟩ := henters.anchored hs
  have hhead := hσ.trimmed.position (hσ.trimmed.lt_length hlive)
  refine ⟨fun n hn ht hle => ?_, fun slot =>
    mem_changedAtHead hσ.trimmed.isAscending hlive fun e => hσ.trimmed.last_le⟩
  rw [hhead, hσ.trimmed.position (hσ.trimmed.lt_length hn)] at hle ⊢
  exact hanchored.mem_loops hσ hn ht hle

/-- Two loops with their head at 5, behind a branch that is always taken. -/
def sharedHead : Method where
  code := [
    .const (.int 1), .branch (.zero .ne) 3, .increment 5 1,
    .const (.long 0), .store (.number .long) 1,
    .increment 0 (-1), .load (.number .int) 0, .branch (.zero .ne) 5,
    .const (.long 9), .store (.number .long) 1, .jump 5, .verbatim 0xb1 []]
  parameterSlots := 1

/-- When `sharedHead` enters its head, the branch in front of it is gone. The jump at 10
leads back there and makes a loop, in which both halves of a wide variable are written. -/
theorem loops_exact_at_heads_sharedHead :
    ofMethod sharedHead = .ok (whole sharedHead) ∧
      (∃ σ, Enters (whole sharedHead) 5 σ ∧ ¬ σ.stream.isLive 1 ∧ σ.stream.isLive 10 ∧
        5 ∈ σ.stream.targets 10 ∧ ⟨5, 10, 5, 10⟩ ∈ (whole sharedHead).loops ∧
        2 ∈ Loops.changedAtHead (whole sharedHead).loops σ.stream 5) ∧
      Loops.changesAround (whole sharedHead).loops (whole sharedHead) 6 2 := by
  have hs : ofMethod sharedHead = .ok (whole sharedHead) := rfl
  have henters : Enters (whole sharedHead) 5
      ((walk (whole sharedHead).loops (List.range 5) { stream := whole sharedHead }).2.enter
        (whole sharedHead).loops 5) :=
    ⟨List.range 5, List.range' 6 6, _, by decide +kernel,
      Steps.eq_ok_of_toOption (by decide +kernel), by decide +kernel, rfl⟩
  have hupper : (Instruction.store (.number .long) 1 : Instruction Nat).Writes 2 := .upperHalf rfl
  obtain ⟨σ, henters, hbranch, htail, htarget, hfive, hten, hstore, hnine, hinsn⟩ : ∃ σ,
      Enters (whole sharedHead) 5 σ ∧ ¬ σ.stream.isLive 1 ∧ σ.stream.isLive 10 ∧
      5 ∈ σ.stream.targets 10 ∧ σ.stream.position 5 = 5 ∧ σ.stream.position 10 = 10 ∧
      σ.stream.isLive 9 ∧ σ.stream.position 9 = 9 ∧
      σ.stream.instruction? 9 = some (.store (.number .long) 1) :=
    ⟨_, henters, by decide +kernel⟩
  obtain ⟨hheads, haround⟩ := loops_exact_at_heads hs
  obtain ⟨hback, hwritten⟩ := hheads henters
  have hloop := hback 10 htail htarget (by omega)
  rw [hfive, hten] at hloop
  refine ⟨hs, ⟨σ, henters, hbranch, htail, htarget, hloop, ?_⟩, ?_⟩
  · refine (hwritten 2).2 ⟨_, hloop, rfl, 9, _, hstore, ?_, ?_, hinsn, hupper⟩
    · rw [hfive, hnine]
      decide
    · rw [hnine]
      decide
  · exact (haround 6 2).2 ⟨10, 5, by decide +kernel, by decide +kernel, by decide +kernel,
      by decide +kernel, 9, _, by decide +kernel, by decide +kernel, by decide +kernel,
      by decide +kernel, hupper⟩

end JvmOptimizer.Fold
