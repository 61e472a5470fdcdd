import JvmOptimizer.Proofs.CodeStream.Method
import JvmOptimizer.Proofs.Fold.Locals

/-!
# Runs of the folding pass

The invariant that holds in front of every node of the walk. Behind that node
the stream is as the method was, except that a part right behind it may be
gone; what was deleted in front of it is not named by anything that is still to
come. The nodes that values on the simulated stack were pushed by are live and
all different.

`Sound.visit` is the step: one visit takes the invariant over one node. A `Run`
puts the states of a whole walk together.
-/

namespace JvmOptimizer.Fold

open Machine CodeStream

variable {m : Method} {i j n t id : Nat} {s s' : CodeStream} {σ σ' : State}
  {loops : List LoopExtent} {insn : Instruction Nat}

/-! ### The stream -/

/-- From `i` on the stream thins out the method by whole runs only. -/
structure Trimmed (m : Method) (i : Nat) (s : CodeStream) : Prop where
  thins : s.Thins m
  position : ∀ {n}, n < m.code.length → s.position n = n
  fresh : ∀ {n insn}, i ≤ n → m.code[n]? = some insn → insn.targets = [] →
    s.instruction? n = some insn
  target : ∀ {n insn t}, s.isLive n → m.code[n]? = some insn → t ∈ insn.targets → i ≤ t →
    s.isLive t
  entry : ∀ {h n}, h ∈ m.handlers → s.isLive n → h.start ≤ n → n < h.stop → i ≤ h.entry →
    s.isLive h.entry

namespace Trimmed

theorem whole (h : m.IsClosed) : Trimmed m 0 (whole m) where
  thins := thins_whole h
  position := position_whole
  fresh := by
    intro n insn _ hi _
    rw [instruction?_whole, hi]
  target := by
    intro n insn t _ hi ht _
    exact isLive_whole.2 (h.target (List.mem_of_getElem? hi) ht)
  entry := by
    intro h' n hmem _ _ _ _
    exact isLive_whole.2 (h.handler hmem).2

/-- Further along the walk less is asked of a stream. -/
theorem mono (h : Trimmed m i s) (hij : i ≤ j) : Trimmed m j s where
  thins := h.thins
  position := h.position
  fresh := fun hj => h.fresh (hij.trans hj)
  target := fun hn hi ht hj => h.target hn hi ht (hij.trans hj)
  entry := fun hmem hn h₁ h₂ hj => h.entry hmem hn h₁ h₂ (hij.trans hj)

theorem lt_length (h : Trimmed m i s) (hn : s.isLive n) : n < m.code.length := by
  rw [← h.thins.size]
  exact lt_size_of_isLive hn

/-- Behind `i` instructions are still those of the method. -/
theorem instruction (h : Trimmed m i s) (hin : i ≤ n) (hn : s.isLive n)
    (hi : m.code[n]? = some insn) : s.instruction? n = some (insn.mapTargets s.ahead) := by
  by_cases ht : insn.targets = []
  · rw [h.fresh hin hi ht, Instruction.mapTargets_of_targets_eq_nil ht]
  · exact h.thins.instruction_of_targets hn hi ht

/-- A node that has been visited may become another instruction without targets.
-/
theorem replace (h : Trimmed m j s) (hid : id < j) (hlt : id < m.code.length)
    (hs : s.targets id = []) (hi : insn.targets = []) : Trimmed m j (s.replace id insn) where
  thins := h.thins.replace (h.thins.size ▸ hlt) hs hi
  position := fun hn => by rw [position_replace, h.position hn]
  fresh := by
    intro n other hjn ho ht
    rw [instruction?_replace_of_ne (by omega), h.fresh hjn ho ht]
  target := by
    intro n other t hn ho ht hj
    rw [isLive_replace] at hn ⊢
    exact h.target hn ho ht hj
  entry := by
    intro r n hmem hn h₁ h₂ hj
    rw [isLive_replace] at hn ⊢
    exact h.entry hmem hn h₁ h₂ hj

/-- Nodes that have been visited may go. -/
theorem deleteAll {ids : List Nat} (h : Trimmed m j s) (hids : ∀ id ∈ ids, id < j)
    (hd : s.deleteAll ids = .ok s') : Trimmed m j s' where
  thins := h.thins.deleteAll hd
  position := fun hn => by rw [position_deleteAll hd, h.position hn]
  fresh := fun hj hi ht => instruction?_deleteAll hd (h.fresh hj hi ht) ht
  target := by
    intro n insn t hn hi ht hj
    rw [isLive_deleteAll hd] at hn ⊢
    exact ⟨h.target hn.1 hi ht hj, fun hmem => absurd (hids t hmem) (by omega)⟩
  entry := by
    intro r n hmem hn h₁ h₂ hj
    rw [isLive_deleteAll hd] at hn ⊢
    exact ⟨h.entry hmem hn.1 h₁ h₂ hj, fun hmem => absurd (hids _ hmem) (by omega)⟩

theorem deleteRange {first last count : Nat} (h : Trimmed m j s)
    (hd : s.deleteRange first last = .ok (count, s')) : Trimmed m j s' where
  thins := h.thins.deleteRange hd
  position := fun hn => by rw [position_deleteRange hd, h.position hn]
  fresh := fun hj hi ht => by rw [instruction?_deleteRange hd, h.fresh hj hi ht]
  target := by
    intro n insn t hn hi ht hj
    have hlive := ((isLive_deleteRange hd).1 hn).1
    have htlive := h.target hlive hi ht hj
    refine targets_deleteRange hd hn ?_ htlive
    rw [h.thins.targets hlive hi]
    exact List.mem_map.2 ⟨t, ht, ahead_of_isLive htlive⟩
  entry := by
    intro r n hmem hn h₁ h₂ hj
    have hlive := ((isLive_deleteRange hd).1 hn).1
    have hentry := h.entry hmem hlive h₁ h₂ hj
    have hrange := (h.thins.holds_of_covers hmem hlive h₁ h₂).1
    have heq : (s.range r).entry = r.entry := ahead_of_isLive hentry
    rw [← heq] at hentry ⊢
    exact entry_deleteRange hd hrange hentry

end Trimmed

/-! ### The operand stack -/

/-- A slot of the stack that a node has pushed. -/
def Pushed (stack : List Slot) (k : Nat) : Prop := ∃ slot ∈ stack, slot.site = some k

/-- The nodes that pushed values on the stack are live, lie in front of `i`, and
are all different. -/
structure Held (s : CodeStream) (i : Nat) (stack : List Slot) : Prop where
  live : ∀ {k}, Pushed stack k → k < i ∧ s.isLive k
  apart : stack.Pairwise fun a b => ∀ k, a.site = some k → b.site ≠ some k

namespace Held

variable {stack : List Slot} {k count : Nat}

theorem nil : Held s i [] where
  live := by
    rintro k ⟨slot, hmem, -⟩
    cases hmem
  apart := List.Pairwise.nil

/-- A value is held by the node that is visited. -/
theorem push {value : Option Value} (h : Held s i stack) (hi : s.isLive i) :
    Held s (i + 1) (⟨value, some i⟩ :: stack) where
  live := by
    rintro k ⟨slot, hmem, hk⟩
    rcases List.mem_cons.1 hmem with rfl | hmem
    · cases hk
      exact ⟨Nat.lt_succ_self i, hi⟩
    · obtain ⟨hlt, hlive⟩ := h.live ⟨slot, hmem, hk⟩
      exact ⟨by omega, hlive⟩
  apart := by
    refine List.pairwise_cons.2 ⟨fun slot hmem k hk hk' => ?_, h.apart⟩
    cases hk
    have := (h.live ⟨slot, hmem, hk'⟩).1
    omega

theorem pushUnknown (h : Held s i stack) : Held s i (Slot.unknown :: stack) where
  live := by
    rintro k ⟨slot, hmem, hk⟩
    rcases List.mem_cons.1 hmem with rfl | hmem
    · cases hk
    · exact h.live ⟨slot, hmem, hk⟩
  apart := by
    refine List.pairwise_cons.2 ⟨fun slot hmem k hk => ?_, h.apart⟩
    cases hk

/-- Values stay held while their nodes stay live. -/
theorem mono (h : Held s i stack) (hij : i ≤ j) (hlive : ∀ k, Pushed stack k → s'.isLive k) :
    Held s' j stack where
  live := fun hk => ⟨(h.live hk).1.trans_le hij, hlive _ hk⟩
  apart := h.apart

theorem drop (h : Held s i stack) : Held s i (stack.drop count) where
  live := by
    rintro k ⟨slot, hmem, hk⟩
    exact h.live ⟨slot, List.mem_of_mem_drop hmem, hk⟩
  apart := h.apart.sublist (List.drop_sublist _ _)

theorem map_keep (h : Held s i stack) : Held s i (stack.map Slot.keep) where
  live := by
    rintro k ⟨slot, hmem, hk⟩
    obtain ⟨slot, -, rfl⟩ := List.mem_map.1 hmem
    cases hk
  apart := by
    refine List.pairwise_map.2 (h.apart.imp fun _ k hk => ?_)
    cases hk

/-- What is taken from the stack was pushed by other nodes than what is left. -/
theorem not_pushed_drop (h : Held s i stack) (hk : Pushed (stack.take count) k) :
    ¬ Pushed (stack.drop count) k := by
  rintro ⟨slot', hmem', hk'⟩
  obtain ⟨slot, hmem, hk⟩ := hk
  have hapart := h.apart
  rw [← List.take_append_drop count stack, List.pairwise_append] at hapart
  exact hapart.2.2 slot hmem slot' hmem' k hk hk'

end Held

/-- The sites of known operands are those that pushed the top of the stack. -/
theorem mem_sites {stack : List Slot} {count k : Nat} {values : List Value} {sites : List Nat}
    (h : known? (operands count stack) = some (values, sites)) :
    k ∈ sites ↔ Pushed (stack.take count) k := by
  obtain ⟨-, -, hsites⟩ := known_operands h
  have hmem : k ∈ sites ↔ some k ∈ sites.map some := by simp
  rw [hmem, ← hsites, List.mem_map]
  simp only [List.mem_reverse, Pushed]

/-- Operands were pushed by nodes in front. -/
theorem Held.isLive_of_mem_sites {stack : List Slot} {count : Nat} {values : List Value}
    {sites : List Nat} (h : Held s i stack)
    (hk : known? (operands count stack) = some (values, sites)) :
    ∀ k ∈ sites, k < i ∧ s.isLive k := by
  intro k hmem
  obtain ⟨slot, hslot, heq⟩ := (mem_sites hk).1 hmem
  exact h.live ⟨slot, List.mem_of_mem_take hslot, heq⟩

/-! ### Visits -/

/-- What holds in front of the node `i`. -/
structure Sound (m : Method) (i : Nat) (σ : State) : Prop where
  trimmed : Trimmed m i σ.stream
  /-- The next live node, with nothing missing behind it. -/
  frontier : ∃ f, i ≤ f ∧ (i < f → σ.reachable) ∧
    ∀ n, i ≤ n → n < m.code.length → (σ.stream.isLive n ↔ f ≤ n)
  held : Held σ.stream i σ.stack
  locals : σ.locals.Functional
  edges : ∀ {e}, e ∈ σ.edges → e.2.Functional

/-- A visit deletes nodes that pushed values, a branch that control passes over, and runs
in front of a target. -/
theorem Visit.deletes (h : Visit σ i insn σ') (hn : σ.stream.isLive n)
    (hn' : ¬ σ'.stream.isLive n) :
    Pushed σ.stack n ∨ n = i ∧ insn.fallsThrough ∨
      ∃ target last, σ.stream.prev? target = some last ∧ i ≤ n ∧ n ≤ last := by
  have hpushed : ∀ {count values sites},
      known? (operands count σ.stack) = some (values, sites) → n ∈ sites → Pushed σ.stack n := by
    intro count values sites hk hmem
    obtain ⟨slot, hslot, heq⟩ := (mem_sites hk).1 hmem
    exact ⟨slot, List.mem_of_mem_take hslot, heq⟩
  cases h with
  | propagate hv =>
      rw [isLive_replace] at hn'
      exact absurd hn hn'
  | condense hc hk he hd =>
      rw [isLive_replace, isLive_deleteAll hd, not_and, not_not] at hn'
      exact .inl (hpushed hk (hn' hn))
  | pass hk he hd =>
      rw [isLive_deleteAll hd, not_and, not_not, List.mem_append, List.mem_singleton] at hn'
      exact (hn' hn).imp (hpushed hk) fun heq => .inl ⟨heq, rfl⟩
  | @take _ _ _ sites _ _ _ _ _ _ hk he hprev hr hd =>
      rw [isLive_deleteAll hd, isLive_deleteRange hr] at hn'
      by_cases hmem : n ∈ sites
      · exact .inl (hpushed hk hmem)
      · exact .inr (.inr ⟨_, _, hprev, not_not.1 fun hout => hn' ⟨⟨hn, hout⟩, hmem⟩⟩)
  | skip hprev hr =>
      rw [isLive_deleteRange hr] at hn'
      exact .inr (.inr ⟨_, _, hprev, not_not.1 fun hout => hn' ⟨hn, hout⟩⟩)
  | _ => exact absurd hn hn'

/-- A visit deletes no node in front but those that pushed values. -/
theorem Visit.isLive_of_not_pushed (h : Visit σ i insn σ') (hn : σ.stream.isLive n) (hni : n < i)
    (hp : ¬ Pushed σ.stack n) : σ'.stream.isLive n := by
  by_contra hn'
  rcases h.deletes hn hn' with hk | ⟨heq, -⟩ | ⟨target, last, -, hle, -⟩
  · exact hp hk
  · omega
  · omega

/-- The dead stay dead. -/
theorem Visit.isLive_of_isLive (h : Visit σ i insn σ') (hn : σ'.stream.isLive n) :
    σ.stream.isLive n := by
  cases h with
  | propagate hv =>
      rw [isLive_replace] at hn
      exact hn
  | condense hc hk he hd =>
      rw [isLive_replace, isLive_deleteAll hd] at hn
      exact hn.1
  | pass hk he hd => exact ((isLive_deleteAll hd).1 hn).1
  | take hk he hprev hr hd =>
      rw [isLive_deleteAll hd, isLive_deleteRange hr] at hn
      exact hn.1.1
  | skip hprev hr => exact ((isLive_deleteRange hr).1 hn).1
  | _ => exact hn

theorem Pushed.cons {slot : Slot} {stack : List Slot} {k : Nat} (h : Pushed (slot :: stack) k) :
    slot.site = some k ∨ Pushed stack k := by
  obtain ⟨other, hmem, hk⟩ := h
  rcases List.mem_cons.1 hmem with rfl | hmem
  · exact .inl hk
  · exact .inr ⟨other, hmem, hk⟩

theorem Pushed.of_drop {stack : List Slot} {count k : Nat} (h : Pushed (stack.drop count) k) :
    Pushed stack k := by
  obtain ⟨slot, hmem, hk⟩ := h
  exact ⟨slot, List.mem_of_mem_drop hmem, hk⟩

theorem not_pushed_nil {k : Nat} : ¬ Pushed [] k := by
  rintro ⟨slot, hmem, -⟩
  cases hmem

theorem not_pushed_map_keep {stack : List Slot} {k : Nat} : ¬ Pushed (stack.map Slot.keep) k := by
  rintro ⟨slot, hmem, hk⟩
  obtain ⟨slot, -, rfl⟩ := List.mem_map.1 hmem
  cases hk

/-- On the stack there are values of before and that of the visited node. -/
theorem Visit.pushed (h : Visit σ i insn σ') {k : Nat} (hk : Pushed σ'.stack k) :
    Pushed σ.stack k ∨ k = i := by
  cases h with
  | const | load | propagate =>
      rcases hk.cons with heq | hk
      · exact .inr (Option.some.inj heq).symm
      · exact .inl hk
  | condense =>
      rcases hk.cons with heq | hk
      · exact .inr (Option.some.inj heq).symm
      · exact .inl hk.of_drop
  | compute =>
      rcases hk.cons with heq | hk
      · cases heq
      · exact .inl hk.of_drop
  | store | pass | take | switch => exact .inl hk.of_drop
  | branch => exact absurd hk not_pushed_map_keep
  | increment | jump | skip => exact .inl hk
  | verbatim => exact absurd hk not_pushed_nil

/-! ### What is known on the edges -/

section Edges

variable {P : Locals → Prop}

/-- What comes in at a node was known before it or at the origin of an edge. -/
theorem forall_mem_incoming (hlocals : P σ.locals) (hedges : ∀ {e}, e ∈ σ.edges → P e.2) :
    ∀ l ∈ σ.incoming i, P l := by
  intro l hl
  rcases List.mem_append.1 hl with hl | hl
  · split at hl
    · rw [List.mem_singleton.1 hl]
      exact hlocals
    · cases hl
  · obtain ⟨e, he, rfl⟩ := List.mem_map.1 hl
    exact hedges (List.mem_filter.1 he).1

theorem forall_mem_withEdges (hlocals : P σ.locals) (hedges : ∀ {e}, e ∈ σ.edges → P e.2)
    {targets : List Nat} {e : Nat × Locals} (he : e ∈ σ.withEdges i targets) : P e.2 := by
  rcases List.mem_append.1 he with he | he
  · exact hedges he
  · obtain ⟨t, -, rfl⟩ := List.mem_map.1 he
    exact hlocals

end Edges

namespace Sound

theorem functional_merged (h : Sound m i σ) :
    (if σ.stream.isHandlerEntry i then {} else Locals.meet (σ.incoming i)).Functional := by
  split
  · exact List.Pairwise.nil
  · exact Locals.Functional.meet (forall_mem_incoming h.locals h.edges)

/-- What is known where paths merge. -/
theorem mem_mergedLocals (h : Sound m i σ) {e : Nat × Value} :
    e ∈ (σ.mergedLocals loops i).entries ↔
      e ∈ (if σ.stream.isHandlerEntry i then {} else Locals.meet (σ.incoming i)).entries ∧
        (Loops.isHead loops i → ∀ slot ∈ Loops.changedAtHead loops σ.stream i,
          Locals.Avoids e slot) := by
  simp only [State.mergedLocals]
  split
  · rename_i hhead
    rw [h.functional_merged.mem_forgetAll]
    exact and_congr_right fun _ => ⟨fun h _ => h, fun h => h hhead⟩
  · rename_i hhead
    simp [hhead]

/-- Entering a node merges what is known and concerns the stream in no way. -/
theorem enter (h : Sound m i σ) : Sound m i (σ.enter loops i) := by
  unfold State.enter
  split
  · obtain ⟨f, hif, -, hlive⟩ := h.frontier
    refine ⟨h.trimmed, ⟨f, hif, fun _ => rfl, hlive⟩, Held.nil, ?_, fun he => ?_⟩
    · simp only [State.mergedLocals]
      split
      · exact h.functional_merged.forgetAll
      · exact h.functional_merged
    · exact h.edges (List.mem_filter.1 he).1
  · exact h

theorem reachable_enter : (σ.enter loops i).reachable := by
  unfold State.enter
  split
  · rfl
  · rename_i h
    simp only [State.isMerge, Bool.or_eq_true, Bool.not_eq_true', not_or] at h
    simpa using h.2

/-- Where a node is live, so is everything behind it. -/
theorem isLive_of_le (h : Sound m i σ) (hi : σ.stream.isLive i) (hin : i ≤ n)
    (hn : n < m.code.length) : σ.stream.isLive n := by
  obtain ⟨f, -, -, hlive⟩ := h.frontier
  have hf := (hlive i le_rfl (h.trimmed.lt_length hi)).1 hi
  exact (hlive n hin hn).2 (hf.trans hin)

/-- A run that a transfer skips ends right in front of its target. -/
theorem succ_last_eq {last count : Nat} (h : Sound m i σ) (hi : σ.stream.isLive i)
    (ht : t < m.code.length) (hp : σ.stream.prev? (σ.stream.ahead t) = some last)
    (hr : σ.stream.deleteRange i last = .ok (count, s')) : i < t ∧ last + 1 = t := by
  obtain ⟨-, hlast, -, hbetween⟩ := prev?_eq_some_iff.1 hp
  have hle := (isLive_of_deleteRange hr).2.2
  have hit : i < t := by
    by_contra hge
    have := ahead_le_of_isLive (Nat.le_of_not_lt hge) hi
    omega
  have hlive : ∀ k, i ≤ k → k < m.code.length → σ.stream.isLive k := fun k => h.isLive_of_le hi
  rw [ahead_of_isLive (hlive t hit.le ht)] at hlast hbetween
  refine ⟨hit, ?_⟩
  by_contra hne
  exact hbetween (t - 1) (by omega) (by omega) (hlive (t - 1) (by omega) (by omega))

/-- A visit edits what lies in front of the next node, and deletes a run behind it
at most. -/
theorem trimmed_visit (h : Sound m i σ) (hi : σ.stream.isLive i)
    (hx : σ.stream.instruction? i = some insn) (hv : Visit σ i insn σ') :
    Trimmed m (i + 1) σ'.stream := by
  have hlt := h.trimmed.lt_length hi
  have htrim := h.trimmed.mono (Nat.le_succ i)
  have hsites : ∀ {count values sites},
      known? (operands count σ.stack) = some (values, sites) → ∀ k ∈ sites, k < i + 1 := by
    intro count values sites hk k hmem
    exact (h.held.isLive_of_mem_sites hk k hmem).1.trans (Nat.lt_succ_self i)
  cases hv with
  | propagate hv =>
      exact htrim.replace (Nat.lt_succ_self i) hlt (targets_of_instruction? hx) rfl
  | condense hc hk he hd =>
      have ht : insn.targets = [] := targets_of_computation? hc
      refine (htrim.deleteAll (hsites hk) hd).replace (Nat.lt_succ_self i) hlt ?_ rfl
      rw [targets_of_instruction? (instruction?_deleteAll hd hx ht), ht]
  | pass hk he hd =>
      refine htrim.deleteAll (fun k hmem => ?_) hd
      rcases List.mem_append.1 hmem with hmem | hmem
      · exact hsites hk k hmem
      · rw [List.mem_singleton.1 hmem]
        exact Nat.lt_succ_self i
  | take hk he hprev hr hd => exact (htrim.deleteRange hr).deleteAll (hsites hk) hd
  | skip hprev hr => exact htrim.deleteRange hr
  | _ => exact htrim

/-- After a visit the nodes ahead are live from some frontier on: the next node,
or the target of a transfer that went with all that it skips. -/
theorem frontier_visit (h : Sound m i σ) (hr : σ.reachable) (hi : σ.stream.isLive i)
    (hv : Visit σ i insn σ') :
    ∃ f, i + 1 ≤ f ∧ (i + 1 < f → σ'.reachable) ∧
      ∀ n, i + 1 ≤ n → n < m.code.length → (σ'.stream.isLive n ↔ f ≤ n) := by
  have hall : ∀ n, i + 1 ≤ n → n < m.code.length → σ.stream.isLive n :=
    fun n hin hn => h.isLive_of_le hi (by omega) hn
  have hnext : (∀ n, i + 1 ≤ n → n < m.code.length → σ'.stream.isLive n) →
      ∃ f, i + 1 ≤ f ∧ (i + 1 < f → σ'.reachable) ∧
        ∀ n, i + 1 ≤ n → n < m.code.length → (σ'.stream.isLive n ↔ f ≤ n) :=
    fun hlive => ⟨i + 1, le_rfl, fun hlt => absurd hlt (lt_irrefl _),
      fun n hin hn => ⟨fun _ => hin, fun _ => hlive n hin hn⟩⟩
  -- Operands lie in front of the node, so their deletion leaves what is ahead alone.
  have hsites : ∀ {count values sites n},
      known? (operands count σ.stack) = some (values, sites) → i + 1 ≤ n → n ∉ sites := by
    intro count values sites n hk hin hmem
    have := (h.held.isLive_of_mem_sites hk n hmem).1
    omega
  cases hv with
  | propagate hv =>
      refine hnext fun n hin hn => ?_
      rw [isLive_replace]
      exact hall n hin hn
  | condense hc hk he hd =>
      refine hnext fun n hin hn => ?_
      rw [isLive_replace, isLive_deleteAll hd]
      exact ⟨hall n hin hn, hsites hk hin⟩
  | pass hk he hd =>
      refine hnext fun n hin hn => ?_
      rw [isLive_deleteAll hd, List.mem_append, not_or, List.mem_singleton]
      exact ⟨hall n hin hn, hsites hk hin, by omega⟩
  | @take _ _ _ _ last _ _ _ _ _ hk he hprev hrange hd =>
      -- The run that goes starts at the node itself.
      have hle := (isLive_of_deleteRange hrange).2.2
      refine ⟨last + 1, by omega, fun _ => hr, fun n hin hn => ?_⟩
      rw [isLive_deleteAll hd, isLive_deleteRange hrange]
      constructor
      · rintro ⟨⟨-, hout⟩, -⟩
        omega
      · intro hlast
        exact ⟨⟨hall n hin hn, by omega⟩, hsites hk hin⟩
  | @skip _ last _ _ _ _ _ hprev hrange =>
      have hle := (isLive_of_deleteRange hrange).2.2
      refine ⟨last + 1, by omega, fun _ => hr, fun n hin hn => ?_⟩
      rw [isLive_deleteRange hrange]
      constructor
      · rintro ⟨-, hout⟩
        omega
      · intro hlast
        exact ⟨hall n hin hn, by omega⟩
  | _ => exact hnext hall

/-- After a visit each site on the stack is live and lies in front of the next
node. -/
theorem held_visit (h : Sound m i σ) (hi : σ.stream.isLive i) (hv : Visit σ i insn σ') :
    Held σ'.stream (i + 1) σ'.stack := by
  have hheld : Held σ.stream (i + 1) σ.stack :=
    h.held.mono (Nat.le_succ i) fun k hk => (h.held.live hk).2
  -- What is left of the stack behind a deletion of its operands.
  have hrest : ∀ {count values sites},
      known? (operands count σ.stack) = some (values, sites) →
      ∀ k, Pushed (σ.stack.drop count) k → σ.stream.isLive k ∧ k ∉ sites ∧ k < i := by
    intro count values sites hk k hpushed
    obtain ⟨hlt, hlive⟩ := h.held.live hpushed.of_drop
    exact ⟨hlive, fun hmem => h.held.not_pushed_drop ((mem_sites hk).1 hmem) hpushed, hlt⟩
  have hself : ∀ {count values sites},
      known? (operands count σ.stack) = some (values, sites) → i ∉ sites := by
    intro count values sites hk hmem
    have := (h.held.isLive_of_mem_sites hk i hmem).1
    omega
  cases hv with
  | const | load => exact h.held.push hi
  | propagate hv =>
      refine (h.held.push hi).mono le_rfl fun k hk => ?_
      rw [isLive_replace]
      exact ((h.held.push hi).live hk).2
  | store hs => exact hheld.drop
  | increment => exact hheld
  | compute hc hs => exact hheld.drop.pushUnknown
  | condense hc hk he hd =>
      refine Held.push (h.held.drop.mono le_rfl fun k hp => ?_) ?_
      · obtain ⟨hlive, hnot, -⟩ := hrest hk k hp
        rw [isLive_replace, isLive_deleteAll hd]
        exact ⟨hlive, hnot⟩
      · rw [isLive_replace, isLive_deleteAll hd]
        exact ⟨hi, hself hk⟩
  | branch hs => exact hheld.drop.map_keep
  | pass hk he hd =>
      refine hheld.drop.mono le_rfl fun k hp => ?_
      obtain ⟨hlive, hnot, hlt⟩ := hrest hk k hp
      rw [isLive_deleteAll hd, List.mem_append, not_or, List.mem_singleton]
      exact ⟨hlive, hnot, by omega⟩
  | take hk he hprev hr hd =>
      refine hheld.drop.mono le_rfl fun k hp => ?_
      obtain ⟨hlive, hnot, hlt⟩ := hrest hk k hp
      rw [isLive_deleteAll hd, isLive_deleteRange hr]
      exact ⟨⟨hlive, by omega⟩, hnot⟩
  | jump => exact hheld
  | skip hprev hr =>
      refine hheld.mono le_rfl fun k hp => ?_
      obtain ⟨hlt, hlive⟩ := h.held.live hp
      rw [isLive_deleteRange hr]
      exact ⟨hlive, by omega⟩
  | switch hs => exact hheld.drop
  | verbatim hs => exact Held.nil

/-- **A visit takes the invariant over a node.** -/
theorem visit (h : Sound m i σ) (hr : σ.reachable) (hi : σ.stream.isLive i)
    (hx : σ.stream.instruction? i = some insn) (hv : Visit σ i insn σ') :
    Sound m (i + 1) σ' := by
  refine ⟨h.trimmed_visit hi hx hv, h.frontier_visit hr hi hv, h.held_visit hi hv, ?_, ?_⟩
  · cases hv with
    | store => exact h.locals.stored
    | increment => exact h.locals.incremented
    | _ => exact h.locals
  · cases hv with
    | branch | jump | switch => exact forall_mem_withEdges h.locals h.edges
    | _ => exact h.edges

/-- A node that is gone is passed over. -/
theorem pass (h : Sound m i σ) (hi : ¬ σ.stream.isLive i) (hlt : i < m.code.length) :
    Sound m (i + 1) σ := by
  obtain ⟨f, hif, hr, hlive⟩ := h.frontier
  have hf : i < f := by
    by_contra hle
    exact hi ((hlive i le_rfl hlt).2 (Nat.le_of_not_lt hle))
  refine ⟨h.trimmed.mono (Nat.le_succ i), ⟨f, hf, fun _ => hr hf, fun n hin => hlive n (by omega)⟩,
    h.held.mono (Nat.le_succ i) fun k hk => (h.held.live hk).2, h.locals, h.edges⟩

end Sound

theorem sound_start (h : m.IsClosed) : Sound m 0 { stream := whole m } :=
  ⟨Trimmed.whole h, ⟨0, le_rfl, nofun, fun n _ hn =>
    ⟨fun _ => Nat.zero_le n, fun _ => isLive_whole.2 hn⟩⟩, Held.nil, List.Pairwise.nil, nofun⟩

/-! ### Whole runs -/

/-- A successful run of the pass over a method: the states in front of its
nodes. -/
structure Run (m : Method) where
  closed : m.IsClosed
  before : Nat → State
  start : before 0 = { stream := whole m }
  pass : ∀ {i}, ¬ (before i).stream.isLive i → before (i + 1) = before i
  visit : ∀ {i insn}, i < m.code.length → (before i).stream.isLive i →
    (before i).stream.instruction? i = some insn →
    Visit ((before i).enter (whole m).loops i) i insn (before (i + 1))

namespace Run

variable (R : Run m)

/-- The state on arrival at a node. -/
def arrival (i : Nat) : State := (R.before i).enter (whole m).loops i

/-- The stream in the end. -/
def final : CodeStream := (R.before m.code.length).stream

@[simp]
theorem stream_enter : (σ.enter loops i).stream = σ.stream := by
  unfold State.enter
  split <;> rfl

theorem exists_instruction (h : (R.before i).stream.isLive i) :
    ∃ insn, (R.before i).stream.instruction? i = some insn :=
  exists_instruction_of_lt (lt_size_of_isLive h)

/-- **The invariant holds along the run.** -/
theorem sound (h : i ≤ m.code.length) : Sound m i (R.before i) := by
  induction i with
  | zero =>
      rw [R.start]
      exact sound_start R.closed
  | succ i ih =>
      have hs := ih (by omega)
      by_cases hi : (R.before i).stream.isLive i
      · obtain ⟨insn, hx⟩ := R.exists_instruction hi
        have harrival : Sound m i (R.arrival i) := hs.enter
        have hstream : (R.arrival i).stream = (R.before i).stream := stream_enter
        exact harrival.visit Sound.reachable_enter (hstream ▸ hi) (hstream ▸ hx) (R.visit h hi hx)
      · rw [R.pass hi]
        exact hs.pass hi h

end Run

section Walk

open Steps

/-- The states of a walk. -/
def states (m : Method) : Nat → State
  | 0 => { stream := whole m }
  | i + 1 =>
      if (states m i).stream.isLive i then
        (Fold.visit (whole m).loops i ((states m i).enter (whole m).loops i)).2
      else
        states m i

theorem walk_range {count : Nat}
    (h : walk (whole m).loops (List.range count) { stream := whole m } = (.ok (), σ)) :
    σ = states m count ∧ ∀ i < count, (states m i).stream.isLive i →
      Fold.visit (whole m).loops i ((states m i).enter (whole m).loops i) =
        (.ok (), states m (i + 1)) := by
  induction count generalizing σ with
  | zero =>
      cases h
      exact ⟨rfl, nofun⟩
  | succ count ih =>
      rw [walk, List.range_succ, forM_append, bind_eq_ok] at h
      obtain ⟨⟨⟩, τ, hw, h⟩ := h
      obtain ⟨rfl, hall⟩ := ih hw
      rw [forM_cons, forM_nil, bind_eq_ok] at h
      obtain ⟨⟨⟩, ρ, hv, h⟩ := h
      cases h
      simp only [bind_apply, get_apply] at hv
      have hstep : σ = states m (count + 1) ∧ ((states m count).stream.isLive count →
          Fold.visit (whole m).loops count ((states m count).enter (whole m).loops count) =
            (.ok (), states m (count + 1))) := by
        rw [states]
        by_cases hlive : (states m count).stream.isLive count
        · simp only [hlive, if_true, bind_apply, modify_apply] at hv
          rw [if_pos hlive, hv]
          exact ⟨rfl, fun _ => rfl⟩
        · simp only [hlive, Bool.false_eq_true, if_false, pure_apply, ok_eq_ok, true_and] at hv
          rw [if_neg hlive, hv]
          exact ⟨rfl, fun h => absurd (hv ▸ h) hlive⟩
      refine ⟨hstep.1, fun i hi hlive => ?_⟩
      rcases Nat.lt_succ_iff_lt_or_eq.1 hi with hlt | rfl
      · exact hall i hlt hlive
      · exact hstep.2 hlive

/-- **Induction along the walk.** What holds at the start, and is kept by passing
over a dead node and by visiting a live one, holds in front of every node up to which
all visits succeed. -/
theorem states_induction {P : Nat → State → Prop} {count : Nat} (hclosed : m.IsClosed)
    (hcount : count ≤ m.code.length)
    (hall : ∀ i < count, (states m i).stream.isLive i →
      Fold.visit (whole m).loops i ((states m i).enter (whole m).loops i) =
        (.ok (), states m (i + 1)))
    (start : P 0 { stream := whole m })
    (pass : ∀ {i σ}, Sound m i σ → ¬ σ.stream.isLive i → P i σ → P (i + 1) σ)
    (visit : ∀ {i σ σ' insn}, Sound m i σ → σ.stream.isLive i →
      σ.stream.instruction? i = some insn →
      Fold.visit (whole m).loops i (σ.enter (whole m).loops i) = (.ok (), σ') →
      P i σ → P (i + 1) σ') :
    Sound m count (states m count) ∧ P count (states m count) := by
  induction count with
  | zero => exact ⟨sound_start hclosed, start⟩
  | succ i ih =>
      obtain ⟨hsound, hP⟩ := ih (by omega) fun k hk => hall k (by omega)
      by_cases hlive : (states m i).stream.isLive i
      · obtain ⟨insn, hx⟩ := exists_instruction_of_lt (lt_size_of_isLive hlive)
        have hvisit := hall i (Nat.lt_succ_self i) hlive
        have hstream : ((states m i).enter (whole m).loops i).stream = (states m i).stream :=
          Run.stream_enter
        refine ⟨?_, visit hsound hlive hx hvisit hP⟩
        exact hsound.enter.visit Sound.reachable_enter (hstream ▸ hlive) (hstream ▸ hx)
          (visit_eq_ok (hstream ▸ hx) hvisit)
      · rw [show states m (i + 1) = states m i from if_neg hlive]
        exact ⟨hsound.pass hlive hcount, pass hsound hlive hP⟩

/-- The pass over a stream **enters** a node in a state: it has got over all nodes
in front without an error, the node is still live, and the state is the one on
arrival there. Whether the pass gets to its end is left open. -/
def Enters (s : CodeStream) (n : Nat) (σ : State) : Prop :=
  ∃ front back τ, s.ids = front ++ n :: back ∧
    walk s.loops front { stream := s } = (.ok (), τ) ∧ τ.stream.isLive n ∧
    σ = τ.enter s.loops n

theorem eq_range_of_ids_whole {front back : List Nat}
    (h : (whole m).ids = front ++ n :: back) : n < m.code.length ∧ front = List.range n := by
  rw [ids_whole, List.range_eq_range', List.range'_eq_append_iff] at h
  obtain ⟨k, hk, rfl, hback⟩ := h
  obtain ⟨hpos, hhead, -⟩ := List.range'_eq_cons_iff.1 hback.symm
  obtain rfl : k = n := by omega
  exact ⟨by omega, List.range_eq_range'.symm⟩

/-- What the walk keeps holds in front of every node that is entered. -/
theorem Enters.induction {P : Nat → State → Prop} (hs : ofMethod m = .ok s) (h : Enters s n σ)
    (start : P 0 { stream := s })
    (pass : ∀ {i σ}, Sound m i σ → ¬ σ.stream.isLive i → P i σ → P (i + 1) σ)
    (visit : ∀ {i σ σ' insn}, Sound m i σ → σ.stream.isLive i →
      σ.stream.instruction? i = some insn →
      Fold.visit s.loops i (σ.enter s.loops i) = (.ok (), σ') → P i σ → P (i + 1) σ') :
    ∃ τ, Sound m n τ ∧ P n τ ∧ τ.stream.isLive n ∧ σ = τ.enter s.loops n := by
  obtain ⟨hclosed, rfl⟩ := ofMethod_eq_ok_iff.1 hs
  obtain ⟨front, back, τ, hids, hw, hlive, rfl⟩ := h
  obtain ⟨hn, rfl⟩ := eq_range_of_ids_whole hids
  obtain ⟨rfl, hall⟩ := walk_range hw
  obtain ⟨hsound, hP⟩ := states_induction hclosed hn.le hall start pass visit
  exact ⟨_, hsound, hP, hlive, rfl⟩

/-- The run of a walk in which every visit succeeds. -/
def Run.ofStates (hclosed : m.IsClosed)
    (h : ∀ i < m.code.length, (states m i).stream.isLive i →
      Fold.visit (whole m).loops i ((states m i).enter (whole m).loops i) =
        (.ok (), states m (i + 1))) : Run m where
  closed := hclosed
  before := states m
  start := rfl
  pass := fun hi => if_neg hi
  visit := by
    intro i insn hlt hi hx
    refine visit_eq_ok ?_ (h i hlt hi)
    rwa [Run.stream_enter]

/-- A pass that succeeds visits every node that is still there when its turn comes. -/
theorem fold_eq_ok {stats : Stats} (hs : ofMethod m = .ok s)
    (hf : s.fold s.loops = (.ok stats, s')) :
    m.IsClosed ∧
    (∀ i < m.code.length, (states m i).stream.isLive i →
      Fold.visit (whole m).loops i ((states m i).enter (whole m).loops i) =
        (.ok (), states m (i + 1))) ∧
    stats = (states m m.code.length).stats ∧
    s' = (states m m.code.length).stream.renumber := by
  obtain ⟨hclosed, rfl⟩ := ofMethod_eq_ok_iff.1 hs
  rw [CodeStream.fold, ids_whole] at hf
  rcases hw : walk (whole m).loops (List.range m.code.length) { stream := whole m } with ⟨r, σ⟩
  rw [hw] at hf
  cases r with
  | error e => cases hf
  | ok _ =>
      cases hf
      obtain ⟨rfl, hall⟩ := walk_range hw
      exact ⟨hclosed, hall, rfl, rfl⟩

/-- **A pass that succeeds is a run.** -/
theorem exists_run {stats : Stats} (hs : ofMethod m = .ok s)
    (hf : s.fold s.loops = (.ok stats, s')) : ∃ R : Run m, s' = R.final.renumber := by
  obtain ⟨hclosed, hall, -, rfl⟩ := fold_eq_ok hs hf
  exact ⟨.ofStates hclosed hall, rfl⟩

end Walk

end JvmOptimizer.Fold
