import JvmOptimizer.Proofs.DeadStore.Edit

/-!
# Why a store is dead

In a round the pass looks at the stream `before` it. Positions stay as they are
until the round is over, while the stream gets thinner. From a position on,
control stays behind the position that `reentry` gives: a transfer to an earlier
place is the tail of a loop, and an exception that is thrown there finds a
handler whose range reaches that far. So a slot that is not read from there on
is not read any more.
-/

namespace JvmOptimizer.DeadStore

open Machine CodeStream

/-! ### Reentry -/

section Reentry

variable {s : CodeStream} {loops : List LoopExtent} {position : Nat}

theorem le_foldl_min_iff {l : List Nat} {n k : Nat} :
    k ≤ l.foldl min n ↔ k ≤ n ∧ ∀ x ∈ l, k ≤ x := by
  induction l generalizing n with
  | nil => simp
  | cons a l ih =>
      rw [List.foldl_cons, ih, Nat.le_min, List.forall_mem_cons, and_assoc]

/-- What bounds the places that one transfer leads to. -/
theorem le_reentryStep_iff {lowest k : Nat} :
    k ≤ reentryStep s loops lowest ↔ k ≤ lowest ∧
      (∀ x, (∃ e ∈ loops, lowest ≤ s.position e.tail ∧ s.position e.head = x) → k ≤ x) ∧
      ∀ r ∈ s.handlers, r.stop.all (lowest < s.position ·) → k ≤ s.position r.entry := by
  rw [reentryStep, le_foldl_min_iff]
  refine and_congr_right fun _ => ?_
  simp only [List.mem_append, List.mem_map, List.mem_filter, decide_eq_true_eq]
  constructor
  · intro h
    refine ⟨?_, fun r hr hstop => h _ (.inr ⟨r, ⟨hr, hstop⟩, rfl⟩)⟩
    rintro x ⟨e, he, hle, rfl⟩
    exact h _ (.inl ⟨e, ⟨he, hle⟩, rfl⟩)
  · rintro ⟨hloops, hhandlers⟩ x (⟨e, ⟨he, hle⟩, rfl⟩ | ⟨r, ⟨hr, hstop⟩, rfl⟩)
    · exact hloops _ ⟨e, he, hle, rfl⟩
    · exact hhandlers r hr hstop

/-- Re-entry goes up the stream only. -/
theorem reentry_le : reentry s loops position ≤ position := by
  fun_induction reentry s loops position with
  | case1 position lowest hlt ih => exact ih.trans hlt.le
  | case2 position lowest hge => exact le_rfl

/-- From the place of reentry no transfer leads further back. -/
theorem reentryStep_reentry :
    reentryStep s loops (reentry s loops position) = reentry s loops position := by
  fun_induction reentry s loops position with
  | case1 position lowest hlt ih => exact ih
  | case2 position lowest hge =>
      exact Nat.le_antisymm (reentryStep_le s loops position) (Nat.le_of_not_lt hge)

/-- A loop whose tail is behind the point of re-entry has its head there too, as
the iteration has come to rest. -/
theorem reentry_le_head {e : LoopExtent} (he : e ∈ loops)
    (ht : reentry s loops position ≤ s.position e.tail) :
    reentry s loops position ≤ s.position e.head :=
  (le_reentryStep_iff.1 reentryStep_reentry.ge).2.1 _ ⟨e, he, ht, rfl⟩

/-- A handler whose range ends behind the point of re-entry has its entry there
too. -/
theorem reentry_le_entry {r : HandlerRange} (hr : r ∈ s.handlers)
    (ht : ∀ k, r.stop = some k → reentry s loops position < s.position k) :
    reentry s loops position ≤ s.position r.entry := by
  refine (le_reentryStep_iff.1 reentryStep_reentry.ge).2.2 r hr ?_
  cases hs : r.stop with
  | none => rfl
  | some k => exact decide_eq_true (ht k hs)

end Reentry

/-! ### Candidates -/

/-- What makes a store a candidate in the stream before the round. -/
structure Last (before : CodeStream) (c : Candidate) : Prop where
  live : before.isLive c.store
  store : ∃ kind index, before.instruction? c.store = some (.store kind index) ∧
    index.toNat = c.slot
  reads : ∀ {n}, before.isLive n → c.store < n → ¬ reads before c.slot n
  producer : ∀ {p}, c.producer = some p →
    before.prev? c.store = some p ∧ isPurePush before p

variable {before s : CodeStream} {c : Candidate} {slot n : Nat}

theorem storedSlot?_eq_some_iff : storedSlot? s n = some slot ↔
    ∃ kind index, s.instruction? n = some (.store kind index) ∧ index.toNat = slot := by
  unfold storedSlot?
  split
  · rename_i kind index hi
    rw [hi]
    constructor
    · intro h
      exact ⟨kind, index, rfl, Option.some.inj h⟩
    · rintro ⟨kind, index, heq, rfl⟩
      cases heq
      rfl
  · rename_i hi
    constructor
    · intro h
      cases h
    · rintro ⟨kind, index, heq, -⟩
      exact absurd heq (hi kind index)

theorem reads_iff : reads s slot n ↔
    ∃ insn, s.instruction? n = some insn ∧ slot ∈ insn.readSlots := by
  unfold reads
  cases s.instruction? n <;> simp

/-- Searched from the end, the last node is found. -/
theorem le_of_find?_reverse_ids {P : Nat → Bool} {id : Nat} (h : s.ids.reverse.find? P = some id)
    (hn : s.isLive n) (hP : P n) : n ≤ id := by
  obtain ⟨-, later, earlier, heq, hnone⟩ := List.find?_eq_some_iff_append.1 h
  have hsorted : s.ids.reverse.Pairwise (· > ·) := List.pairwise_reverse.2 pairwise_ids
  have hmem : n ∈ s.ids.reverse := by simpa using hn
  rw [heq] at hsorted hmem
  rw [List.pairwise_append, List.pairwise_cons] at hsorted
  rcases List.mem_append.1 hmem with hmem | hmem
  · have hnot := hnone n hmem
    simp [hP] at hnot
  · rcases List.mem_cons.1 hmem with rfl | hmem
    · exact le_rfl
    · exact (hsorted.2.1.1 n hmem).le

/-- A candidate is the last store to its slot, and no read is behind it. -/
theorem last_of_candidate? (h : candidate? before slot = some c) :
    c.slot = slot ∧ Last before c := by
  unfold candidate? at h
  split at h
  · rename_i id hid
    split at h
    · cases h
    · rename_i hreads
      cases h
      refine ⟨rfl, ?_⟩
      have hmem : id ∈ before.ids := by simpa using List.mem_of_find?_eq_some hid
      have hfound := List.find?_some hid
      simp only [hreads, Bool.or_false, decide_eq_true_eq] at hfound
      refine ⟨mem_ids.1 hmem, storedSlot?_eq_some_iff.1 hfound, fun {n} hn hlt hr => ?_,
        fun {p} hp => ?_⟩
      · exact absurd (le_of_find?_reverse_ids hid hn (by simp [hr])) (Nat.not_le.2 hlt)
      · exact Option.filter_eq_some_iff.1 hp
  · cases h

/-- The candidates are the last stores to different slots. -/
theorem last_of_mem_candidates (h : c ∈ candidates before) : Last before c := by
  obtain ⟨slot, -, hc⟩ := List.mem_filterMap.1 h
  exact (last_of_candidate? hc).2

theorem nodup_eraseDups (l : List Nat) : l.eraseDups.Nodup := by
  induction hk : l.length using Nat.strongRecOn generalizing l with
  | _ k ih =>
      cases l with
      | nil => exact List.nodup_nil
      | cons a l =>
          rw [List.eraseDups_cons, List.nodup_cons]
          refine ⟨?_, ih _ ?_ _ rfl⟩
          · rw [List.mem_eraseDups, List.mem_filter]
            simp
          · rw [← hk]
            exact Nat.lt_succ_of_le (List.length_filter_le _ _)

/-- There is one candidate for each slot. -/
theorem pairwise_candidates : (candidates before).Pairwise (·.slot ≠ ·.slot) := by
  have hnodup : ((before.ids.filterMap (storedSlot? before)).eraseDups.mergeSort).Nodup :=
    (List.mergeSort_perm _ _).nodup_iff.2 (nodup_eraseDups _)
  refine List.Pairwise.filterMap _ (fun a b hab c hc d hd => ?_) hnodup
  rw [(last_of_candidate? hc).1, (last_of_candidate? hd).1]
  exact hab

/-! ### In a round -/

/-- Positions count the nodes. -/
def Counted (s : CodeStream) : Prop := ∀ {n}, s.isLive n → s.position n = s.rank n

/-- The stream `s` comes up in the round that began with `before`. -/
structure Since (m : Method) (before s : CodeStream) : Prop where
  first : before.Thins m
  thins : s.Thins m
  live : ∀ {n}, s.isLive n → before.isLive n
  position : ∀ n, s.position n = before.position n
  reads : ∀ {n slot}, s.isLive n → reads s slot n → reads before slot n

namespace Since

variable {m : Method} {s' : CodeStream} {push take : Nat}

theorem refl (h : s.Thins m) : Since m s s := ⟨h, h, id, fun _ => rfl, fun _ => id⟩

theorem size (h : Since m before s) : s.nodes.size = before.nodes.size :=
  h.thins.size.trans h.first.size.symm

/-- Positions are those of the stream as it was, so they still order the nodes. -/
theorem position_lt (h : Since m before s) (hcount : Counted before) {n k : Nat}
    (hn : before.isLive n) (hk : before.isLive k) (hlt : n < k) :
    s.position n < s.position k := by
  rw [h.position, h.position, hcount hn, hcount hk]
  exact rank_lt_rank hn hlt

theorem position_le (h : Since m before s) (hcount : Counted before) {n k : Nat}
    (hn : before.isLive n) (hk : before.isLive k) (hle : n ≤ k) :
    s.position n ≤ s.position k := by
  rcases Nat.lt_or_eq_of_le hle with hlt | rfl
  · exact (h.position_lt hcount hn hk hlt).le
  · exact le_rfl

/-- A deletion marks nodes: positions stay, and what is live was live. -/
theorem deleteAll {ids : List Nat} (h : Since m before s) (hd : s.deleteAll ids = .ok s') :
    Since m before s' := by
  refine ⟨h.first, h.thins.deleteAll hd, fun hn => h.live ((isLive_deleteAll hd).1 hn).1,
    fun n => (position_deleteAll hd).trans (h.position n), fun hn hr => ?_⟩
  obtain ⟨insn, hi, hmem⟩ := reads_iff.1 hr
  rw [h.thins.instruction_deleteAll hd hn, Option.map_eq_some_iff] at hi
  obtain ⟨insn, hi, rfl⟩ := hi
  rw [Instruction.readSlots_mapTargets] at hmem
  exact h.reads ((isLive_deleteAll hd).1 hn).1 (reads_iff.2 ⟨insn, hi, hmem⟩)

/-- A store that becomes a discard reads no slot, so it gives no new read. -/
theorem discard {kind : LocalKind} {index : UInt16} {store : Nat} (h : Since m before s)
    (hl : s.isLive store) (hi : s.instruction? store = some (.store kind index)) :
    Since m before (s.replace store (DeadStore.discard kind)) := by
  have hlt := lt_size_of_isLive hl
  refine ⟨h.first, h.thins.replace hlt (targets_of_instruction? hi) rfl,
    fun hn => h.live (isLive_replace ▸ hn), fun n => position_replace.trans (h.position n),
    fun {n slot} hn hr => ?_⟩
  obtain ⟨insn, hinsn, hmem⟩ := reads_iff.1 hr
  by_cases hne : n = store
  · subst hne
    rw [instruction?_replace_self hlt] at hinsn
    cases hinsn
    cases hmem
  · rw [instruction?_replace_of_ne hne] at hinsn
    exact h.reads (isLive_replace ▸ hn) (reads_iff.2 ⟨insn, hinsn, hmem⟩)

/-- A target was a target before the round, or lies behind one that was. -/
theorem exists_target (h : Since m before s) {n t : Nat} (hn : s.isLive n)
    (ht : t ∈ s.targets n) :
    s.isLive t ∧ ∃ u ∈ before.targets n, before.isLive u ∧ u ≤ t ∧ s.ahead u = t := by
  obtain ⟨insn, hi⟩ := h.thins.exists_code hn
  rw [h.thins.targets hn hi] at ht
  obtain ⟨v, hv, rfl⟩ := List.mem_map.1 ht
  have hlt := h.first.target (h.live hn) hi hv
  have hahead : s.ahead (before.ahead v) = s.ahead v := ahead_ahead h.size fun _ => h.live
  refine ⟨isLive_ahead (h.thins.target hn hi hv), before.ahead v, ?_, isLive_ahead hlt, ?_, hahead⟩
  · rw [h.first.targets (h.live hn) hi]
    exact List.mem_map_of_mem hv
  · rw [← hahead]
    exact le_ahead (h.size ▸ hlt.le)

/-- The entry of a handler that protects a live node is the first live node from
an entry there was. -/
theorem exists_entry (h : Since m before s) {n : Nat} {r : HandlerRange} (hn : s.isLive n)
    (hr : r ∈ s.handlers) (hc : Covers r n) :
    ∃ u, before.isHandlerEntry u ∧ before.isLive u ∧ u ≤ r.entry ∧ s.ahead u = r.entry := by
  obtain ⟨r, hmem, hle, hlt, rfl⟩ := h.thins.exists_of_covers hr hn hc
  obtain ⟨hrange, hholds⟩ := h.first.holds_of_covers hmem (h.live hn) hle hlt
  have hahead : s.ahead (before.ahead r.entry) = s.ahead r.entry :=
    ahead_ahead h.size fun _ => h.live
  refine ⟨before.ahead r.entry, ?_, isLive_ahead hholds.2, ?_, hahead⟩
  · rw [isHandlerEntry_iff]
    exact ⟨_, hrange, rfl⟩
  · rw [← show s.ahead (before.ahead r.entry) = (s.range r).entry from hahead]
    exact le_ahead (h.size ▸ hholds.2.le)

/-- What was right behind a push and not targeted before the round, is so as
long as both are there. -/
theorem behind (h : Since m before s) (hprev : before.prev? take = some push)
    (hnot : ¬ before.isTargeted take) (hself : before.targets take = []) (hp : s.isLive push)
    (ht : s.isLive take) : Behind s push take := by
  obtain ⟨-, hlt, -, hbetween⟩ := prev?_eq_some_iff.1 hprev
  -- A place whose next node is `take` cannot lie in front of it.
  have hplace : ∀ {u}, before.isLive u → u ≤ take → s.ahead u = take → u = take := by
    intro u hu hle heq
    by_contra hne
    have hup : u ≤ push := by
      by_contra hpu
      exact hbetween u (by omega) (by omega) hu
    have := ahead_le_of_isLive hup hp
    omega
  refine ⟨prev?_eq_some_iff.2 ⟨ht, hlt, hp, fun k hk₁ hk₂ hk => hbetween k hk₁ hk₂ (h.live hk)⟩,
    fun {n} hn hmem => ?_, fun {n r} hn hr hc heq => ?_⟩
  · obtain ⟨-, u, hu, hlive, hle, hahead⟩ := h.exists_target hn hmem
    obtain rfl := hplace hlive hle hahead
    by_cases hnt : n = u
    · subst hnt
      rw [hself] at hu
      cases hu
    · exact hnot (isTargeted_iff.2 (.inr ⟨n, h.live hn, hnt, hu⟩))
  · obtain ⟨u, hu, hlive, hle, hahead⟩ := h.exists_entry hn hr hc
    rw [heq] at hle hahead
    obtain rfl := hplace hlive hle hahead
    exact hnot (isTargeted_iff.2 (.inl hu))

/-- From the place of reentry on control does not come further back. -/
theorem unread_of_reentry (h : Since m before s) (hcount : Counted before) (slot position : Nat)
    (hreads : ∀ {n}, s.isLive n → reentry s before.loops position ≤ s.position n →
      ¬ DeadStore.reads s slot n) :
    Unread s.program slot fun n =>
      s.isLive n → reentry s before.loops position ≤ s.position n := by
  constructor
  -- The region is what stands at the point of re-entry or behind it: falling through goes
  -- down the stream.
  · intro n insn hin hf hl
    obtain ⟨hn, -⟩ := fetch_program.1 hf
    exact (hin hn).trans (h.position_le hcount (h.live hn) (h.live hl)
      (Nat.le_of_succ_le (le_ahead (lt_size_of_isLive hn))))
  · intro n insn t hin hf ht _
    obtain ⟨hn, hi⟩ := fetch_program.1 hf
    rw [← targets_of_instruction? hi] at ht
    obtain ⟨htl, u, hu, hul, hut, -⟩ := h.exists_target hn ht
    -- A jump down stays behind the point; one up is the back edge of a loop.
    by_cases hle : s.position n ≤ s.position t
    · exact (hin hn).trans hle
    · have hpos := h.position_le hcount hul (h.live htl) hut
      have hback : before.position u ≤ before.position n := by
        rw [← h.position, ← h.position]
        omega
      have hloop := mem_loops_iff.2 ⟨u, n, h.live hn, hu, hback, rfl⟩
      exact (reentry_le_head hloop (hin hn)).trans hpos
  · intro n insn catches t hin hf ht _
    obtain ⟨hn, -⟩ := fetch_program.1 hf
    obtain ⟨r, hr, hc, rfl⟩ := exists_covers ht
    -- The range of the handler ends behind the node that it protects.
    refine reentry_le_entry hr fun k hk => ?_
    obtain ⟨handler, -, -, -, rfl⟩ := h.thins.exists_of_covers hr hn hc
    have hkl : s.isLive k := (firstFrom_eq_some_iff.1 hk).2.1
    have hnk : n < k := by simpa [hk] using hc.2
    exact (hin hn).trans_lt (h.position_lt hcount (h.live hn) (h.live hkl) hnk)
  · intro n insn hin hf hmem
    obtain ⟨hn, hi⟩ := fetch_program.1 hf
    exact hreads hn (hin hn) (reads_iff.2 ⟨insn, hi, hmem⟩)

/-- **The test of the pass**: the store is dead. -/
theorem dead (h : Since m before s) (hcount : Counted before) (hc : Last before c)
    (hnot : ¬ (readPositions before c.slot).any fun p =>
      reentry s before.loops (s.position c.store) ≤ p && p < s.position c.store) :
    Dead s c.slot c.store := by
  refine ⟨_, h.unread_of_reentry hcount c.slot (s.position c.store) fun {n} hn hle hr => ?_,
    fun _ => reentry_le⟩
  have hr' := h.reads hn hr
  rcases Nat.lt_trichotomy n c.store with hlt | rfl | hlt
  · refine hnot (List.any_eq_true.2 ⟨before.position n, ?_, ?_⟩)
    · exact List.mem_map.2 ⟨n, List.mem_filter.2 ⟨mem_ids.2 (h.live hn), hr'⟩, rfl⟩
    · rw [← h.position]
      simp only [Bool.and_eq_true, decide_eq_true_eq]
      exact ⟨hle, h.position_lt hcount (h.live hn) hc.live hlt⟩
  · obtain ⟨kind, index, hi, -⟩ := hc.store
    obtain ⟨insn, hi', hmem⟩ := reads_iff.1 hr'
    rw [hi] at hi'
    cases hi'
    cases hmem
  · exact hc.reads (h.live hn) hlt hr'

end Since

end JvmOptimizer.DeadStore
