import JvmOptimizer.Proofs.CodeStream.Renaming
import JvmOptimizer.Proofs.DeadStore.Counters

/-!
# Rounds that change nothing

Rounds go on until one counts no change. Such a round has indeed changed nothing:
each candidate was kept since a read can still be reached from it, and nothing
that is pushed is discarded at once. A stream in which that is so is `Quiet`, and
the pass leaves it alone.
-/

namespace JvmOptimizer

namespace CodeStream

variable {s : CodeStream}

/-- Numbering what is numbered changes nothing. -/
theorem numberFrom_numberFrom (k : Nat) (l : List Node) :
    numberFrom k (numberFrom k l) = numberFrom k l := by
  induction l generalizing k with
  | nil => rfl
  | cons node l ih =>
      cases hl : node.live with
      | true => simp [numberFrom, hl, ih]
      | false => simp [numberFrom, hl, ih]

/-- Counting twice is counting once. -/
@[simp]
theorem renumber_renumber : s.renumber.renumber = s.renumber := by
  simp [renumber, numberFrom_numberFrom]

end CodeStream

namespace DeadStore

open CodeStream Steps

variable {α : Type} {s s' before : CodeStream} {σ σ' : State} {c : Candidate} {push take : Nat}

/-- The test that keeps a store: a read in front of it can be reached. -/
def isReadAgain (before s : CodeStream) (loops : List LoopExtent) (c : Candidate) : Bool :=
  (readPositions before c.slot).any fun p =>
    reentry s loops (s.position c.store) ≤ p && p < s.position c.store

/-- A round finds nothing to do. -/
structure Quiet (s : CodeStream) : Prop where
  stores : ∀ c ∈ candidates s, isReadAgain s s s.loops c
  pushes : ∀ id ∈ s.ids, discardedPush? s id = none

/-! ### Steps that count -/

/-- A step of a round counts whatever it changes. -/
structure Counts (σ σ' : State) : Prop where
  rounds : σ'.stats.rounds = σ.stats.rounds
  le : σ.stats.changes ≤ σ'.stats.changes
  same : σ'.stats.changes = σ.stats.changes → σ' = σ

namespace Counts

theorem refl : Counts σ σ := ⟨rfl, le_rfl, fun _ => rfl⟩

/-- A change of the stream that is counted. -/
theorem of_succ (hr : σ'.stats.rounds = σ.stats.rounds)
    (h : σ'.stats.changes = σ.stats.changes + 1) : Counts σ σ' :=
  ⟨hr, by omega, fun heq => absurd (h.symm.trans heq) (Nat.succ_ne_self _)⟩

theorem trans {τ : State} (h : Counts σ τ) (h' : Counts τ σ') : Counts σ σ' := by
  refine ⟨h'.rounds.trans h.rounds, h.le.trans h'.le, fun heq => ?_⟩
  have := h.le
  have := h'.le
  rw [h'.same (by omega), h.same (by omega)]

/-- A loop that changes nothing does so in none of its steps. -/
theorem forM {f : α → Step PUnit} {l : List α}
    (hf : ∀ {a τ τ'}, f a τ = (.ok ⟨⟩, τ') → Counts τ τ') (h : l.forM f σ = (.ok ⟨⟩, σ')) :
    Counts σ σ' ∧ (σ' = σ → ∀ a ∈ l, f a σ = (.ok ⟨⟩, σ)) := by
  induction l generalizing σ with
  | nil =>
      cases h
      exact ⟨.refl, nofun⟩
  | cons a l ih =>
      rw [forM_cons, bind_eq_ok] at h
      obtain ⟨⟨⟩, τ, ha, h⟩ := h
      obtain ⟨hcounts, hsteps⟩ := ih h
      have hfirst := hf ha
      refine ⟨hfirst.trans hcounts, fun heq => ?_⟩
      subst heq
      have := hfirst.le
      have := hcounts.le
      obtain rfl := hfirst.same (by omega)
      exact List.forall_mem_cons.2 ⟨ha, hsteps rfl⟩

end Counts

/-- A removal counts one store, or finds none and changes nothing. -/
theorem Removal.counts (h : Removal σ c σ') : Counts σ σ' := by
  cases h with
  | pair hp hd =>
      refine .of_succ rfl ?_
      simp only [Stats.changes]
      omega
  | discard hi =>
      refine .of_succ rfl ?_
      simp only [Stats.changes]
      omega
  | none => exact .refl

/-- A store that is there does not go unnoticed. -/
theorem Removal.ne (h : Removal σ c σ') {kind : LocalKind} {index : UInt16}
    (hi : σ.stream.instruction? c.store = some (.store kind index)) : σ' ≠ σ := by
  intro heq
  have hstats : σ'.stats = σ.stats := congrArg _ heq
  cases h with
  | pair hp hd => exact Nat.succ_ne_self _ (congrArg Stats.removed hstats)
  | discard hi => exact Nat.succ_ne_self _ (congrArg Stats.popped hstats)
  | none hne => exact hne kind index hi

theorem counts_removePair (h : removePair push take σ = (.ok (), σ')) : Counts σ σ' := by
  rcases removePair_eq_ok h with ⟨-, rfl⟩ | ⟨-, stream, -, rfl⟩
  · exact .refl
  · exact .of_succ rfl rfl

/-- The step of a sweep. -/
def sweepStep (before : CodeStream) (loops : List LoopExtent) (c : Candidate) : Step Unit := do
  let s ← get
  if isReadAgain before s.stream loops c then
    return
  removeStore c

theorem sweep_eq {loops : List LoopExtent} :
    sweep before loops = (candidates before).forM (sweepStep before loops) := rfl

theorem sweepStep_apply {loops : List LoopExtent} : sweepStep before loops c σ =
    if isReadAgain before σ.stream loops c then (.ok (), σ) else removeStore c σ := by
  rw [sweepStep, bind_apply, get_apply]
  dsimp only
  split <;> rfl

/-- A candidate that is kept changes nothing; one that is removed is counted. -/
theorem counts_sweepStep {loops : List LoopExtent}
    (h : sweepStep before loops c σ = (.ok (), σ')) : Counts σ σ' := by
  rw [sweepStep_apply] at h
  split at h
  · cases h
    exact .refl
  · exact (removal_removeStore h).counts

/-! ### Rounds -/

theorem removePairs_apply : removePairs σ =
    (σ.stream.ids.filterMap fun id =>
      (discardedPush? σ.stream id).map fun push => (push, id)).forM
        (fun pair => removePair pair.1 pair.2) σ := by
  rw [removePairs, bind_apply, get_apply]

/-- Where the removal of pairs changes nothing there was no pair. -/
theorem counts_removePairs (h : removePairs σ = (.ok (), σ')) :
    Counts σ σ' ∧ (σ' = σ → ∀ id ∈ σ.stream.ids, discardedPush? σ.stream id = none) := by
  rw [removePairs_apply] at h
  obtain ⟨hcounts, hsteps⟩ := Counts.forM counts_removePair h
  refine ⟨hcounts, fun heq id hid => ?_⟩
  by_contra hne
  obtain ⟨push, hpush⟩ := Option.ne_none_iff_exists'.1 hne
  have hpair : (push, id) ∈ σ.stream.ids.filterMap fun id =>
      (discardedPush? σ.stream id).map fun push => (push, id) :=
    List.mem_filterMap.2 ⟨id, hid, by rw [hpush]; rfl⟩
  -- A pair that is found is there, and would have gone.
  obtain ⟨hlive, -, hplive, -⟩ :=
    prev?_eq_some_iff.1 (discarded_of_discardedPush? hpush).prev
  rcases removePair_eq_ok (hsteps heq _ hpair) with ⟨hnot, -⟩ | ⟨-, stream, -, hcount⟩
  · exact hnot ⟨hplive, hlive⟩
  · exact Nat.succ_ne_self _ (congrArg (·.stats.pairs) hcount).symm

/-- Where a sweep changes nothing every candidate is read again. The sweep starts
on the stream that the candidates were found in. -/
theorem counts_sweep {loops : List LoopExtent} (h : sweep before loops σ = (.ok (), σ'))
    (hσ : σ.stream = before) :
    Counts σ σ' ∧ (σ' = σ → ∀ c ∈ candidates before, isReadAgain before before loops c) := by
  rw [sweep_eq] at h
  obtain ⟨hcounts, hsteps⟩ := Counts.forM counts_sweepStep h
  refine ⟨hcounts, fun heq c hc => ?_⟩
  have hstep := hsteps heq c hc
  rw [sweepStep_apply, hσ] at hstep
  by_contra hnot
  rw [if_neg hnot] at hstep
  obtain ⟨kind, index, hi, -⟩ := (last_of_mem_candidates hc).store
  exact (removal_removeStore hstep).ne (hσ ▸ hi) rfl

/-- Nothing happens in a round on a quiet stream. -/
theorem Quiet.round (h : Quiet σ.stream.renumber) : round σ =
    (.ok (), ⟨σ.stream.renumber, { σ.stats with rounds := σ.stats.rounds + 1 }⟩) := by
  refine round_eq_ok.2 ⟨⟨σ.stream.renumber, { σ.stats with rounds := σ.stats.rounds + 1 }⟩, ?_, ?_⟩
  · rw [sweep_eq]
    refine forM_eq_self fun c hc => ?_
    rw [sweepStep_apply, if_pos (h.stores c hc)]
  · rw [removePairs_apply]
    refine forM_eq_self fun pair hpair => ?_
    obtain ⟨id, hid, hmap⟩ := List.mem_filterMap.1 hpair
    rw [h.pushes id hid] at hmap
    cases hmap

/-- A round counts what it changes; one that counts no change has found nothing to
do. -/
theorem counts_round (h : DeadStore.round σ = (.ok (), σ')) :
    σ'.stats.rounds = σ.stats.rounds + 1 ∧ σ.stats.changes ≤ σ'.stats.changes ∧
      (σ'.stats.changes = σ.stats.changes →
        Quiet σ.stream.renumber ∧ σ'.stream = σ.stream.renumber) := by
  obtain ⟨τ, hs, hp⟩ := round_eq_ok.1 h
  obtain ⟨hcs, hstores⟩ := counts_sweep hs rfl
  obtain ⟨hcp, hpushes⟩ := counts_removePairs hp
  have hchanges : σ.stats.changes =
      (State.mk σ.stream.renumber { σ.stats with rounds := σ.stats.rounds + 1 }).stats.changes :=
    rfl
  have := hcs.le
  have := hcp.le
  refine ⟨hcp.rounds.trans hcs.rounds, by omega, fun hsame => ?_⟩
  obtain rfl := hcp.same (by omega)
  obtain rfl := hcs.same (by omega)
  exact ⟨⟨hstores rfl, hpushes rfl⟩, rfl⟩

/-- Rounds that end before the limit leave a quiet stream. -/
theorem quiet_of_rounds {limit : Nat} (h : rounds limit σ = (.ok (), σ'))
    (hlt : σ'.stats.rounds < σ.stats.rounds + limit) : Quiet σ'.stream.renumber := by
  induction limit generalizing σ with
  | zero =>
      cases h
      omega
  | succ limit ih =>
      obtain ⟨τ, hround, h⟩ := rounds_succ_eq_ok.1 h
      obtain ⟨hcount, -, hquiet⟩ := counts_round hround
      split at h
      · exact ih h (by omega)
      · rename_i hsame
        obtain ⟨hq, heq⟩ := hquiet (not_not.1 hsame)
        rw [← h, heq, renumber_renumber]
        exact hq

/-- **The pass ends with nothing left to do**, unless it runs into its limit. -/
theorem quiet_removeDeadStores {limit : Nat} {stats : Stats}
    (h : s.removeDeadStores limit = (.ok stats, s')) (hlt : stats.rounds < limit) :
    Quiet s' ∧ s'.renumber = s' := by
  obtain ⟨final, hr, rfl, rfl⟩ := removeDeadStores_eq_ok h
  exact ⟨quiet_of_rounds hr (by simpa using hlt), renumber_renumber⟩

/-- One round is enough to see that a stream is quiet. -/
theorem Quiet.removeDeadStores_succ (h : Quiet s) (hs : s.renumber = s) (limit : Nat) :
    s.removeDeadStores (limit + 1) = (.ok { rounds := 1 }, s) := by
  have hround := Quiet.round (σ := { stream := s }) (hs.symm ▸ h)
  rw [hs] at hround
  have hrounds : rounds (limit + 1) { stream := s } = (.ok (), ⟨s, { rounds := 1 }⟩) :=
    rounds_succ_eq_ok.2 ⟨_, hround, rfl⟩
  rw [CodeStream.removeDeadStores, hrounds]
  dsimp only
  rw [hs]

/-- The pass leaves a quiet stream as it is. -/
theorem Quiet.removeDeadStores (h : Quiet s) (hs : s.renumber = s) (limit : Nat) :
    ∃ stats, s.removeDeadStores limit = (.ok stats, s) := by
  cases limit with
  | zero => exact ⟨{}, Prod.ext rfl hs⟩
  | succ limit => exact ⟨_, h.removeDeadStores_succ hs limit⟩

/-! ### Renamed streams -/

section Renaming

variable {f : Nat → Nat} {t : CodeStream} {n slot : Nat}

/-- The candidate with its nodes renamed. -/
def Candidate.rename (f : Nat → Nat) (c : Candidate) : Candidate :=
  ⟨c.slot, f c.store, c.producer.map f⟩

/-- What follows is said of a renaming: each question that the pass asks of a node
has the same answer for the node it is renamed to. -/
theorem storedSlot?_rename (h : Renames f s t) (hn : s.isLive n) :
    storedSlot? t (f n) = storedSlot? s n := by
  rw [storedSlot?, storedSlot?, h.instruction hn]
  rcases s.instruction? n with _ | insn
  · rfl
  · cases insn <;> rfl

theorem reads_rename (h : Renames f s t) (hn : s.isLive n) :
    reads t slot (f n) = reads s slot n := by
  rw [reads, reads, h.instruction hn]
  cases s.instruction? n with
  | none => rfl
  | some insn => simp [Instruction.readSlots_mapTargets]

theorem isPurePush_rename (h : Renames f s t) (hn : s.isLive n) :
    isPurePush t (f n) = isPurePush s n := by
  rw [isPurePush, isPurePush, h.instruction hn]
  cases s.instruction? n with
  | none => rfl
  | some insn => simp [Instruction.isPurePush_mapTargets]

theorem readPositions_rename (h : Renames f s t) : readPositions t slot = readPositions s slot := by
  rw [readPositions, readPositions, h.ids, List.filter_map, List.map_map]
  have hfilter : s.ids.filter (reads t slot ∘ f) = s.ids.filter (reads s slot) :=
    List.filter_congr fun n hn => reads_rename h (mem_ids.1 hn)
  rw [hfilter]
  exact List.map_congr_left fun n hn => h.position (mem_ids.1 (List.mem_filter.1 hn).1)

theorem reentryStep_rename (h : Renames f s t) (lowest : Nat) :
    reentryStep t t.loops lowest = reentryStep s s.loops lowest := by
  refine eq_of_forall_le_iff fun k => ?_
  rw [le_reentryStep_iff, le_reentryStep_iff, h.handlers, List.forall_mem_map]
  refine and_congr_right fun _ => and_congr ?_ (forall₂_congr fun r hr => ?_)
  · exact forall_congr' fun x => imp_congr_left (h.exists_loop_iff (P := (lowest ≤ ·)))
  · have hstop : (r.rename f).stop.all (lowest < t.position ·) =
        r.stop.all (lowest < s.position ·) := by
      cases hk : r.stop with
      | none => simp [HandlerRange.rename, hk]
      | some k => simp [HandlerRange.rename, hk, h.position (h.closed.stop hr hk)]
    have hentry : t.position (r.rename f).entry = s.position r.entry :=
      h.position (h.closed.entry hr)
    rw [hstop, hentry]

/-- Re-entry is computed on positions, which a renaming keeps. -/
theorem reentry_rename (h : Renames f s t) (position : Nat) :
    reentry t t.loops position = reentry s s.loops position := by
  induction position using Nat.strongRecOn with
  | _ position ih =>
      conv => lhs; rw [reentry]
      conv => rhs; rw [reentry]
      rw [reentryStep_rename h]
      split
      · rename_i hlt
        exact ih _ hlt
      · rfl

theorem candidate?_rename (h : Renames f s t) :
    candidate? t slot = (candidate? s slot).map (Candidate.rename f) := by
  have hfind : (t.ids.reverse.find? fun id => storedSlot? t id = some slot || reads t slot id) =
      (s.ids.reverse.find? fun id => storedSlot? s id = some slot || reads s slot id).map f := by
    rw [h.ids, ← List.map_reverse, List.find?_map]
    congr 1
    refine List.find?_congr fun n hn => ?_
    have hn : s.isLive n := mem_ids.1 (List.mem_reverse.1 hn)
    simp only [Function.comp_apply, storedSlot?_rename h hn, reads_rename h hn]
  rw [candidate?, candidate?, hfind]
  cases hs : s.ids.reverse.find? fun id => storedSlot? s id = some slot || reads s slot id with
  | none => rfl
  | some n =>
      have hn : s.isLive n := mem_ids.1 (List.mem_reverse.1 (List.mem_of_find?_eq_some hs))
      simp only [Option.map_some, reads_rename h hn, h.prev hn]
      split
      · rfl
      · simp only [Option.map_some, Candidate.rename, Option.some.injEq, Candidate.mk.injEq,
          true_and]
        cases hp : s.prev? n with
        | none => rfl
        | some p =>
            have hplive : s.isLive p := (prev?_eq_some_iff.1 hp).2.2.1
            simp [Option.filter_some, isPurePush_rename h hplive, apply_ite (Option.map f)]

/-- The candidates of the renamed stream are the renamed candidates. -/
theorem candidates_rename (h : Renames f s t) :
    candidates t = (candidates s).map (Candidate.rename f) := by
  have hslots : t.ids.filterMap (storedSlot? t) = s.ids.filterMap (storedSlot? s) := by
    rw [h.ids, List.filterMap_map]
    exact List.filterMap_congr fun n hn => storedSlot?_rename h (mem_ids.1 hn)
  rw [candidates, candidates, hslots, List.map_filterMap]
  exact List.filterMap_congr fun slot _ => candidate?_rename h

theorem isReadAgain_rename (h : Renames f s t) (hc : s.isLive c.store) :
    isReadAgain t t t.loops (c.rename f) = isReadAgain s s s.loops c := by
  have hposition : t.position (c.rename f).store = s.position c.store := h.position hc
  rw [isReadAgain, isReadAgain, hposition, reentry_rename h]
  rw [show readPositions t (c.rename f).slot = readPositions s c.slot from readPositions_rename h]

/-- A discarded push stays one, in front of the renamed node. -/
theorem discardedPush?_rename (h : Renames f s t) (hn : s.isLive n) :
    discardedPush? t (f n) = (discardedPush? s n).map f := by
  -- The test looks at the node, at the one in front of it, and at the references to it.
  have hslots : discardedSlots? t (f n) = discardedSlots? s n := by
    rw [discardedSlots?, discardedSlots?, h.instruction hn]
    rcases s.instruction? n with _ | insn
    · rfl
    · cases insn <;> rfl
  rw [discardedPush?, discardedPush?, hslots, h.prev hn, h.isTargeted hn]
  cases discardedSlots? s n with
  | none => rfl
  | some slots =>
      cases hp : s.prev? n with
      | none => rfl
      | some p =>
          have hplive : s.isLive p := (prev?_eq_some_iff.1 hp).2.2.1
          simp only [Option.map_some, bind, Option.bind_some, h.instruction hplive]
          cases s.instruction? p with
          | none => rfl
          | some insn =>
              simp only [Option.map_some, Option.bind_some, Instruction.pushedSlots?_mapTargets]
              cases insn.pushedSlots? with
              | none => rfl
              | some pushed =>
                  simp only [Option.bind_some]
                  split <;> rfl

/-- **Names do not matter**: whether there is something to do can be read off the
renamed stream. -/
theorem quiet_rename_iff (h : Renames f s t) : Quiet t ↔ Quiet s := by
  have hstores : (∀ c ∈ candidates t, isReadAgain t t t.loops c) ↔
      ∀ c ∈ candidates s, isReadAgain s s s.loops c := by
    rw [candidates_rename h, List.forall_mem_map]
    refine forall₂_congr fun c hc => ?_
    rw [isReadAgain_rename h (last_of_mem_candidates hc).live]
  have hpushes : (∀ id ∈ t.ids, discardedPush? t id = none) ↔
      ∀ id ∈ s.ids, discardedPush? s id = none := by
    rw [h.ids, List.forall_mem_map]
    refine forall₂_congr fun id hid => ?_
    rw [discardedPush?_rename h (mem_ids.1 hid), Option.map_eq_none_iff]
  constructor
  · intro hq
    exact ⟨hstores.1 hq.stores, hpushes.1 hq.pushes⟩
  · intro hq
    exact ⟨hstores.2 hq.stores, hpushes.2 hq.pushes⟩

end Renaming

end DeadStore

end JvmOptimizer
