import Mathlib
import JvmOptimizer.Proofs.DeadStore.Reentry
import JvmOptimizer.Proofs.Steps

/-!
# The rounds of dead store elimination

Every step of the pass is a chain of edits. It fails only at a pair that is of
no use and that cannot be deleted, since something refers to the end of the
stream then.
-/

open Relation (ReflTransGen)

namespace JvmOptimizer.DeadStore

open CodeStream

/-- A pair is of no use and cannot be deleted. -/
def Stuck (s : CodeStream) : Prop :=
  ∃ push take, Spare s push take ∧ ∀ s', s.deleteAll [push, take] ≠ .ok s'

/-- A pair in front of a node that stays can be deleted. -/
theorem not_stuck_of_behind {s : CodeStream}
    (h : ∀ {push take}, Spare s push take → ∃ k, s.isLive k ∧ take < k) : ¬ Stuck s := by
  intro hstuck
  obtain ⟨push, take, hspare, hne⟩ := hstuck
  obtain ⟨k, hk, hlt⟩ := h hspare
  obtain ⟨-, -, hpush⟩ := hspare.behind.isLive
  have hfront : ∀ id ∈ [push, take], id < k := by
    intro id hid
    rcases List.mem_pair.1 hid with rfl | rfl
    · exact hpush.trans hlt
    · exact hlt
  obtain ⟨s', hd⟩ := exists_deleteAll hk hfront
  exact hne s' hd

/-- From `s`, edits lead to the outcome: to a stream with `Q`, or to one where
the pass is stuck. -/
def Leads {α : Type} (s : CodeStream) (Q : CodeStream → Prop) (outcome : Except OptimizeError α)
    (s' : CodeStream) : Prop :=
  match outcome with
  | .ok _ => ReflTransGen Edit s s' ∧ Q s'
  | .error _ => ∃ t, ReflTransGen Edit s t ∧ Stuck t

variable {α β : Type} {σ : State} {s s' before : CodeStream} {Q R : CodeStream → Prop}

namespace Leads

theorem pure {a : α} (h : Q s) : Leads s Q (.ok a) s := ⟨.refl, h⟩

theorem mono {outcome : Except OptimizeError α} (h : Leads s Q outcome s')
    (himp : ∀ {t}, Q t → R t) : Leads s R outcome s' := by
  cases outcome with
  | ok a => exact ⟨h.1, himp h.2⟩
  | error e => exact h

theorem trans {outcome : Except OptimizeError α} {t : CodeStream} (h : ReflTransGen Edit s t)
    (ht : Leads t Q outcome s') : Leads s Q outcome s' := by
  cases outcome with
  | ok a => exact ⟨h.trans ht.1, ht.2⟩
  | error e =>
      obtain ⟨u, hu, hstuck⟩ := ht
      exact ⟨u, h.trans hu, hstuck⟩

/-- Two steps one after another, where the second starts from what the first
leaves. -/
theorem bind {x : Step α} {f : α → Step β}
    (hx : Leads σ.stream Q (x σ).1 (x σ).2.stream)
    (hf : ∀ a τ, Q τ.stream → Leads τ.stream R (f a τ).1 (f a τ).2.stream) :
    Leads σ.stream R ((x >>= f) σ).1 ((x >>= f) σ).2.stream := by
  rw [Steps.bind_apply]
  cases hxσ : x σ with
  | mk outcome τ =>
      rw [hxσ] at hx
      cases outcome with
      | ok a => exact .trans hx.1 (hf a τ hx.2)
      | error e => exact hx

/-- What each step of a loop takes from one member to the rest, the loop takes
to the end. -/
theorem forM {f : α → Step PUnit} {I : List α → CodeStream → Prop} {l : List α}
    (hstep : ∀ a rest τ, I (a :: rest) τ.stream →
      Leads τ.stream (I rest) (f a τ).1 (f a τ).2.stream) (h : I l σ.stream) :
    Leads σ.stream (I []) (l.forM f σ).1 (l.forM f σ).2.stream := by
  induction l generalizing σ with
  | nil => exact .pure h
  | cons a l ih =>
      rw [Steps.forM_cons]
      exact .bind (hstep a l σ h) fun _ τ hτ => ih hτ

end Leads

/-- Deleting a spare pair is an edit. Where a deletion fails the stream is stuck,
which well-formed code excludes later on. -/
theorem leads_deletePair {push take : Nat} (h : Spare σ.stream push take) (f : Stats → Stats) :
    let x : Step Unit := do
      delete push
      delete take
      count f
    Leads σ.stream (fun s' => σ.stream.deleteAll [push, take] = .ok s') (x σ).1
      (x σ).2.stream := by
  intro x
  have hok : ∀ (τ : State) {id : Nat} {stream : CodeStream}, τ.stream.deleteOne id = .ok stream →
      delete id τ = (.ok (), { τ with stream }) := by
    intro τ id stream hd
    simp only [delete, Steps.bind_apply, Steps.get_apply, hd, Steps.set_apply]
  have herror : ∀ (τ : State) {id : Nat} {e : DanglingTarget}, τ.stream.deleteOne id = .error e →
      delete id τ = (.error (.danglingTarget e), τ) := by
    intro τ id e hd
    simp only [delete, Steps.bind_apply, Steps.get_apply, hd, Steps.throw_apply]
  -- The half-edited stream of a failure is not reported: the witness is the stream from
  -- before the pair.
  have hstuck : (∀ s', σ.stream.deleteAll [push, take] ≠ .ok s') →
      ∃ t, ReflTransGen Edit σ.stream t ∧ Stuck t :=
    fun hne => ⟨σ.stream, .refl, push, take, h, hne⟩
  simp only [x, Steps.bind_apply]
  cases hp : σ.stream.deleteOne push with
  | error e =>
      rw [herror σ hp]
      refine hstuck fun s' hd => ?_
      obtain ⟨next, hnext, -⟩ := deleteAll_cons_eq_ok.1 hd
      rw [hp] at hnext
      cases hnext
  | ok next =>
      rw [hok σ hp]
      dsimp only
      cases ht : next.deleteOne take with
      | error e =>
          rw [herror { σ with stream := next } ht]
          refine hstuck fun s' hd => ?_
          obtain ⟨other, hother, hd⟩ := deleteAll_cons_eq_ok.1 hd
          rw [hp] at hother
          cases hother
          obtain ⟨last, hlast, -⟩ := deleteAll_cons_eq_ok.1 hd
          rw [ht] at hlast
          cases hlast
      | ok last =>
          rw [hok { σ with stream := next } ht]
          have hd : σ.stream.deleteAll [push, take] = .ok last :=
            deleteAll_cons_eq_ok.2 ⟨next, hp, deleteAll_cons_eq_ok.2 ⟨last, ht, rfl⟩⟩
          exact ⟨.single (.pair h hd), hd⟩

/-! ### Stores -/

variable {m : Method} {c : Candidate} {n : Nat}

/-- The nodes that go with a candidate. -/
def Candidate.nodes (c : Candidate) : List Nat := c.store :: c.producer.toList

/-- The node is as it was before the round. -/
def Untouched (before s : CodeStream) (n : Nat) : Prop :=
  s.isLive n ∧ s.instruction? n = before.instruction? n

theorem isPurePush_iff : isPurePush s n ↔ ∃ insn, s.instruction? n = some insn ∧ insn.isPurePush := by
  unfold isPurePush
  cases s.instruction? n <;> simp

/-- The nodes of a candidate have no targets, so deletions elsewhere leave their
instructions alone. -/
theorem Last.exists_instruction (h : Last before c) (hn : n ∈ c.nodes) :
    ∃ insn, before.instruction? n = some insn ∧ insn.targets = [] ∧
      (insn.isPurePush ↔ n ≠ c.store) := by
  rcases List.mem_cons.1 hn with rfl | hn
  · obtain ⟨kind, index, hi, -⟩ := h.store
    exact ⟨_, hi, rfl, by simp [Instruction.isPurePush, Instruction.pushedSlots?]⟩
  · obtain ⟨hprev, hpure⟩ := h.producer (Option.mem_toList.1 hn)
    obtain ⟨insn, hi, hpure⟩ := isPurePush_iff.1 hpure
    have hlt := (prev?_eq_some_iff.1 hprev).2.1
    exact ⟨insn, hi, Instruction.targets_of_isPurePush hpure, by simp [hpure, hlt.ne]⟩

/-- Stores to different slots have no node in common. -/
theorem Last.disjoint {c' : Candidate} (h : Last before c) (h' : Last before c')
    (hne : c.slot ≠ c'.slot) (hn : n ∈ c.nodes) : n ∉ c'.nodes := by
  intro hn'
  have hstores : c.store ≠ c'.store := by
    intro heq
    obtain ⟨kind, index, hi, hslot⟩ := h.store
    obtain ⟨kind', index', hi', hslot'⟩ := h'.store
    rw [heq, hi'] at hi
    cases hi
    exact hne (hslot.symm.trans hslot')
  obtain ⟨insn, hi, -, hpure⟩ := h.exists_instruction hn
  obtain ⟨insn', hi', -, hpure'⟩ := h'.exists_instruction hn'
  rw [hi] at hi'
  cases hi'
  -- The node is the store of both or the producer of both.
  have hiff : n = c.store ↔ n = c'.store := not_iff_not.1 (hpure.symm.trans hpure')
  by_cases hs : n = c.store
  · exact hstores (hs.symm.trans (hiff.1 hs))
  · have hp : c.producer = some n :=
      Option.mem_toList.1 ((List.mem_cons.1 hn).resolve_left hs)
    have hp' : c'.producer = some n :=
      Option.mem_toList.1 ((List.mem_cons.1 hn').resolve_left (mt hiff.2 hs))
    have heq := ahead_succ_of_prev? (h.producer hp).1
    rw [ahead_succ_of_prev? (h'.producer hp').1] at heq
    exact hstores heq.symm

/-- What the removal of a store keeps. -/
def KeepsOthers (m : Method) (before s : CodeStream) (c : Candidate) (s' : CodeStream) : Prop :=
  Since m before s' ∧ ∀ {n insn}, n ∉ c.nodes → before.instruction? n = some insn →
    insn.targets = [] → Untouched before s n → Untouched before s' n

/-- Removing a dead store is an edit, and the nodes of other candidates are not
touched. -/
theorem leads_removeStore (h : Since m before σ.stream) (hc : Last before c)
    (hpending : ∀ n ∈ c.nodes, Untouched before σ.stream n)
    (hdead : Dead σ.stream c.slot c.store) :
    Leads σ.stream (KeepsOthers m before σ.stream c) (removeStore c σ).1
      (removeStore c σ).2.stream := by
  obtain ⟨hlive, hsame⟩ := hpending c.store List.mem_cons_self
  obtain ⟨kind, index, hi, hslot⟩ := hc.store
  rw [hi] at hsame
  rw [← hslot] at hdead
  -- This serves two of the three ways: no producer, or a store that is jumped to.
  have hdiscard : Leads σ.stream (KeepsOthers m before σ.stream c) (.ok ())
      (σ.stream.replace c.store (discard kind)) := by
    refine ⟨.single (.discard hlive hsame hdead), h.discard hlive hsame,
      fun {n insn} hn _ _ hu => ?_⟩
    have hne : n ≠ c.store := by
      intro heq
      rw [heq] at hn
      exact hn List.mem_cons_self
    rw [Untouched, isLive_replace, instruction?_replace_of_ne hne]
    exact hu
  rw [removeStore, Steps.bind_apply, Steps.get_apply]
  dsimp only
  rw [hsame]
  cases hp : c.producer with
  | none => exact hdiscard
  | some p =>
      cases ht : σ.stream.isTargeted c.store with
      | true => exact hdiscard
      | false =>
          obtain ⟨hprev, hpure⟩ := hc.producer hp
          obtain ⟨hplive, hpsame⟩ :=
            hpending p (List.mem_cons_of_mem _ (Option.mem_toList.2 hp))
          obtain ⟨insn, hpi, hpure⟩ := isPurePush_iff.1 hpure
          obtain ⟨-, hlt, -, hbetween⟩ := prev?_eq_some_iff.1 hprev
          -- The producer stood in front of the store when the sweep began, and what has
          -- been deleted since cannot come between them.
          have hbehind : Behind σ.stream p c.store :=
            (Since.refl h.thins).behind
              (prev?_eq_some_iff.2 ⟨hlive, hlt, hplive,
                fun k hk₁ hk₂ hk => hbetween k hk₁ hk₂ (h.live hk)⟩)
              (by simp [ht]) (targets_of_instruction? hsame) hplive hlive
          have hspare := Spare.store hbehind (hpsame.trans hpi) hpure hsame hdead
          refine (leads_deletePair hspare _).mono fun {s'} hd => ⟨h.deleteAll hd, ?_⟩
          intro n insn hn hi htargets hu
          refine ⟨(isLive_deleteAll hd).2 ⟨hu.1, ?_⟩, ?_⟩
          · simpa [Candidate.nodes, hp, and_comm] using hn
          · rw [hi]
            exact instruction?_deleteAll hd (hu.2.trans hi) htargets

/-- What the sweep keeps: the stores that it has not come to are as they
were. -/
theorem leads_sweep (hb : before.Thins m) (hcount : Counted before) (hσ : σ.stream = before) :
    Leads σ.stream (Since m before) (sweep before before.loops σ).1
      (sweep before before.loops σ).2.stream := by
  -- The invariant of the loop: the candidates that are left have different slots, and none
  -- of their nodes has been touched.
  let I : List Candidate → CodeStream → Prop := fun l s =>
    Since m before s ∧ (∀ c ∈ l, Last before c) ∧ l.Pairwise (·.slot ≠ ·.slot) ∧
      ∀ c ∈ l, ∀ n ∈ c.nodes, Untouched before s n
  refine (Leads.forM (I := I) (fun c rest τ hI => ?_) ?_).mono And.left
  · obtain ⟨h, hlast, hpair, hpending⟩ := hI
    rw [List.pairwise_cons] at hpair
    have hc := hlast c List.mem_cons_self
    have hrest : ∀ c' ∈ rest, Last before c' := fun c' hc' => hlast c' (List.mem_cons_of_mem _ hc')
    rw [Steps.bind_apply, Steps.get_apply]
    dsimp only
    split
    · exact .pure ⟨h, hrest, hpair.2, fun c' hc' => hpending c' (List.mem_cons_of_mem _ hc')⟩
    · rename_i hnot
      -- What the removal touches is disjoint from the nodes of the rest.
      refine (leads_removeStore h hc (hpending c List.mem_cons_self)
        (h.dead hcount hc hnot)).mono fun {s'} hs' => ⟨hs'.1, hrest, hpair.2, ?_⟩
      intro c' hc' n hn
      obtain ⟨insn, hi, htargets, -⟩ := (hrest c' hc').exists_instruction hn
      exact hs'.2 ((hrest c' hc').disjoint hc (hpair.1 c' hc').symm hn) hi htargets
        (hpending c' (List.mem_cons_of_mem _ hc') n hn)
  · rw [hσ]
    refine ⟨.refl hb, fun c => last_of_mem_candidates, pairwise_candidates, fun c hc n hn => ?_⟩
    refine ⟨?_, rfl⟩
    have hlast := last_of_mem_candidates hc
    rcases List.mem_cons.1 hn with rfl | hn
    · exact hlast.live
    · exact (prev?_eq_some_iff.1 (hlast.producer (Option.mem_toList.1 hn)).1).2.2.1

/-! ### Discarded pushes -/

/-- What a push and its discard look like. -/
structure Discarded (s : CodeStream) (push take : Nat) : Prop where
  prev : s.prev? take = some push
  free : ¬ s.isTargeted take
  nodes : ∃ insn opcode bytes k, s.instruction? push = some insn ∧ insn.pushedSlots? = some k ∧
    s.instruction? take = some (.verbatim opcode bytes) ∧
    (opcode = Opcode.pop ∧ k = 1 ∨ opcode = Opcode.pop2 ∧ k = 2)

theorem discarded_of_discardedPush? {push take : Nat} (h : discardedPush? s take = some push) :
    Discarded s push take := by
  simp only [discardedPush?, bind, Option.bind_eq_some_iff] at h
  obtain ⟨slots, hslots, push', hprev, insn, hi, k, hk, hif⟩ := h
  split at hif
  · rename_i hcond
    cases hif
    obtain ⟨rfl, hnot⟩ := hcond
    refine ⟨hprev, by simpa using hnot, ?_⟩
    unfold discardedSlots? at hslots
    split at hslots
    · rename_i bytes ht
      exact ⟨insn, _, bytes, k, hi, hk, ht, .inl ⟨rfl, (Option.some.inj hslots).symm⟩⟩
    · rename_i bytes ht
      exact ⟨insn, _, bytes, k, hi, hk, ht, .inr ⟨rfl, (Option.some.inj hslots).symm⟩⟩
    · cases hslots
  · cases hif

/-- The pairs are found in one pass and removed in another. One that shares a node
with an earlier pair is found dead and skipped. -/
theorem leads_removePairs (h : σ.stream.Thins m) :
    Leads σ.stream (·.Thins m) (removePairs σ).1 (removePairs σ).2.stream := by
  -- Instructions without targets stay as they are in the snapshot.
  let I : List (Nat × Nat) → CodeStream → Prop := fun l s =>
    Since m σ.stream s ∧ (∀ pair ∈ l, Discarded σ.stream pair.1 pair.2) ∧
      ∀ {n insn}, σ.stream.instruction? n = some insn → insn.targets = [] →
        s.instruction? n = some insn
  rw [removePairs, Steps.bind_apply, Steps.get_apply]
  refine (Leads.forM (I := I) (fun pair rest τ hI => ?_) ⟨.refl h, ?_, fun hi _ => hi⟩).mono
    fun hI => hI.1.thins
  · obtain ⟨push, take⟩ := pair
    obtain ⟨hsince, hpairs, hsame⟩ := hI
    have hrest : ∀ pair ∈ rest, Discarded σ.stream pair.1 pair.2 :=
      fun pair hpair => hpairs pair (List.mem_cons_of_mem _ hpair)
    obtain ⟨hprev, hfree, insn, opcode, bytes, k, hp, hk, ht, hop⟩ :=
      hpairs (push, take) List.mem_cons_self
    dsimp only
    rw [removePair, Steps.bind_apply, Steps.get_apply]
    dsimp only
    split
    · rename_i hlive
      have hpure : insn.isPurePush := by
        rw [Instruction.isPurePush, hk]
        rfl
      have hbehind : Behind τ.stream push take :=
        hsince.behind hprev hfree (targets_of_instruction? ht) hlive.1 hlive.2
      have hspare := Spare.discard hbehind
        (hsame hp (Instruction.targets_of_isPurePush hpure)) hk (hsame ht rfl) hop
      refine (leads_deletePair hspare _).mono fun {s'} hd => ⟨hsince.deleteAll hd, hrest, ?_⟩
      intro n insn hi htargets
      exact instruction?_deleteAll hd (hsame hi htargets) htargets
    · exact .pure ⟨hsince, hrest, hsame⟩
  · intro pair hpair
    obtain ⟨take, -, hmap⟩ := List.mem_filterMap.1 hpair
    obtain ⟨push, hpush, rfl⟩ := Option.map_eq_some_iff.1 hmap
    exact discarded_of_discardedPush? hpush

/-! ### Rounds -/

theorem counted_renumber (s : CodeStream) : Counted s.renumber := by
  intro n hn
  rw [isLive_renumber] at hn
  rw [position_renumber hn]
  exact List.countP_congr fun k _ => by rw [isLive_renumber]

/-- A round is a renumbering and a number of edits. -/
theorem leads_round (h : σ.stream.Thins m) :
    Leads σ.stream (·.Thins m) (round σ).1 (round σ).2.stream := by
  let τ : State :=
    { σ with stream := σ.stream.renumber, stats.rounds := σ.stats.rounds + 1 }
  have hround : round σ = (sweep τ.stream τ.stream.loops >>= fun _ => removePairs) τ := by
    rw [round, Steps.bind_apply, Steps.modify_apply]
    dsimp only
    rw [Steps.bind_apply, Steps.get_apply]
  rw [hround]
  have hτ : τ.stream = σ.stream.renumber := rfl
  have hsweep := leads_sweep (σ := τ) h.renumber (counted_renumber _) hτ
  refine .trans (.single .renumber) (hτ ▸ Leads.bind (Q := (·.Thins m)) ?_ ?_)
  · rw [hτ] at hsweep ⊢
    exact hsweep.mono Since.thins
  · exact fun _ υ hυ => leads_removePairs hυ

theorem leads_rounds (h : σ.stream.Thins m) (limit : Nat) :
    Leads σ.stream (·.Thins m) (rounds limit σ).1 (rounds limit σ).2.stream := by
  induction limit generalizing σ with
  | zero => exact .pure h
  | succ limit ih =>
      rw [rounds, Steps.bind_apply, Steps.get_apply]
      refine Leads.bind (leads_round h) fun _ τ hτ => ?_
      rw [Steps.bind_apply, Steps.get_apply]
      dsimp only
      split
      · exact ih hτ
      · exact .pure hτ

/-- The whole pass is a chain of edits. -/
theorem leads_removeDeadStores (h : s.Thins m) (limit : Nat) :
    Leads s (·.Thins m) (s.removeDeadStores limit).1 (s.removeDeadStores limit).2 := by
  have hleads := leads_rounds (σ := { stream := s }) h limit
  unfold removeDeadStores
  rcases hr : rounds limit { stream := s } with ⟨outcome, final⟩
  rw [hr] at hleads
  cases outcome with
  | ok _ => exact ⟨hleads.1.tail .renumber, hleads.2.renumber⟩
  | error e => exact hleads

/-! ### Behaviour -/

section Behaviour

open Machine

variable {Ref Heap Event : Type} {env : Environment Ref Heap Event} {vars : Variables Ref}
  {heap : Heap}

/-- By induction on the edits: each keeps the behaviour, and leaves a program that
is safe for the next one. -/
theorem sameBehaviour_of_edits (h : ReflTransGen Edit s s') (ht : s.Thins m)
    (hs : SafeFrom env s.program vars heap) :
    SafeFrom env s'.program vars heap ∧ SameBehaviour env s.program s'.program vars heap := by
  have hchain : s'.Thins m ∧ SafeFrom env s'.program vars heap ∧
      SameBehaviour env s.program s'.program vars heap := by
    induction h with
    | refl => exact ⟨ht, hs, .refl⟩
    | tail _ hedit ih =>
        obtain ⟨hthins, hsafe, hsame⟩ := ih
        obtain ⟨hsafe', hsame'⟩ := hedit.sameBehaviour hthins hsafe
        exact ⟨hedit.thins hthins, hsafe', hsame.trans hsame'⟩
  exact hchain.2

/-- **Removing dead stores preserves behaviour.** What the pass makes of the
stream of a method can be turned back into a method, and from variables and a
heap with which the method does not get stuck this one ends alike with the same
output, or goes on forever like it. -/
theorem removeDeadStores_sameBehaviour {limit : Nat} {stats : Stats} (hs : ofMethod m = .ok s)
    (hr : s.removeDeadStores limit = (.ok stats, s')) (hsafe : SafeFrom env m.program vars heap) :
    ∃ result, s'.toMethod m = .ok result ∧
      SameBehaviour env m.program result.program vars heap := by
  obtain ⟨hclosed, rfl⟩ := ofMethod_eq_ok_iff.1 hs
  have hthins := thins_whole hclosed
  obtain ⟨hedits, hthins'⟩ : ReflTransGen Edit (whole m) s' ∧ s'.Thins m := by
    have hleads := leads_removeDeadStores hthins limit
    rwa [hr] at hleads
  obtain ⟨hsafe₁, hsame₁⟩ := (embeds_whole hclosed).sameBehaviour hsafe
  obtain ⟨hsafe₂, hsame₂⟩ := sameBehaviour_of_edits hedits hthins hsafe₁
  obtain ⟨result, hresult, hsame₃⟩ := hthins'.toMethod m hsafe₂
  exact ⟨result, hresult, (hsame₁.trans hsame₂).trans hsame₃⟩

/-- A protected loop that copies one variable to another. Nobody reads the copy,
and without the copy nobody reads the variable. -/
def idleCopy : Method where
  code := [
    .const (.int 1), .store (.number .int) 1,
    .increment 0 (-1), .load (.number .int) 1, .store (.number .int) 2, .load (.number .int) 0,
    .branch (.zero .ne) 2, .verbatim 0xb1 []]
  handlers := [⟨2, 6, 7, 0⟩]
  parameterSlots := 1

theorem removeDeadStores_idleCopy : ∃ stats s',
    (whole idleCopy).removeDeadStores 64 = (.ok stats, s') ∧ s'.length = 4 := by
  have h : ((whole idleCopy).removeDeadStores 64).1.isOk ∧
      ((whole idleCopy).removeDeadStores 64).2.length = 4 := by cbv
  generalize (whole idleCopy).removeDeadStores 64 = result at h
  rcases result with ⟨_ | stats, s'⟩
  · cases h.1
  · exact ⟨stats, s', rfl, h.2⟩

theorem removeDeadStores_sameBehaviour_idleCopy :
    let vars : Variables Unit := fun i => if i = 0 then some (.number (.int 2)) else none
    SafeFrom .quiet idleCopy.program vars () ∧
      ∃ stats s', (whole idleCopy).removeDeadStores 64 = (.ok stats, s') ∧ s'.length = 4 ∧
        ∃ result, s'.toMethod idleCopy = .ok result ∧
          SameBehaviour .quiet idleCopy.program result.program vars () := by
  intro vars
  have hsafe : SafeFrom .quiet idleCopy.program vars () :=
    (TypeConsistent.of_trace 20 (by decide +kernel) (by decide +kernel)).safe
  obtain ⟨stats, s', hr, hlength⟩ := removeDeadStores_idleCopy
  exact ⟨hsafe, stats, s', hr, hlength, removeDeadStores_sameBehaviour rfl hr hsafe⟩

end Behaviour

end JvmOptimizer.DeadStore
