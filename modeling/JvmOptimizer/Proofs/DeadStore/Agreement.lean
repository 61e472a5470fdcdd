import JvmOptimizer.DeadStore
import JvmOptimizer.Proofs.Flow

/-!
# Programs without a store

When nobody reads a variable any more, a program that does not store to it does
the same. Its variables **agree** with those of the other program except for the
one slot: whatever stands in another slot there stands in it here as well. More
may stand here, since a store also destroys values that overlap with its own.

The store may be exchanged for a discard of its value, or it goes together with
the instruction that pushed the value. In both cases the two programs are in
step everywhere else, which is said once by `Follows`.
-/

namespace JvmOptimizer.Machine

variable {τ Ref Heap Event : Type} {env : Environment Ref Heap Event}

/-! ### Agreement -/

/-- Outside of a slot, what the first variables hold the second hold too. -/
def Agrees (slot : Nat) (vars vars' : Variables Ref) : Prop :=
  ∀ i ≠ slot, ∀ d, vars i = some d → vars' i = some d

namespace Agrees

variable {slot i : Nat} {vars vars' : Variables Ref} {d : Datum Ref}

theorem refl : Agrees slot vars vars := fun _ _ _ h => h

/-- Two writes of the same value preserve agreement, at whatever slot they are. -/
theorem write (h : Agrees slot vars vars') : Agrees slot (vars.write i d) (vars'.write i d) := by
  intro j hj e he
  unfold Variables.write at he ⊢
  split at he
  · rename_i hji
    rw [if_pos hji, he]
  · rename_i hji
    rw [if_neg hji]
    split at he
    · cases he
    · rename_i hnext
      rw [if_neg hnext]
      split at he
      · cases he
      · rename_i hwide
        have hsame := h j hj e he
        rw [he] at hwide
        rw [hsame, if_neg hwide]

/-- A store to the slot itself may be left out. -/
theorem write_left (h : Agrees slot vars vars') : Agrees slot (vars.write slot d) vars' := by
  intro j hj e he
  unfold Variables.write at he
  rw [if_neg hj] at he
  split at he
  · cases he
  · split at he
    · cases he
    · exact h j hj e he

theorem exchange (h : Agrees slot vars vars') :
    Agrees slot (vars.exchange i d) (vars'.exchange i d) := by
  intro j hj e he
  unfold Variables.exchange at he ⊢
  split at he
  · rename_i hji
    rw [if_pos hji, he]
  · rename_i hji
    rw [if_neg hji, h j hj e he]

end Agrees

/-- Two actions that differ in the variables only, which agree. -/
inductive Action.Agrees (slot : Nat) :
    Action τ Ref Heap Event → Action τ Ref Heap Event → Prop
  | goes {target stack vars vars' heap events} (h : Machine.Agrees slot vars vars') :
      Action.Agrees slot (.goes target stack vars heap events)
        (.goes target stack vars' heap events)
  | throws {exception heap events} :
      Action.Agrees slot (.throws exception heap events) (.throws exception heap events)
  | returns {stack heap events} :
      Action.Agrees slot (.returns stack heap events) (.returns stack heap events)

/-- An action agrees with itself. The one that is stuck agrees with nothing: a
program that is stuck is no program to be in step with. -/
theorem Action.Agrees.refl {slot : Nat} {action : Action τ Ref Heap Event}
    (h : action ≠ .stuck) : action.Agrees slot action := by
  cases action with
  | goes => exact .goes .refl
  | throws => exact .throws
  | returns => exact .returns
  | stuck => exact absurd rfl h

theorem mem_range'_slots (kind : LocalKind) (i : Nat) : i ∈ List.range' i kind.slots := by
  have hpos : 0 < kind.slots := by
    cases kind with
    | number k => cases k <;> exact Nat.succ_pos _
    | reference => exact Nat.one_pos
  exact List.mem_range'_1.2 ⟨le_rfl, by omega⟩

section Execute

variable {slot : Nat} {insn : Instruction τ} {stack : List (Datum Ref)}
  {vars vars' : Variables Ref} {heap : Heap}

/-- A computation leaves the variables alone. -/
theorem compute_agrees {c : Computation} (h : Agrees slot vars vars')
    (hs : (compute env c stack vars heap : Action τ Ref Heap Event) ≠ .stuck) :
    (compute env c stack vars heap : Action τ Ref Heap Event).Agrees slot
      (compute env c stack vars' heap) := by
  unfold compute at hs ⊢
  split
  · rename_i hv
    simp [hv] at hs
  · rename_i values hv
    simp only [hv] at hs
    split
    · exact .goes h
    · exact .throws
    · rename_i he
      simp [he] at hs

/-- The instructions that stay as bytes work on the stack and on the heap, and do
not look at the variables. -/
theorem runVerbatim_agrees {opcode : Opcode} {bytes : Bytes} (h : Agrees slot vars vars')
    (hs : (runVerbatim env opcode bytes stack vars heap : Action τ Ref Heap Event) ≠ .stuck) :
    (runVerbatim env opcode bytes stack vars heap : Action τ Ref Heap Event).Agrees slot
      (runVerbatim env opcode bytes stack vars' heap) := by
  unfold runVerbatim at hs ⊢
  split
  · split
    · exact .goes h
    · rename_i hop _ hd
      simp [hop, hd] at hs
  · split
    · split
      · exact .returns
      · exact .goes h
    · exact .throws

/-- **An instruction that does not read the slot** does the same. -/
theorem execute_agrees (h : Agrees slot vars vars') (hr : slot ∉ insn.readSlots)
    (hs : execute env insn stack vars heap ≠ .stuck) :
    (execute env insn stack vars heap).Agrees slot (execute env insn stack vars' heap) := by
  cases insn with
  | const v => exact .goes h
  | load kind index =>
      -- A load reads its slot, so it is one where the variables agree.
      have hne : index.toNat ≠ slot := by
        rintro rfl
        exact hr (mem_range'_slots kind _)
      simp only [execute] at hs ⊢
      cases hv : vars index.toNat with
      | none => simp [hv] at hs
      | some d =>
          simp only [hv] at hs
          simp only [h _ hne d hv]
          split
          · exact .goes h
          · rename_i hkind
            simp [hkind] at hs
  | store kind index =>
      simp only [execute] at hs ⊢
      -- A store writes the same value on both sides.
      cases stack with
      | nil => simp at hs
      | cons d rest =>
          simp only at hs ⊢
          split
          · exact .goes h.write
          · rename_i hkind
            simp [hkind] at hs
  | increment index delta =>
      have hne : index.toNat ≠ slot := by
        rintro rfl
        exact hr List.mem_cons_self
      simp only [execute] at hs ⊢
      split at hs
      · rename_i v hv
        simp only [h _ hne _ hv]
        exact .goes h.exchange
      · exact absurd rfl hs
  | arith | compare | convert => exact compute_agrees h hs
  | branch condition target =>
      simp only [execute] at hs ⊢
      split
      · exact .goes h
      · exact .goes h
      · rename_i ht
        simp [ht] at hs
  | jump target => exact .goes h
  | switch fallback cases =>
      simp only [execute] at hs ⊢
      split at hs
      · exact .goes h
      · exact absurd rfl hs
  | verbatim opcode bytes => exact runVerbatim_agrees h hs

end Execute

/-! ### Programs in step -/

/-- Control that is in `region` stays there, and nothing there reads the slot. -/
structure Unread (p : Program) (slot : Nat) (region : Nat → Prop) : Prop where
  next : ∀ {n insn}, region n → p.fetch n = some insn → region (p.next n)
  target : ∀ {n insn t}, region n → p.fetch n = some insn → t ∈ insn.targets → region t
  handler : ∀ {n insn catches t}, region n → p.fetch n = some insn →
    p.handler? n catches = some t → region t
  reads : ∀ {n insn}, region n → p.fetch n = some insn → slot ∉ insn.readSlots

/-- Except at some places the second program has the instructions of the first,
under the names that `f` gives them. -/
structure Follows (f : Nat → Nat) (except : Nat → Prop) (p q : Program) : Prop where
  fetch : ∀ {n insn}, ¬ except n → p.fetch n = some insn →
    q.fetch (f n) = some (insn.mapTargets f)
  next : ∀ {n insn}, ¬ except n → p.fetch n = some insn → q.next (f n) = f (p.next n)
  handler : ∀ {n insn}, ¬ except n → p.fetch n = some insn → ∀ catches,
    q.handler? (f n) catches = (p.handler? n catches).map f

/-- The states differ in a slot only, and only in a region where it is not
read. -/
structure Similar (f : Nat → Nat) (slot : Nat) (region : Nat → Prop)
    (c d : Config Ref Heap Event) : Prop where
  pc : d.pc = f c.pc
  stack : d.stack = c.stack
  vars : Agrees slot c.vars d.vars
  outside : ¬ region c.pc → d.vars = c.vars
  heap : d.heap = c.heap
  output : d.output = c.output

section Step

variable {f : Nat → Nat} {slot : Nat} {region except : Nat → Prop} {p q : Program}
  {c c' d : Config Ref Heap Event}

/-- A step from the region ends in the region, whichever way it leaves the
instruction. -/
theorem Unread.step (hu : Unread p slot region) (hc : region c.pc)
    (hs : step env p c = .running c') : region c'.pc := by
  obtain ⟨insn, hi, ⟨hpc, -⟩ | ht | ⟨catches, hentry⟩⟩ := exists_of_running hs
  · rw [hpc]
    exact hu.next hc hi
  · exact hu.target hc hi ht
  · exact hu.handler hc hi hentry

/-- Where the programs are in step, what the second does agrees with what the
first does. -/
theorem Follows.execute_agrees (hf : Follows f except p q) (hu : Unread p slot region)
    (h : Similar f slot region c d) (hn : ¬ except c.pc) {insn : Instruction Nat}
    (hi : p.fetch c.pc = some insn) (hs : execute env insn c.stack c.vars c.heap ≠ .stuck) :
    ∃ action, step env q d = resume env q d (action.mapTarget f) ∧
      (execute env insn c.stack c.vars c.heap).Agrees slot action ∧
      (¬ region c.pc → action = execute env insn c.stack c.vars c.heap) := by
  refine ⟨execute env insn c.stack d.vars c.heap, ?_, ?_, fun hc => by rw [h.outside hc]⟩
  · have hq : q.fetch d.pc = some (insn.mapTargets f) := by
      rw [h.pc]
      exact hf.fetch hn hi
    simp only [step, hq, h.stack, h.heap, execute_mapTargets]
  · by_cases hc : region c.pc
    · exact Machine.execute_agrees h.vars (hu.reads hc hi) hs
    · rw [h.outside hc]
      exact .refl hs

/-- **One step** of programs that are in step. -/
theorem Follows.running (hf : Follows f except p q) (hu : Unread p slot region)
    (h : Similar f slot region c d) (hn : ¬ except c.pc) (hs : step env p c = .running c') :
    ∃ d', step env q d = .running d' ∧ Similar f slot region c' d' := by
  -- The variables may differ in the region only, which control does not leave.
  have hstay := fun hc => hu.step hc hs
  obtain ⟨insn, hi⟩ := exists_fetch hs nofun
  have hne := execute_ne_stuck hi (hs.trans_ne nofun)
  simp only [step, hi] at hs
  obtain ⟨action, hstep, hagrees, hsame⟩ := hf.execute_agrees hu h hn hi hne
  rw [hstep]
  generalize he : execute env insn c.stack c.vars c.heap = original at hs hagrees hsame
  cases hagrees with
  | @goes target stack vars vars' heap events hvars =>
      cases hs
      -- Control goes on, to the next instruction or to a target, under the new name.
      refine ⟨_, rfl, ?_, rfl, hvars, fun hc => ?_, rfl, by rw [h.output]⟩
      · cases target with
        | none =>
            change q.next d.pc = _
            rw [h.pc, hf.next hn hi]
            rfl
        | some t => rfl
      · injection hsame fun hr => hc (hstay hr)
  | @throws exception heap events =>
      -- An exception is caught by the handler of the same name.
      simp only [resume] at hs
      split at hs
      · rename_i entry hentry
        cases hs
        refine ⟨⟨f entry, [.reference exception], d.vars, heap, d.output ++ events⟩, ?_, rfl, rfl,
          h.vars, fun hc => h.outside fun hr => hc (hstay hr), rfl, by rw [h.output]⟩
        simp only [Action.mapTarget, resume, h.pc, hf.handler hn hi, hentry, Option.map_some]
      · cases hs
  | returns => cases hs

/-- A program that is followed halts where the other does, with the same result.
-/
theorem Follows.halted (hf : Follows f except p q) (hu : Unread p slot region)
    (h : Similar f slot region c d) (hn : ¬ except c.pc) {r : Result Ref Heap Event}
    (hs : step env p c = .halted r) : step env q d = .halted r := by
  obtain ⟨insn, hi⟩ := exists_fetch hs nofun
  have hne := execute_ne_stuck hi (hs.trans_ne nofun)
  simp only [step, hi] at hs
  obtain ⟨action, hstep, hagrees, -⟩ := hf.execute_agrees hu h hn hi hne
  rw [hstep]
  generalize he : execute env insn c.stack c.vars c.heap = original at hs hagrees
  cases hagrees with
  | goes => cases hs
  | throws =>
      simp only [resume] at hs
      split at hs
      · cases hs
      · rename_i hentry
        cases hs
        simp only [Action.mapTarget, resume, h.pc, hf.handler hn hi, hentry, Option.map_none,
          h.output]
  | returns =>
      cases hs
      simp only [Action.mapTarget, resume, h.output]

end Step

/-! ### A store that only discards -/

/-- What a discard for a kind does to a value of that kind. -/
theorem execute_discard {kind : LocalKind} {d : Datum Ref} {rest : List (Datum Ref)}
    {vars : Variables Ref} {heap : Heap} (hd : d.kind = kind) :
    execute env (DeadStore.discard kind) (d :: rest) vars heap = .goes none rest vars heap [] := by
  have hslots : d.slots = kind.slots := by rw [Datum.slots, hd]
  have hcases : kind.slots = 1 ∨ kind.slots = 2 := by
    cases kind with
    | number k => cases k <;> simp [LocalKind.slots, Kind.slots]
    | reference => exact .inl rfl
  rcases hcases with h | h
  · simp [DeadStore.discard, h, execute, runVerbatim, discard?, hslots]
  · have hne : Opcode.pop2 ≠ Opcode.pop := by decide
    simp [DeadStore.discard, h, execute, runVerbatim, discard?, hslots, hne]

section Discard

variable {slot store : Nat} {region : Nat → Prop} {p q : Program} {vars : Variables Ref}
  {heap : Heap} {kind : LocalKind} {index : UInt16}

/-- **A store that nobody reads may just discard its value.** -/
theorem sameBehaviour_of_discard (hf : Follows id (· = store) p q) (hstart : q.start = p.start)
    (hp : p.fetch store = some (.store kind index))
    (hq : q.fetch store = some (DeadStore.discard kind)) (hnext : q.next store = p.next store)
    (hu : Unread p index.toNat region) (hin : region store) (hs : SafeFrom env p vars heap) :
    SafeFrom env q vars heap ∧ SameBehaviour env p q vars heap := by
  have hsim : Simulation (step env p) (step env q) (Similar id index.toNat region)
      (fun _ => 0) := by
    constructor
    · intro c d c' h hc
      left
      by_cases hpc : c.pc = store
      -- At the store: one side writes the slot, the other drops the value, and from here
      -- on control is in the region where nobody reads it.
      · have hregion := hu.step (hpc ▸ hin) hc
        rw [← hpc] at hp hq hnext
        simp only [step, hp, execute] at hc
        split at hc
        · rename_i x rest hstack
          split at hc
          · rename_i hkind
            cases hc
            refine ⟨⟨p.next c.pc, rest, d.vars, c.heap, d.output ++ []⟩, ?_, rfl, rfl, ?_,
              fun hout => absurd hregion hout, rfl, by rw [h.output]⟩
            · have hd : d.pc = c.pc := h.pc
              simp only [step, hd, hq, h.stack, hstack, h.heap, execute_discard hkind, resume,
                hnext, Option.getD_none]
            · exact h.vars.write_left
          · cases hc
        · cases hc
      · exact hf.running hu h hpc hc
    · intro c d r h hc
      by_cases hpc : c.pc = store
      · rw [← hpc] at hp
        simp only [step, hp, execute] at hc
        -- A store does not halt.
        repeat' split at hc
        all_goals cases hc
      · exact hf.halted hu h hpc hc
  refine hsim.sameBehaviour (fun h => h.output.symm) ?_ hs
  exact ⟨hstart, rfl, .refl, fun _ => rfl, rfl, rfl⟩

end Discard

/-! ### A push and what takes it -/

/-- The instruction takes what was pushed and does nothing with it. -/
inductive Takes (slot : Nat) (region : Nat → Prop) (take : Nat) (pushed : Option Nat) :
    Instruction Nat → Prop
  | store {kind index} (hslot : index.toNat = slot) (hin : region take) :
      Takes slot region take pushed (.store kind index)
  | pop {bytes} (hk : pushed = some 1) : Takes slot region take pushed (.verbatim Opcode.pop bytes)
  | pop2 {bytes} (hk : pushed = some 2) :
      Takes slot region take pushed (.verbatim Opcode.pop2 bytes)

/-- The second program is the first without a push and the instruction behind it,
to which control comes from the push only. -/
structure Pair (f : Nat → Nat) (push take : Nat) (p q : Program) : Prop where
  follows : Follows f (fun n => n = push ∨ n = take) p q
  start : q.start = f p.start
  next_push : p.next push = take
  push_eq : f push = f take
  take_eq : f take = f (p.next take)
  push_ne : push ≠ take
  next_ne : p.next take ≠ take ∧ p.next take ≠ push
  start_ne : p.start ≠ take
  target : ∀ {n insn}, p.fetch n = some insn → take ∉ insn.targets
  next : ∀ {n insn}, p.fetch n = some insn → n ≠ push → p.next n ≠ take
  handler : ∀ {n insn catches}, p.fetch n = some insn → p.handler? n catches ≠ some take

section Pair

variable {f : Nat → Nat} {slot push take : Nat} {region : Nat → Prop} {p q : Program}
  {vars : Variables Ref} {heap : Heap} {insn insn' : Instruction Nat} {stack rest : List (Datum Ref)}
  {c c' d : Config Ref Heap Event}

/-- A push without effects puts a value on the stack, of the width it is known
for, and does nothing else. -/
theorem execute_purePush (hpure : insn.isPurePush)
    (hs : execute env insn stack vars heap ≠ .stuck) :
    ∃ x, execute env insn stack vars heap = .goes none (x :: stack) vars heap [] ∧
      insn.pushedSlots? = some x.slots := by
  cases insn with
  | const v => exact ⟨.number v, rfl, rfl⟩
  | load kind index =>
      simp only [execute] at hs ⊢
      split at hs
      · rename_i d hd
        split at hs
        · rename_i hkind
          refine ⟨d, by simp [hkind], ?_⟩
          rw [Datum.slots, hkind]
          rfl
        · exact absurd rfl hs
      · exact absurd rfl hs
  | _ => cases hpure

/-- What takes a value off the stack leaves nothing of it, but for a write to the
slot that is not read. -/
theorem Takes.execute_eq {x : Datum Ref} (ht : Takes slot region take (some x.slots) insn)
    (hs : execute env insn (x :: rest) vars heap ≠ .stuck) :
    ∃ vars', execute env insn (x :: rest) vars heap = .goes none rest vars' heap [] ∧
      (vars' = vars ∨ region take ∧ vars' = vars.write slot x) := by
  cases ht with
  | store hslot hin =>
      subst hslot
      simp only [execute] at hs ⊢
      split at hs
      · rename_i hkind
        exact ⟨_, by rw [if_pos hkind], .inr ⟨hin, rfl⟩⟩
      · exact absurd rfl hs
  | pop hk =>
      refine ⟨vars, ?_, .inl rfl⟩
      simp [execute, runVerbatim, discard?, Option.some.inj hk]
  | pop2 hk =>
      have hne : Opcode.pop2 ≠ Opcode.pop := by decide
      refine ⟨vars, ?_, .inl rfl⟩
      simp [execute, runVerbatim, discard?, Option.some.inj hk, hne]

/-- Between the push and what takes it there is one value more on the stack of
the first program. -/
def Paired (f : Nat → Nat) (slot : Nat) (region : Nat → Prop) (take : Nat) (pushed : Option Nat)
    (c d : Config Ref Heap Event) : Prop :=
  c.pc ≠ take ∧ Similar f slot region c d ∨
    c.pc = take ∧ ∃ x, pushed = some x.slots ∧ c.stack = x :: d.stack ∧
      Similar f slot region { c with stack := d.stack } d

/-- Control comes to the second instruction of the pair from the first one only.
-/
theorem Pair.step_ne_take (hpair : Pair f push take p q) (hc : c.pc ≠ push)
    (hs : step env p c = .running c') : c'.pc ≠ take := by
  obtain ⟨insn, hi, ⟨hpc, -⟩ | ht | ⟨catches, hentry⟩⟩ := exists_of_running hs
  · rw [hpc]
    exact hpair.next hi hc
  · exact fun heq => hpair.target hi (heq ▸ ht)
  · exact fun heq => hpair.handler hi (heq ▸ hentry)

/-- At the push the first program takes a step and the second stands still. -/
theorem Pair.step_push (hpair : Pair f push take p q) (hu : Unread p slot region)
    (hi : p.fetch push = some insn) (hpure : insn.isPurePush) (h : Similar f slot region c d)
    (hc : c.pc = push) (hs : step env p c = .running c') :
    c'.pc = take ∧ Paired f slot region take insn.pushedSlots? c' d := by
  subst hc
  have hstay := fun hr => hu.step hr hs
  obtain ⟨x, he, hx⟩ := execute_purePush hpure (execute_ne_stuck hi (hs.trans_ne nofun))
  simp only [step, hi] at hs
  rw [he] at hs
  cases hs
  have hnext : p.next c.pc = take := hpair.next_push
  refine ⟨hnext, .inr ⟨hnext, x, hx, by rw [h.stack], ?_⟩⟩
  refine ⟨?_, rfl, h.vars, fun hr => h.outside fun hc => hr (hstay hc), h.heap, ?_⟩
  · rw [h.pc, hpair.push_eq, ← hnext]
    rfl
  · rw [h.output]
    exact (List.append_nil _).symm

/-- At the instruction that takes the value the first program takes a step too,
and the second stands at the instruction behind the pair already. -/
theorem Pair.step_take (hpair : Pair f push take p q) (hu : Unread p slot region)
    (hi : p.fetch take = some insn) {x : Datum Ref}
    (ht : Takes slot region take (some x.slots) insn) (hstack : c.stack = x :: d.stack)
    (h : Similar f slot region { c with stack := d.stack } d) (hc : c.pc = take)
    (hs : step env p c = .running c') :
    c'.pc = p.next take ∧ Similar f slot region c' d := by
  subst hc
  have hstay := fun hr => hu.step hr hs
  obtain ⟨vars', he, hvars⟩ :=
    ht.execute_eq (hstack ▸ execute_ne_stuck hi (hs.trans_ne nofun))
  simp only [step, hi, hstack] at hs
  rw [he] at hs
  cases hs
  refine ⟨rfl, ?_, rfl, ?_, fun hr => ?_, h.heap, ?_⟩
  · rw [h.pc]
    exact hpair.take_eq
  -- A write to the slot is seen by nobody.
  · rcases hvars with rfl | ⟨-, rfl⟩
    · exact h.vars
    · exact h.vars.write_left
  · have hout : ¬ region c.pc := fun hc => hr (hstay hc)
    rcases hvars with rfl | ⟨hin, -⟩
    · exact h.outside hout
    · exact absurd hin hout
  · rw [h.output]
    exact (List.append_nil _).symm

/-- **A push and what takes it may go together.** -/
theorem Pair.sameBehaviour (hpair : Pair f push take p q) (hu : Unread p slot region)
    (hpush : p.fetch push = some insn) (hpure : insn.isPurePush)
    (htake : p.fetch take = some insn') (ht : Takes slot region take insn.pushedSlots? insn')
    (hs : SafeFrom env p vars heap) :
    SafeFrom env q vars heap ∧ SameBehaviour env p q vars heap := by
  have hsim : Simulation (step env p) (step env q)
      (Paired f slot region take insn.pushedSlots?)
      -- The measure goes down at the two steps that the second program does not take.
      (fun c => if c.pc = push then 2 else if c.pc = take then 1 else 0) := by
    constructor
    · rintro c d c' (⟨hc, h⟩ | ⟨hc, x, hx, hstack, h⟩) hs
      · by_cases hpc : c.pc = push
        · right
          obtain ⟨hpc', h'⟩ := hpair.step_push hu hpush hpure h hpc hs
          refine ⟨h', ?_⟩
          rw [if_pos hpc, if_neg (by rw [hpc']; exact hpair.push_ne.symm), if_pos hpc']
          decide
        · left
          obtain ⟨d', hd', h'⟩ := hpair.follows.running hu h (by simp [hpc, hc]) hs
          exact ⟨d', hd', .inl ⟨hpair.step_ne_take hpc hs, h'⟩⟩
      · right
        rw [hx] at ht
        obtain ⟨hpc', h'⟩ := hpair.step_take hu htake ht hstack h hc hs
        refine ⟨.inl ⟨by rw [hpc']; exact hpair.next_ne.1, h'⟩, ?_⟩
        rw [if_neg (by rw [hpc']; exact hpair.next_ne.2),
          if_neg (by rw [hpc']; exact hpair.next_ne.1),
          if_neg (by rw [hc]; exact hpair.push_ne.symm), if_pos hc]
        decide
    -- Neither of the two instructions halts.
    · rintro c d r (⟨hc, h⟩ | ⟨hc, x, hx, hstack, h⟩) hs
      · by_cases hpc : c.pc = push
        · rw [← hpc] at hpush
          simp only [step, hpush] at hs
          obtain ⟨x, he, -⟩ := execute_purePush hpure (fun he => by rw [he] at hs; cases hs)
          rw [he] at hs
          cases hs
        · exact hpair.follows.halted hu h (by simp [hpc, hc]) hs
      · rw [← hc] at htake
        simp only [step, htake, hstack] at hs
        rw [hx] at ht
        obtain ⟨vars', he, -⟩ := ht.execute_eq (fun he => by rw [he] at hs; cases hs)
        rw [he] at hs
        cases hs
  refine hsim.sameBehaviour ?_ (.inl ⟨hpair.start_ne, hpair.start, rfl, .refl, fun _ => rfl, rfl,
    rfl⟩) hs
  rintro c d (⟨-, h⟩ | ⟨-, x, -, -, h⟩)
  · exact h.output.symm
  · exact h.output.symm

end Pair

end JvmOptimizer.Machine
