import JvmOptimizer.Proofs.Fold.Advance

/-!
# What a run knows is true

On every way through the method, whenever control comes to an instruction, the
values that the pass knows there stand in their variables and on the operand
stack. Going forward this is the account of each step; going backward it is
that a loop does not write what is known at its head.
-/

namespace JvmOptimizer.Fold

open Machine CodeStream

variable {Ref Heap Event : Type} {env : Environment Ref Heap Event} {m : Method}

/-- What an instruction does not write stays known. -/
theorem Locals.Fits.of_goes {l : Locals} {insn : Instruction Nat} {target : Option Nat}
    {stack stack' : List (Datum Ref)} {vars vars' : Variables Ref} {heap heap' : Heap}
    {events : List Event} (h : l.Fits vars)
    (he : Machine.execute env insn stack vars heap = .goes target stack' vars' heap' events)
    (ha : ∀ e ∈ l.entries, ∀ slot ∈ insn.writtenSlots, Avoids e slot) : l.Fits vars' := by
  cases insn with
  | store kind index =>
      simp only [Machine.execute] at he
      split at he
      · split at he
        · rename_i d rest hkind
          cases he
          refine h.write d (fun e hmem slot hslot => ha e hmem slot ?_) (slots_pos d)
          rwa [Datum.slots, hkind] at hslot
        · cases he
      · cases he
  | increment index delta =>
      simp only [Machine.execute] at he
      split at he
      · cases he
        -- An increment writes one slot, which is the lower or the upper half of no entry.
        refine h.exchange _ fun e hmem heq => ?_
        have havoid := ha e hmem index.toNat List.mem_cons_self
        have := e.2.slots_eq
        unfold Avoids at havoid
        omega
      · cases he
  | const | load | branch | jump | switch =>
      simp only [Machine.execute] at he
      repeat' split at he
      all_goals cases he
      all_goals exact h
  | arith | compare | convert =>
      obtain ⟨-, -, -, -, -, -, rfl, -⟩ := compute_eq_goes he
      exact h
  | verbatim opcode bytes =>
      obtain ⟨-, rfl, -⟩ := runVerbatim_eq_goes he
      exact h

namespace Run

variable {R : Run m} {c c' : Config Ref Heap Event}

/-- What the run knows where the machine is, is true; and so is what it knows at
the heads of the loops that the machine is in. -/
structure Tracks (R : Run m) (c : Config Ref Heap Event) : Prop where
  visited : R.Visited c.pc
  locals : (R.arrival c.pc).locals.Fits c.vars
  stack : Describes Slot.Tells (R.arrival c.pc).stack c.stack
  reachable : m.Reachable c.pc
  loops : ∀ {h}, R.Visited h → m.LeadsBack h c.pc → (R.arrival h).locals.Fits c.vars

theorem Tracks.treated (h : R.Tracks c) {insn : Instruction Nat} (hi : m.code[c.pc]? = some insn) :
    R.Treated c.pc insn :=
  R.treated h.visited hi

theorem avoids_of_loopWrites {h slot : Nat} (hv : R.Visited h) (hw : m.LoopWrites h slot)
    {e : Nat × Value} (he : e ∈ (R.arrival h).locals.entries) : Locals.Avoids e slot := by
  obtain ⟨tail, ⟨-, x, hx, ht⟩, k, insn, hle, hlt, hk, hslot⟩ := hw
  exact R.avoids_of_loop hv hx ht hle hlt hk hslot he

/-- **Loops keep** what is known at their heads. -/
theorem Tracks.loops_of_goes (hcov : m.LoopsCovered) (h : R.Tracks c) {insn : Instruction Nat}
    {target : Option Nat} {stack : List (Datum Ref)} {vars : Variables Ref} {heap : Heap}
    {events : List Event} {t head : Nat} (hi : m.code[c.pc]? = some insn)
    (he : Machine.execute env insn c.stack c.vars c.heap = .goes target stack vars heap events)
    (hedge : m.Edge c.pc t) (hv : R.Visited head) (hb : m.LeadsBack head t) :
    (R.arrival head).locals.Fits vars := by
  by_cases hhead : c.pc = head
  · -- The machine leaves the head, whose writes lie in the loop as well.
    subst hhead
    obtain ⟨tail, hback, hlt⟩ := hb.exists_backward
    refine h.locals.of_goes he fun e hmem slot hslot => avoids_of_loopWrites hv ?_ hmem
    exact ⟨tail, hback, c.pc, insn, le_rfl, hlt, hi, hslot⟩
  · have hback := Method.LeadsBack.step hedge hb hhead
    refine (h.loops hv hback).of_goes he fun e hmem slot hslot => avoids_of_loopWrites hv ?_ hmem
    exact (hcov _ _ h.reachable hback).2 insn slot hi hslot

/-- The step of the invariant where control stays in the method: what is known at
the target is part of what is known behind the instruction, and at the head of a
loop it is nothing that the loop writes. -/
theorem Tracks.of_goes (hcov : m.LoopsCovered) (h : R.Tracks c) {insn : Instruction Nat}
    {target : Option Nat} {stack : List (Datum Ref)} {vars : Variables Ref} {heap : Heap}
    {events output : List Event} (hi : m.code[c.pc]? = some insn)
    (he : Machine.execute env insn c.stack c.vars c.heap = .goes target stack vars heap events)
    (hedge : m.Edge c.pc (target.getD (c.pc + 1))) (hlt : target.getD (c.pc + 1) < m.code.length)
    (hshape : target.getD (c.pc + 1) = c.pc → stack.length = c.stack.length) :
    R.Tracks (⟨target.getD (c.pc + 1), stack, vars, heap, output⟩ : Config Ref Heap Event) := by
  have hpc := (List.getElem?_eq_some_iff.1 hi).1
  have hfunctional := (R.sound_arrival hpc.le).locals
  obtain ⟨locals, slots, floor, hadv⟩ := advance h.locals h.stack (h.treated hi) hfunctional he
  have hflows := hadv.flows hlt
  -- A transfer to the same place or back leaves the variables alone.
  have hvars : target.getD (c.pc + 1) ≤ c.pc → ∃ t, target = some t ∧ t ∈ insn.targets ∧
      vars = c.vars ∧ (stack.length = c.stack.length → stack = c.stack) := by
    intro hle
    rcases goes_target he with ⟨rfl, -⟩ | ⟨t, ht, rfl⟩
    · exact absurd hle (by simp)
    · exact ⟨t, rfl, ht, goes_some he⟩
  refine ⟨hflows.visited, ?_, ?_, h.reachable.tail hedge, fun hv => h.loops_of_goes hcov hi he hedge hv⟩
  · rcases Nat.lt_trichotomy (target.getD (c.pc + 1)) c.pc with hback | heq | hforward
    · obtain ⟨t, rfl, ht, rfl, -⟩ := hvars hback.le
      exact h.loops hflows.visited (.tail ⟨hback.le, insn, hi, ht⟩ (Nat.ne_of_gt hback))
    · obtain ⟨t, rfl, ht, rfl, -⟩ := hvars heq.le
      change (R.arrival ((some t).getD (c.pc + 1))).locals.Fits c.vars
      rw [heq]
      exact h.locals
    · exact hadv.fits.mono (hflows.locals hforward)
  · by_cases heq : target.getD (c.pc + 1) = c.pc
    · obtain ⟨t, rfl, ht, -, hstack⟩ := hvars heq.le
      change Describes Slot.Tells (R.arrival ((some t).getD (c.pc + 1))).stack stack
      rw [hstack (hshape heq), heq]
      exact h.stack
    · change Describes Slot.Tells (R.arrival (target.getD (c.pc + 1))).stack stack
      rcases hflows.stack with ⟨hsame, -⟩ | ⟨hnil, -⟩ | ⟨hself, -⟩
      · rw [hsame]
        exact hadv.describes
      · rw [hnil]
        trivial
      · exact absurd hself heq

/-- An exception comes to a handler where nothing is known. -/
theorem Tracks.of_throws (h : R.Tracks c) {insn : Instruction Nat}
    {exception : Ref} {heap : Heap} {events output : List Event} {entry : Nat}
    {stack : List (Datum Ref)} {catches : UInt16 → Bool} (hi : m.code[c.pc]? = some insn)
    (he : Machine.execute env insn c.stack c.vars c.heap = .throws exception heap events)
    (hh : m.program.handler? c.pc catches = some entry) :
    R.Tracks (⟨entry, stack, c.vars, heap, output⟩ : Config Ref Heap Event) := by
  have hlive := (copies_of_leaves (h.treated hi) h.stack he trivial).1
  obtain ⟨r, hmem, hle, hlt, rfl⟩ := Method.exists_handler hh
  obtain ⟨hvisited, hstack, -, hlocals⟩ := R.visited_of_handler hlive hmem hle hlt
  have hedge : m.Edge c.pc r.entry := .handler hi hmem hle hlt
  refine ⟨hvisited, ?_, ?_, h.reachable.tail hedge, fun {head} hv hb => ?_⟩
  · intro e hmem
    rw [hlocals] at hmem
    cases hmem
  · rw [hstack]
    trivial
  · by_cases hhead : c.pc = head
    · rw [← hhead]
      exact h.locals
    · exact h.loops hv (.step hedge hb hhead)

/-- **One step** leads from truth to truth. -/
theorem Tracks.step (hcov : m.LoopsCovered) (h : R.Tracks c)
    (hs : step env m.program c = .running c') (hlt : c'.pc < m.code.length)
    (hshape : c'.pc = c.pc → c'.stack.length = c.stack.length) : R.Tracks c' := by
  have hedge := Method.edge_of_step hs
  obtain ⟨insn, hfetch⟩ := exists_fetch hs nofun
  have hi : m.code[c.pc]? = some insn := hfetch
  simp only [Machine.step, hfetch] at hs
  cases he : Machine.execute env insn c.stack c.vars c.heap with
  | goes target stack vars heap events =>
      rw [he] at hs
      cases hs
      exact h.of_goes hcov hi he hedge hlt hshape
  | throws exception heap events =>
      rw [he] at hs
      simp only [resume] at hs
      split at hs
      · rename_i entry hentry
        cases hs
        exact h.of_throws hi he hentry
      · cases hs
  | returns | stuck =>
      rw [he] at hs
      cases hs

/-- Nothing is known at the start of a method, so everything that is known holds.
-/
theorem tracks_initial (hcov : m.LoopsCovered) {vars : Variables Ref} {heap : Heap}
    (hlt : 0 < m.code.length) :
    R.Tracks (m.program.initial vars heap : Config Ref Heap Event) := by
  have hlocals : (R.arrival 0).locals.entries ⊆ [] := by
    by_cases hm : (R.before 0).isMerge 0
    · rw [R.locals_arrival_of_merge hm]
      have hsub := R.mergedLocals_subset (Nat.zero_le _) (l := {}) (by
        rw [R.start]
        exact List.mem_cons_self)
      exact hsub
    · rw [R.arrival_of_not_merge hm, R.start]
      exact List.Subset.refl _
  have hstack : (R.arrival 0).stack = [] := by
    by_cases hm : (R.before 0).isMerge 0
    · exact (R.stack_arrival_of_merge hm).1
    · rw [R.arrival_of_not_merge hm, R.start]
  refine ⟨R.visited_zero hlt, (Locals.fits_empty vars).mono hlocals, ?_, .refl, fun {h} _ hb => ?_⟩
  · change Describes Slot.Tells (R.arrival 0).stack []
    rw [hstack]
    trivial
  · exact absurd rfl (hcov h 0 .refl hb).1

/-- A machine that does not get stuck is at an instruction. -/
theorem pc_lt_length {vars : Variables Ref} {heap : Heap}
    (hs : SafeFrom env m.program vars heap)
    (hr : Reaches (Machine.step env m.program) (m.program.initial vars heap) c) :
    c.pc < m.code.length := by
  obtain ⟨insn, hi⟩ := exists_fetch (rfl : Machine.step env m.program c = _) (hs c hr)
  exact (List.getElem?_eq_some_iff.1 hi).1

/-- **What the run knows is true** on every way through the method. -/
theorem tracks (hcov : m.LoopsCovered) {vars : Variables Ref} {heap : Heap}
    (hc : TypeConsistent env m.program vars heap)
    (hr : Reaches (Machine.step env m.program) (m.program.initial vars heap) c) : R.Tracks c := by
  induction hr with
  | refl => exact tracks_initial hcov (pc_lt_length hc.safe .refl)
  | @tail c d hr hs ih =>
      refine ih.step hcov hs (pc_lt_length hc.safe (hr.tail hs)) fun heq => ?_
      have hkinds := congrArg List.length (hc.shapes (hr.tail hs) hr heq)
      simpa using hkinds

end Run

/-! ### Propagated loads -/

section Propagation

variable {s s' : CodeStream} {stats : Stats} {n : Nat} {kind : LocalKind} {index : UInt16}
  {v : Value} {vars : Variables Ref} {heap : Heap}

/-- **A load that became a constant** finds that constant in its variable
whenever control comes to it, in the first and in every later round of the loops
around it, provided that the loops are covered by the code between their heads
and tails. -/
theorem propagated_load_holds (hs : ofMethod m = .ok s)
    (hf : s.fold s.loops = (.ok stats, s')) (hcov : m.LoopsCovered)
    (hc : TypeConsistent env m.program vars heap) (hi : m.code[n]? = some (.load kind index))
    (hx : s'.instruction? n = some (.const v)) {c : Config Ref Heap Event}
    (hr : Reaches (Machine.step env m.program) (m.program.initial vars heap) c) (hn : c.pc = n) :
    c.vars index.toNat = some (.number v) := by
  obtain ⟨R, rfl⟩ := exists_run hs hf
  have htracks := R.tracks hcov hc hr
  rw [instruction?_renumber] at hx
  subst hn
  cases htracks.treated hi with
  | compute hk => cases hk
  | condense hk => cases hk
  | load hload next =>
      rcases hload with hload | ⟨w, hw, hconst⟩
      · rw [hx] at hload
        cases hload
      · rw [hx] at hconst
        cases hconst
        exact htracks.locals _ (Locals.mem_of_ofKind? hw).1

end Propagation

/-- A loop around a variable that it does not change: at 4 it loads, in each
round, a sum that was folded before. -/
def steadyLoop : Method where
  code := [
    .const (.int 1), .const (.int 2), .arith .add .int, .store (.number .int) 1,
    .load (.number .int) 1, .verbatim Opcode.pop [], .increment 0 (-1), .load (.number .int) 0,
    .branch (.zero .ne) 4, .verbatim 0xb1 []]
  parameterSlots := 1

/-- The loop goes round twice. -/
def twice : Variables Unit := fun i => if i = 0 then some (.number (.int 2)) else none

theorem exists_fold_eq {s : CodeStream} {n : Nat} {insn : Instruction Nat}
    (h : (s.fold s.loops).1.isOk ∧ (s.fold s.loops).2.instruction? n = some insn) :
    ∃ stats s', s.fold s.loops = (.ok stats, s') ∧ s'.instruction? n = some insn := by
  rcases hf : s.fold s.loops with ⟨_ | stats, s'⟩
  · rw [hf] at h
    cases h.1
  · rw [hf] at h
    exact ⟨stats, s', rfl, h.2⟩

theorem fold_steadyLoop : ∃ stats s',
    (whole steadyLoop).fold (whole steadyLoop).loops = (.ok stats, s') ∧
      s'.instruction? 4 = some (.const (.int 3)) :=
  exists_fold_eq (by decide +kernel)

theorem typeConsistent_steadyLoop : TypeConsistent .quiet steadyLoop.program twice () :=
  .of_trace 20 (by decide +kernel) (by decide +kernel)

/-- In the second round of `steadyLoop` the variable holds the sum. -/
theorem propagated_load_holds_steadyLoop :
    steadyLoop.LoopsCovered ∧ TypeConsistent .quiet steadyLoop.program twice () ∧
      ∃ stats s', (whole steadyLoop).fold (whole steadyLoop).loops = (.ok stats, s') ∧
        s'.instruction? 4 = some (.const (.int 3)) ∧
        ∃ c, Reaches (Machine.step .quiet steadyLoop.program) (steadyLoop.program.initial twice ())
            c ∧ c.pc = 4 ∧ c.vars 0 = some (.number (.int 1)) ∧
          c.vars 1 = some (.number (.int 3)) := by
  have hcov : steadyLoop.LoopsCovered :=
    Method.LoopsEnteredAtHead.loopsCovered (by decide)
  obtain ⟨stats, s', hf, hx⟩ := fold_steadyLoop
  have hround : ∃ c ∈ trace .quiet steadyLoop.program 20 (steadyLoop.program.initial twice ()),
      c.pc = 4 ∧ c.vars 0 = some (.number (.int 1)) := by decide +kernel
  obtain ⟨c, hmem, hpc, hvar⟩ := hround
  have hr := reaches_of_mem_trace hmem
  exact ⟨hcov, typeConsistent_steadyLoop, stats, s', hf, hx, c, hr, hpc, hvar,
    propagated_load_holds rfl hf hcov typeConsistent_steadyLoop
      (rfl : steadyLoop.code[4]? = some (.load (.number .int) 1)) hx hr hpc⟩

/-- A loop from 2 to 5 whose body is laid out behind its tail: it leaves the part
between them at 4, writes its variable and comes back to the tail. -/
def outOfLineLoop : Method where
  code := [
    .const (.int 0), .store (.number .int) 0,
    .load (.number .int) 0, .branch (.zero .ne) 6, .jump 7, .jump 2, .verbatim 0xb1 [],
    .const (.int 1), .store (.number .int) 0, .jump 5]

/-- **A loop that is not covered** breaks propagation: the load at 2 becomes the
constant 0, and in the second round its variable holds 1. -/
theorem propagation_fails_outOfLineLoop :
    TypeConsistent .quiet outOfLineLoop.program (fun _ => none) () ∧
      ∃ stats s', ofMethod outOfLineLoop = .ok (whole outOfLineLoop) ∧
        (whole outOfLineLoop).fold (whole outOfLineLoop).loops = (.ok stats, s') ∧
        outOfLineLoop.code[2]? = some (.load (.number .int) 0) ∧
        s'.instruction? 2 = some (.const (.int 0)) ∧
        ∃ c, Reaches (Machine.step .quiet outOfLineLoop.program)
            (outOfLineLoop.program.initial (fun _ => none) ()) c ∧
          c.pc = 2 ∧ c.vars 0 = some (.number (.int 1)) := by
  have hround : ∃ c ∈ trace .quiet outOfLineLoop.program 20
      (outOfLineLoop.program.initial (fun _ => none) ()),
      c.pc = 2 ∧ c.vars 0 = some (.number (.int 1)) := by decide +kernel
  obtain ⟨c, hmem, hpc, hvar⟩ := hround
  obtain ⟨stats, s', hf, hx⟩ : ∃ stats s',
      (whole outOfLineLoop).fold (whole outOfLineLoop).loops = (.ok stats, s') ∧
        s'.instruction? 2 = some (.const (.int 0)) := exists_fold_eq (by decide +kernel)
  exact ⟨.of_trace 20 (by decide +kernel) (by decide +kernel), stats, s', rfl, hf, rfl, hx,
    c, reaches_of_mem_trace hmem, hpc, hvar⟩

end JvmOptimizer.Fold
