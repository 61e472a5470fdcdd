import JvmOptimizer.Proofs.Fold.Known

/-!
# Folding preserves behaviour

The machine that runs the folded method follows the one that runs the method.
It stands at the next instruction that is left, with the same variables and
without the ghosts on its stack. At an instruction that is gone it waits; the
method then goes forward, so it does not wait for long.
-/

namespace JvmOptimizer.Fold

open Machine CodeStream

variable {Ref Heap Event : Type} {env : Environment Ref Heap Event} {m : Method}

namespace Run

variable {R : Run m} {c c' : Config Ref Heap Event} {n t : Nat} {vars : Variables Ref} {heap : Heap}

/-- The state of the machine that runs the folded method. -/
def project (R : Run m) (c : Config Ref Heap Event) : Config Ref Heap Event :=
  { c with pc := R.final.ahead c.pc, stack := strip R.ghost (R.arrival c.pc).stack c.stack }

/-- A step that the folded method takes as well. -/
theorem Copies.step_project {action : Action Nat Ref Heap Event}
    (h : R.Copies env c.pc c.stack c.vars c.heap action) :
    step env R.final.program (R.project c) = resume env R.final.program (R.project c) action := by
  obtain ⟨hlive, insn, hi, he⟩ := h
  have hpc : (R.project c).pc = c.pc := ahead_of_isLive hlive
  have hfetch : R.final.program.fetch (R.project c).pc = some insn := by
    rw [hpc, fetch_program]
    exact ⟨hlive, hi⟩
  simp only [step, hfetch]
  exact congrArg _ he

/-- One step of the method is one step of the result, or none: then control went
ahead in the method, so this cannot go on for ever. -/
theorem simulation_goes (h : R.Tracks c) {insn : Instruction Nat} {target : Option Nat}
    {stack : List (Datum Ref)} {vars : Variables Ref} {heap : Heap} {events : List Event}
    (hi : m.code[c.pc]? = some insn)
    (he : Machine.execute env insn c.stack c.vars c.heap = .goes target stack vars heap events)
    (hlt : target.getD (c.pc + 1) < m.code.length)
    (hc' : c' = ⟨target.getD (c.pc + 1), stack, vars, heap, c.output ++ events⟩) :
    step env R.final.program (R.project c) = .running (R.project c') ∨
      R.project c' = R.project c ∧ c.pc < c'.pc := by
  have hpc := (List.getElem?_eq_some_iff.1 hi).1
  obtain ⟨locals, slots, floor, hadv⟩ :=
    advance h.locals h.stack (h.treated hi) (R.sound_arrival hpc.le).locals he
  have hstrip : strip R.ghost (R.arrival (target.getD (c.pc + 1))).stack stack =
      strip R.ghost slots stack := (hadv.flows hlt).strip_eq
  subst hc'
  rcases hadv.mirrors with hcopy | ⟨hclears, hstack, rfl, rfl, rfl⟩
  · left
    rw [hcopy.step_project]
    have hself : R.final.ahead c.pc = c.pc := ahead_of_isLive hcopy.1
    simp only [resume, project, hstrip]
    cases target with
    | none => simp only [Option.map_none, Option.getD_none, program, hself]
    | some t => rfl
  · right
    refine ⟨?_, hclears.1⟩
    simp only [project, hstrip, hstack, hclears.ahead_eq hlt.le, List.append_nil]

/-- Where control leaves an instruction by an exception or a return, the result
does the same, and enters the same handler. -/
theorem simulation_leaves (h : R.Tracks c) {insn : Instruction Nat}
    {action : Action Nat Ref Heap Event} (hi : m.code[c.pc]? = some insn)
    (he : Machine.execute env insn c.stack c.vars c.heap = action) (ha : action.Leaves) :
    step env R.final.program (R.project c) = (match resume env m.program c action with
      | .running c' => .running (R.project c')
      | .halted r => .halted r
      | .stuck => .stuck) := by
  have hcopy := copies_of_leaves (h.treated hi) h.stack he ha
  rw [hcopy.step_project]
  cases action with
  | goes | stuck => exact ha.elim
  | returns stack heap events => rfl
  | throws exception heap events =>
      have hself : (R.project c).pc = c.pc := ahead_of_isLive hcopy.1
      have hhandler := R.thins_final.handler?_program hcopy.1 (env.catches · exception heap)
      simp only [resume, hself, hhandler]
      cases hh : m.program.handler? c.pc (env.catches · exception heap) with
      | none => rfl
      | some entry =>
          obtain ⟨r, hmem, hle, hlt, rfl⟩ := Method.exists_handler hh
          obtain ⟨-, hstack, -⟩ := R.visited_of_handler hcopy.1 hmem hle hlt
          simp only [Option.map_some, project, hstack, strip_nil]

/-- The folded method follows. -/
theorem simulation (hcov : m.LoopsCovered) (hc : TypeConsistent env m.program vars heap) :
    Simulation (step env m.program) (step env R.final.program)
      (fun c d => Reaches (step env m.program) (m.program.initial vars heap) c ∧ d = R.project c)
      (fun c => m.code.length - c.pc) := by
  constructor
  · rintro c d c' ⟨hr, rfl⟩ hs
    have htracks := R.tracks hcov hc hr
    have hr' := hr.tail hs
    have hlt := pc_lt_length hc.safe hr'
    obtain ⟨insn, hfetch⟩ := exists_fetch hs (by simp)
    simp only [step, hfetch] at hs
    cases he : Machine.execute env insn c.stack c.vars c.heap with
    | goes target stack vars heap events =>
        rw [he] at hs
        cases hs
        -- The distance to the end goes down where the result stands still.
        rcases simulation_goes htracks hfetch he hlt rfl with hstep | ⟨hsame, hforward⟩
        · exact .inl ⟨_, hstep, hr', rfl⟩
        · exact .inr ⟨⟨hr', hsame.symm⟩, Nat.sub_lt_sub_left (hforward.trans hlt) hforward⟩
    | throws exception heap events =>
        have hleaves := simulation_leaves htracks hfetch he trivial
        rw [← he, hs] at hleaves
        exact .inl ⟨_, hleaves, hr', rfl⟩
    | returns | stuck =>
        rw [he] at hs
        cases hs
  · rintro c d r ⟨hr, rfl⟩ hs
    have htracks := R.tracks hcov hc hr
    obtain ⟨insn, hfetch⟩ := exists_fetch hs (by simp)
    simp only [step, hfetch] at hs
    cases he : Machine.execute env insn c.stack c.vars c.heap with
    | goes | stuck =>
        rw [he] at hs
        cases hs
    | throws | returns =>
        have hleaves := simulation_leaves htracks hfetch he trivial
        rwa [← he, hs] at hleaves

/-- The simulation starts in step, as nothing is on the stack at the start. -/
theorem sameBehaviour_final (hcov : m.LoopsCovered) (hc : TypeConsistent env m.program vars heap) :
    SafeFrom env R.final.program vars heap ∧
      SameBehaviour env m.program R.final.program vars heap := by
  refine (R.simulation hcov hc).sameBehaviour ?_ ⟨.refl, ?_⟩ hc.safe
  · rintro c d ⟨-, rfl⟩
    rfl
  · simp [Program.initial, project, Method.program, program]

end Run

/-! ### The result -/

section Result

variable {s s' : CodeStream} {stats : Stats} {vars : Variables Ref} {heap : Heap}

/-- **Folding preserves behaviour.** If the loops of a method are entered at
their heads only, then what folding makes of its stream can be turned back into a
method, and from variables and a heap with which the method is consistent this
one ends alike with the same output, or goes on forever like it. -/
theorem fold_sameBehaviour (hs : ofMethod m = .ok s) (hf : s.fold s.loops = (.ok stats, s'))
    (hm : m.LoopsEnteredAtHead) (hc : TypeConsistent env m.program vars heap) :
    ∃ result, s'.toMethod m = .ok result ∧
      SameBehaviour env m.program result.program vars heap := by
  obtain ⟨R, rfl⟩ := exists_run hs hf
  obtain ⟨hsafe, hsame⟩ := R.sameBehaviour_final hm.loopsCovered hc
  rw [← program_renumber] at hsafe hsame
  obtain ⟨result, hresult, hsame'⟩ := R.thins_final.renumber.toMethod m hsafe
  exact ⟨result, hresult, hsame.trans hsame'⟩

/-- A loop that runs for two rounds, with a sum folded and its load propagated. -/
theorem fold_sameBehaviour_steadyLoop :
    steadyLoop.LoopsEnteredAtHead ∧ TypeConsistent .quiet steadyLoop.program twice () ∧
      ∃ stats s', (whole steadyLoop).fold (whole steadyLoop).loops = (.ok stats, s') ∧
        s'.instruction? 4 = some (.const (.int 3)) ∧
        ∃ result, s'.toMethod steadyLoop = .ok result ∧
          SameBehaviour .quiet steadyLoop.program result.program twice () := by
  have hm : steadyLoop.LoopsEnteredAtHead := by decide
  obtain ⟨stats, s', hf, hx⟩ := fold_steadyLoop
  exact ⟨hm, typeConsistent_steadyLoop, stats, s', hf, hx,
    fold_sameBehaviour rfl hf hm typeConsistent_steadyLoop⟩

end Result

end JvmOptimizer.Fold
