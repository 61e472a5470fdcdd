import JvmOptimizer.Proofs.Instruction
import JvmOptimizer.Proofs.Machine.Program

/-!
# Control flow of a method

Where control can go, read off the instructions and the handlers, and what that
says about loops. A loop is closed by a **backward** transfer. Its head is
passed whenever control comes back to it, unless control gets to the transfer
around the head; `LeadsBack` says from where it can.

`LoopsCovered` is what a look at the code between head and transfer takes for
granted: there is no way around the head from the start, and on the way from the
head to the transfer nothing is written but what is written between them.
`LoopsEnteredAtHead` is the structured case, in which loops have one entry.
-/

namespace JvmOptimizer

open Machine

namespace Method

/-- Control can pass from one instruction to another. An exception may be thrown
anywhere in the range of its handler. -/
inductive Edge (m : Method) : Nat → Nat → Prop
  | next {n insn} (hi : m.code[n]? = some insn) (hf : insn.fallsThrough) : Edge m n (n + 1)
  | target {n insn t} (hi : m.code[n]? = some insn) (ht : t ∈ insn.targets) : Edge m n t
  | handler {n insn h} (hi : m.code[n]? = some insn) (hmem : h ∈ m.handlers)
      (hle : h.start ≤ n) (hlt : n < h.stop) : Edge m n h.entry

/-- Control can come to an instruction at all. -/
def Reachable (m : Method) (n : Nat) : Prop := Relation.ReflTransGen m.Edge 0 n

/-- The instruction at `e` transfers control back to `h`. -/
def Backward (m : Method) (h e : Nat) : Prop :=
  h ≤ e ∧ ∃ insn, m.code[e]? = some insn ∧ h ∈ insn.targets

/-- From an instruction control can come back to the head `h` by a backward
transfer, without passing `h` before. -/
inductive LeadsBack (m : Method) (h : Nat) : Nat → Prop
  | tail {e} (hb : m.Backward h e) (hne : e ≠ h) : LeadsBack m h e
  | step {n t} (he : m.Edge n t) (hb : LeadsBack m h t) (hne : n ≠ h) : LeadsBack m h n

/-- A local slot is written between the head `h` and a backward transfer to it. -/
def LoopWrites (m : Method) (h slot : Nat) : Prop :=
  ∃ e, m.Backward h e ∧ ∃ k insn, h ≤ k ∧ k < e ∧ m.code[k]? = some insn ∧
    slot ∈ insn.writtenSlots

/-- Control comes back to the head of a loop only after it has passed it, and
what is written on the way is written between the head and a transfer to it. -/
def LoopsCovered (m : Method) : Prop :=
  ∀ h n, m.Reachable n → m.LeadsBack h n → n ≠ 0 ∧
    ∀ insn slot, m.code[n]? = some insn → slot ∈ insn.writtenSlots → m.LoopWrites h slot

/-- No edge from outside leads between `h` and `e`, unless it is to `h`. -/
def EnteredAt (m : Method) (h e : Nat) : Prop :=
  ∀ n t, m.Edge n t → ¬ (h ≤ n ∧ n ≤ e) → ¬ (h < t ∧ t ≤ e)

/-- Every loop is entered at its head only. -/
def LoopsEnteredAtHead (m : Method) : Prop := ∀ h e, m.Backward h e → m.EnteredAt h e

variable {m : Method} {h n : Nat}

theorem LeadsBack.exists_backward (hb : m.LeadsBack h n) : ∃ e, m.Backward h e ∧ h < e := by
  induction hb with
  | tail hb hne => exact ⟨_, hb, Nat.lt_of_le_of_ne hb.1 hne.symm⟩
  | step he hb hne ih => exact ih

/-- **Loops that are entered at their heads** are covered by what lies between
head and transfer. -/
theorem LoopsEnteredAtHead.loopsCovered (hm : m.LoopsEnteredAtHead) : m.LoopsCovered := by
  intro h n hreach hb
  -- The way back lies in the loop, since no edge leads into it.
  have hinside : ∃ e, m.Backward h e ∧ h < n ∧ n ≤ e := by
    clear hreach
    induction hb with
    | tail hb hne => exact ⟨_, hb, Nat.lt_of_le_of_ne hb.1 hne.symm, le_rfl⟩
    | @step n t hedge hb hne ih =>
        obtain ⟨e, he, hin⟩ := ih
        have hn : h ≤ n ∧ n ≤ e := by
          by_contra hout
          exact hm h e he n t hedge hout hin
        exact ⟨e, he, Nat.lt_of_le_of_ne hn.1 hne.symm, hn.2⟩
  obtain ⟨e, he, hlt, hle⟩ := hinside
  refine ⟨by omega, fun insn slot hi hslot => ?_⟩
  rcases Nat.lt_or_eq_of_le hle with hne | rfl
  · exact ⟨e, he, n, insn, hlt.le, hne, hi, hslot⟩
  · -- The transfer itself writes nothing.
    obtain ⟨-, insn', hi', ht⟩ := he
    obtain rfl : insn = insn' := Option.some.inj (hi.symm.trans hi')
    rw [Instruction.writtenSlots_of_targets_ne_nil (List.ne_nil_of_mem ht)] at hslot
    cases hslot

/-! ### Looking it up -/

/-- The instructions that control can pass to. -/
def successors (m : Method) (n : Nat) : List Nat :=
  match m.code[n]? with
  | none => []
  | some insn =>
      (if insn.fallsThrough then [n + 1] else []) ++ insn.targets ++
        (m.handlers.filter fun h => h.start ≤ n ∧ n < h.stop).map (·.entry)

theorem mem_successors {t : Nat} : t ∈ m.successors n ↔ m.Edge n t := by
  unfold successors
  cases hi : m.code[n]? with
  | none =>
      simp only [List.not_mem_nil, false_iff]
      rintro (⟨hi', -⟩ | ⟨hi', -⟩ | ⟨hi', -⟩) <;> rw [hi] at hi' <;> cases hi'
  | some insn =>
      simp only [List.mem_append, List.mem_map, List.mem_filter, decide_eq_true_eq]
      constructor
      · rintro ((hnext | ht) | ⟨r, ⟨hmem, hle, hlt⟩, rfl⟩)
        · split at hnext
          · rename_i hf
            rw [List.mem_singleton.1 hnext]
            exact .next hi hf
          · cases hnext
        · exact .target hi ht
        · exact .handler hi hmem hle hlt
      · rintro (⟨hi', hf⟩ | ⟨hi', ht⟩ | ⟨hi', hmem, hle, hlt⟩) <;>
          obtain rfl := Option.some.inj (hi.symm.trans hi')
        · exact .inl (.inl (by simp [hf]))
        · exact .inl (.inr ht)
        · exact .inr ⟨_, ⟨hmem, hle, hlt⟩, rfl⟩

theorem Edge.lt_length {t : Nat} (h : m.Edge n t) : n < m.code.length := by
  cases h with
  | next hi | target hi | handler hi => exact (List.getElem?_eq_some_iff.1 hi).1

instance {h e : Nat} : Decidable (m.EnteredAt h e) :=
  decidable_of_iff (∀ n < m.code.length, ∀ t ∈ m.successors n,
      ¬ (h ≤ n ∧ n ≤ e) → ¬ (h < t ∧ t ≤ e))
    ⟨fun hm n t hedge => hm n hedge.lt_length t (mem_successors.2 hedge),
      fun hm n _ t ht => hm n t (mem_successors.1 ht)⟩

theorem backward_iff {e : Nat} :
    m.Backward h e ↔ e < m.code.length ∧ h ∈ (m.code[e]?.map (·.targets)).getD [] ∧ h ≤ e := by
  unfold Backward
  cases hi : m.code[e]? with
  | none => simp
  | some insn =>
      have he := (List.getElem?_eq_some_iff.1 hi).1
      simp [he, and_comm]

instance : Decidable m.LoopsEnteredAtHead :=
  decidable_of_iff (∀ e < m.code.length, ∀ h ∈ (m.code[e]?.map (·.targets)).getD [],
      h ≤ e → m.EnteredAt h e)
    ⟨fun hm h e hb =>
      have ⟨he, hh, hle⟩ := backward_iff.1 hb
      hm e he h hh hle,
      fun hm e he h hh hle => hm h e (backward_iff.2 ⟨he, hh, hle⟩)⟩

end Method

/-! ### Steps follow edges -/

namespace Machine

variable {Ref Heap Event : Type} {env : Environment Ref Heap Event} {insn : Instruction Nat}
  {stack stack' : List (Datum Ref)} {vars vars' : Variables Ref} {heap heap' : Heap}
  {events : List Event} {target : Option Nat} {t : Nat}

/-- A switch goes to one of its targets. -/
theorem select_mem {τ : Type} (fallback : τ) (cases : SwitchTable τ) (key : Int32) :
    select fallback cases key ∈ fallback :: cases.targets := by
  cases cases with
  | table low high targets =>
      simp only [select, SwitchTable.targets]
      split
      · cases ht : targets[(key.toInt - low.toInt).toNat]? with
        | none => exact List.mem_cons_self
        | some t => exact List.mem_cons_of_mem _ (List.mem_of_getElem? ht)
      · exact List.mem_cons_self
  | lookup pairs =>
      simp only [select, SwitchTable.targets]
      cases ht : pairs.lookup key with
      | none => exact List.mem_cons_self
      | some t =>
          obtain ⟨before, after, heq, -⟩ := List.lookup_eq_some_iff.1 ht
          refine List.mem_cons_of_mem _ (List.mem_map.2 ⟨(key, t), ?_, rfl⟩)
          simp [heq]

theorem compute_eq_goes {c : Computation}
    (h : compute env c stack vars heap = .goes target stack' vars' heap' events) :
    ∃ values v, (operands c.arity stack).mapM Datum.number? = some values ∧
      c.eval values = .ok v ∧ target = none ∧ stack' = .number v :: stack.drop c.arity ∧
      vars' = vars ∧ heap' = heap ∧ events = [] := by
  unfold compute at h
  split at h
  · cases h
  · rename_i values hv
    split at h
    · rename_i v he
      cases h
      exact ⟨values, v, hv, he, rfl, rfl, rfl, rfl, rfl⟩
    · cases h
    · cases h

/-- An instruction that stays as bytes goes on to the next one and leaves the
variables alone. -/
theorem runVerbatim_eq_goes {opcode : Opcode} {bytes : Bytes}
    (h : runVerbatim env opcode bytes stack vars heap = .goes target stack' vars' heap' events) :
    target = none ∧ vars' = vars ∧ ¬ opcode.endsFlow := by
  unfold runVerbatim at h
  split at h
  · rename_i hdiscard
    split at h
    · cases h
      refine ⟨rfl, rfl, ?_⟩
      rcases hdiscard with rfl | rfl <;> decide
    · cases h
  · split at h
    · split at h
      · cases h
      · rename_i hflow
        cases h
        exact ⟨rfl, rfl, hflow⟩
    · cases h

/-- Control goes to a target of the instruction, or passes on if it falls
through. -/
theorem goes_target (h : execute env insn stack vars heap = .goes target stack' vars' heap' events) :
    target = none ∧ insn.fallsThrough ∨ ∃ t ∈ insn.targets, target = some t := by
  cases insn with
  | const | load | store | increment =>
      left
      simp only [execute] at h
      repeat' split at h
      all_goals cases h
      all_goals exact ⟨rfl, rfl⟩
  | arith | compare | convert =>
      obtain ⟨-, -, -, -, rfl, -⟩ := compute_eq_goes h
      exact .inl ⟨rfl, rfl⟩
  | branch condition t =>
      simp only [execute] at h
      split at h
      · cases h
        exact .inr ⟨t, List.mem_cons_self, rfl⟩
      · cases h
        exact .inl ⟨rfl, rfl⟩
      · cases h
  | jump t =>
      cases h
      exact .inr ⟨t, List.mem_cons_self, rfl⟩
  | switch fallback cases =>
      simp only [execute] at h
      split at h
      · cases h
        exact .inr ⟨_, select_mem _ _ _, rfl⟩
      · cases h
  | verbatim opcode bytes =>
      obtain ⟨rfl, -, hflow⟩ := runVerbatim_eq_goes h
      left
      simpa [Instruction.fallsThrough] using hflow

/-- A transfer writes no variable, and one that leaves the stack in its shape
leaves it as it is. -/
theorem goes_some (h : execute env insn stack vars heap = .goes (some t) stack' vars' heap' events) :
    vars' = vars ∧ (stack'.length = stack.length → stack' = stack) := by
  cases insn with
  | const | load | store | increment =>
      simp only [execute] at h
      repeat' split at h
      all_goals cases h
  | arith | compare | convert =>
      obtain ⟨-, -, -, -, heq, -⟩ := compute_eq_goes h
      cases heq
  | branch condition t =>
      simp only [execute] at h
      split at h
      · rename_i htaken
        cases h
        refine ⟨rfl, fun hlen => ?_⟩
        cases stack with
        | nil => exact List.drop_nil
        | cons d stack =>
            have hpos : 0 < condition.operands := by cases condition <;> exact Nat.succ_pos _
            simp only [List.length_drop, List.length_cons] at hlen
            omega
      · cases h
      · cases h
  | jump t =>
      cases h
      exact ⟨rfl, fun _ => rfl⟩
  | switch fallback cases =>
      simp only [execute] at h
      split at h
      · cases h
        exact ⟨rfl, fun hlen => by simp at hlen⟩
      · cases h
  | verbatim opcode bytes =>
      obtain ⟨heq, -⟩ := runVerbatim_eq_goes h
      cases heq

section Step

variable {p : Program} {c c' : Config Ref Heap Event} {insn : Instruction Nat}

theorem execute_ne_stuck (hi : p.fetch c.pc = some insn) (h : step env p c ≠ .stuck) :
    execute env insn c.stack c.vars c.heap ≠ .stuck := by
  intro hstuck
  simp only [step, hi, hstuck] at h
  exact h rfl

/-- A step leads to the next instruction, to a target or to a handler. -/
theorem exists_of_running (h : step env p c = .running c') :
    ∃ insn, p.fetch c.pc = some insn ∧
      (c'.pc = p.next c.pc ∧ insn.fallsThrough ∨ c'.pc ∈ insn.targets ∨
        ∃ catches, p.handler? c.pc catches = some c'.pc) := by
  obtain ⟨insn, hi⟩ := exists_fetch h nofun
  refine ⟨insn, hi, ?_⟩
  simp only [step, hi] at h
  cases he : execute env insn c.stack c.vars c.heap with
  | goes target stack vars heap events =>
      rw [he] at h
      cases h
      rcases goes_target he with ⟨rfl, hf⟩ | ⟨t, ht, rfl⟩
      · exact .inl ⟨rfl, hf⟩
      · exact .inr (.inl ht)
  | throws exception heap events =>
      rw [he] at h
      simp only [resume] at h
      split at h
      · rename_i entry hentry
        cases h
        exact .inr (.inr ⟨_, hentry⟩)
      · cases h
  | returns | stuck =>
      rw [he] at h
      cases h

end Step

end Machine

namespace Method

variable {Ref Heap Event : Type} {env : Environment Ref Heap Event} {m : Method} {n entry : Nat}
  {c c' : Config Ref Heap Event}

theorem exists_handler {catches : UInt16 → Bool} (h : m.program.handler? n catches = some entry) :
    ∃ r ∈ m.handlers, r.start ≤ n ∧ n < r.stop ∧ r.entry = entry := by
  rw [handler?_program, Option.map_eq_some_iff] at h
  obtain ⟨r, hr, rfl⟩ := h
  have hin := List.find?_some hr
  simp only [Bool.and_eq_true, decide_eq_true_eq] at hin
  exact ⟨r, List.mem_of_find?_eq_some hr, hin.1.1, hin.1.2, rfl⟩

/-- A step of the machine follows an edge of the method. -/
theorem edge_of_step (h : step env m.program c = .running c') : m.Edge c.pc c'.pc := by
  obtain ⟨insn, hi, ⟨hpc, hf⟩ | ht | ⟨catches, hentry⟩⟩ := exists_of_running h
  · rw [hpc]
    exact .next hi hf
  · exact .target hi ht
  · obtain ⟨r, hmem, hle, hlt, heq⟩ := exists_handler hentry
    rw [← heq]
    exact .handler hi hmem hle hlt

end Method

end JvmOptimizer
