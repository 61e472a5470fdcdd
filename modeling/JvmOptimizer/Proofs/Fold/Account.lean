import JvmOptimizer.Proofs.Fold.History
import JvmOptimizer.Proofs.Fold.Stack
import JvmOptimizer.Proofs.Machine.Program

/-!
# The account of a run

What a whole run of the folding pass comes to at each node it visits, seen from
the end. A value on the simulated stack is a **ghost** if the node that pushed
it is gone: it is on the stack of the method and not on that of the result.
`Treated` says, instruction by instruction, what became of a visited node, that
the ghosts are consumed exactly where the pass computed ahead, and what is known
where control goes from there.

Proofs about what the pass does to a method need this account and nothing else
of the pass.
-/

namespace JvmOptimizer.Fold.Run

open Machine CodeStream

variable {m : Method} (R : Run m) {n t k : Nat} {insn : Instruction Nat}

/-- The node that pushed the value is gone in the end. -/
def ghost (slot : Slot) : Bool := slot.site.any fun k => !R.final.isLive k

/-- No value is a ghost. -/
def Solid (stack : List Slot) : Prop := ∀ slot ∈ stack, R.ghost slot = false

/-- Control that goes from `n` to `t` finds there no more than it brings. -/
structure Flows (n : Nat) (locals : Locals) (stack : List Slot) (floor : Bool) (t : Nat) :
    Prop where
  visited : R.Visited t
  locals : n < t → (R.arrival t).locals.entries ⊆ locals.entries
  stack : (R.arrival t).stack = stack ∧ (R.arrival t).floor = floor ∨
    (R.arrival t).stack = [] ∧ (R.arrival t).floor = true ∧ R.Solid stack ∨
    t = n ∧ R.Solid (R.arrival t).stack ∧ R.Solid stack

/-- Control that passes on from `n` stays in the method or finds there no more
than it brings. -/
def Passes (n : Nat) (locals : Locals) (stack : List Slot) (floor : Bool) : Prop :=
  n + 1 < m.code.length → R.Flows n locals stack floor (n + 1)

/-- The instruction stays, and leads where it led. -/
def Keeps (n : Nat) (insn : Instruction Nat) : Prop :=
  R.final.isLive n ∧ R.final.instruction? n = some (insn.mapTargets R.final.ahead)

/-- All that lies between two nodes is gone, the first one included. -/
def Clears (n t : Nat) : Prop := n < t ∧ ∀ k, n ≤ k → k < t → ¬ R.final.isLive k

/-- What became of a visited node. -/
inductive Treated (n : Nat) : Instruction Nat → Prop
  | const {v} (hi : R.final.instruction? n = some (.const v))
      (next : R.Passes n (R.arrival n).locals (⟨some v, some n⟩ :: (R.arrival n).stack)
        (R.arrival n).floor) :
      Treated n (.const v)
  | load {kind index}
      (hi : R.final.instruction? n = some (.load kind index) ∨
        ∃ v, (R.arrival n).locals.ofKind? kind index.toNat = some v ∧
          R.final.instruction? n = some (.const v))
      (next : R.Passes n (R.arrival n).locals
        (⟨(R.arrival n).locals.ofKind? kind index.toNat, some n⟩ :: (R.arrival n).stack)
        (R.arrival n).floor) :
      Treated n (.load kind index)
  | store {kind index} (hk : R.Keeps n (.store kind index)) (hs : Suffices (R.arrival n) 1)
      (hg : R.Solid ((R.arrival n).stack.take 1))
      (next : R.Passes n
        ((R.arrival n).locals.stored kind index ((R.arrival n).stack.head?.bind (·.value)))
        ((R.arrival n).stack.drop 1) (R.arrival n).floor) :
      Treated n (.store kind index)
  | increment {index delta} (hk : R.Keeps n (.increment index delta))
      (next : R.Passes n ((R.arrival n).locals.incremented index delta) (R.arrival n).stack
        (R.arrival n).floor) :
      Treated n (.increment index delta)
  | compute {insn c} (hc : computation? insn = some c) (hk : R.Keeps n insn)
      (hs : Suffices (R.arrival n) c.arity) (hg : R.Solid ((R.arrival n).stack.take c.arity))
      (next : R.Passes n (R.arrival n).locals
        (Slot.unknown :: (R.arrival n).stack.drop c.arity) (R.arrival n).floor) :
      Treated n insn
  | condense {insn c values v} (hc : computation? insn = some c)
      (hle : c.arity ≤ (R.arrival n).stack.length)
      (hv : ((R.arrival n).stack.take c.arity).reverse.map (·.value) = values.map some)
      (hg : ∀ slot ∈ (R.arrival n).stack.take c.arity, R.ghost slot = true)
      (he : c.eval values = .ok v) (hi : R.final.instruction? n = some (.const v))
      (next : R.Passes n (R.arrival n).locals
        (⟨some v, some n⟩ :: (R.arrival n).stack.drop c.arity) (R.arrival n).floor) :
      Treated n insn
  | branch {condition target} (hk : R.Keeps n (.branch condition target))
      (hs : Suffices (R.arrival n) condition.operands) (hg : R.Solid (R.arrival n).stack)
      (next : R.Passes n (R.arrival n).locals
        (((R.arrival n).stack.drop condition.operands).map Slot.keep) (R.arrival n).floor)
      (jump : R.Flows n (R.arrival n).locals
        (((R.arrival n).stack.drop condition.operands).map Slot.keep) (R.arrival n).floor
        target) :
      Treated n (.branch condition target)
  | pass {condition target values} (hl : ¬ R.final.isLive n)
      (hle : condition.operands ≤ (R.arrival n).stack.length)
      (hv : ((R.arrival n).stack.take condition.operands).reverse.map (·.value) =
        values.map some)
      (hg : ∀ slot ∈ (R.arrival n).stack.take condition.operands, R.ghost slot = true)
      (he : Eval.branchTaken condition values = .ok (some false))
      (next : R.Passes n (R.arrival n).locals
        ((R.arrival n).stack.drop condition.operands) (R.arrival n).floor) :
      Treated n (.branch condition target)
  | take {condition target values} (hc : R.Clears n target)
      (hle : condition.operands ≤ (R.arrival n).stack.length)
      (hv : ((R.arrival n).stack.take condition.operands).reverse.map (·.value) =
        values.map some)
      (hg : ∀ slot ∈ (R.arrival n).stack.take condition.operands, R.ghost slot = true)
      (he : Eval.branchTaken condition values = .ok (some true))
      (jump : R.Flows n (R.arrival n).locals
        ((R.arrival n).stack.drop condition.operands) (R.arrival n).floor target) :
      Treated n (.branch condition target)
  | jump {target} (hk : R.Keeps n (.jump target)) (hg : R.Solid (R.arrival n).stack)
      (jump : R.Flows n (R.arrival n).locals (R.arrival n).stack (R.arrival n).floor target) :
      Treated n (.jump target)
  | skip {target} (hc : R.Clears n target)
      (jump : R.Flows n (R.arrival n).locals (R.arrival n).stack (R.arrival n).floor target) :
      Treated n (.jump target)
  | switch {fallback cases} (hk : R.Keeps n (.switch fallback cases))
      (hs : Suffices (R.arrival n) 1) (hg : R.Solid (R.arrival n).stack)
      (jump : ∀ t ∈ fallback :: cases.targets, R.Flows n (R.arrival n).locals
        ((R.arrival n).stack.drop 1) (R.arrival n).floor t) :
      Treated n (.switch fallback cases)
  | verbatim {opcode bytes} (hk : R.Keeps n (.verbatim opcode bytes))
      (hs : ¬ opcode.isSubroutine) (hg : R.Solid (R.arrival n).stack)
      (next : ¬ opcode.endsFlow → R.Passes n (R.arrival n).locals [] true) :
      Treated n (.verbatim opcode bytes)

/-! ### Ghosts -/

theorem thins_final : R.final.Thins m := (R.sound le_rfl).trimmed.thins

variable {R} in
/-- At the end of a flow the ghosts are those that were there before. -/
theorem Flows.strip_eq {β : Type} {locals : Locals} {slots : List Slot} {floor : Bool}
    {stack : List β} (h : R.Flows n locals slots floor t) :
    strip R.ghost (R.arrival t).stack stack = strip R.ghost slots stack := by
  rcases h.stack with ⟨hsame, -⟩ | ⟨hnil, -, hg⟩ | ⟨-, hs, hg⟩
  · rw [hsame]
  · rw [hnil, strip_nil, strip_eq_self hg]
  · rw [strip_eq_self hs, strip_eq_self hg]

variable {R} in
theorem Clears.ahead_eq (h : R.Clears n t) (ht : t ≤ m.code.length) :
    R.final.ahead t = R.final.ahead n := by
  refine (ahead_eq_of_dead h.1.le ?_ h.2).symm
  rwa [R.thins_final.size]

variable {R} in
theorem clears_succ (h : ¬ R.final.isLive n) : R.Clears n (n + 1) := by
  refine ⟨Nat.lt_succ_self n, fun k hk₁ hk₂ => ?_⟩
  obtain rfl : k = n := Nat.le_antisymm (Nat.le_of_lt_succ hk₂) hk₁
  exact h

/-- The value that a node pushes is a ghost if the node is gone. -/
theorem ghost_pushed {value : Option Value} :
    R.ghost ⟨value, some n⟩ = !R.final.isLive n :=
  rfl

theorem ghost_eq_false_iff {slot : Slot} :
    R.ghost slot = false ↔ ∀ k, slot.site = some k → R.final.isLive k := by
  unfold ghost
  cases slot.site <;> simp

theorem ghost_eq_true_iff {slot : Slot} :
    R.ghost slot = true ↔ ∃ k, slot.site = some k ∧ ¬ R.final.isLive k := by
  unfold ghost
  cases slot.site <;> simp

theorem solid_map_keep {stack : List Slot} : R.Solid (stack.map Slot.keep) := by
  intro slot hmem
  obtain ⟨slot, -, rfl⟩ := List.mem_map.1 hmem
  rfl

/-! ### Flow -/

/-- Control comes to the next live node with what the visit leaves behind. -/
theorem flows_ahead (hnt : n < t) (ht : t < m.code.length)
    (hr : (R.before (n + 1)).reachable) (hlive : (R.before (n + 1)).stream.isLive t)
    (hdead : ∀ k, n < k → k < t → ¬ (R.before (n + 1)).stream.isLive k) :
    R.Flows n (R.before (n + 1)).locals (R.before (n + 1)).stack (R.before (n + 1)).floor t := by
  -- Nothing is visited in between.
  have hsame : ∀ {j}, n + 1 ≤ j → j ≤ t → R.before j = R.before (n + 1) := by
    intro j hnj
    induction hnj with
    | refl => exact fun _ => rfl
    | @step j hnj ih =>
        intro hjt
        have hle : n + 1 ≤ j := hnj
        have heq := ih (by omega)
        rw [R.pass (by rw [heq]; exact hdead j (by omega) hjt), heq]
  have heq := hsame hnt le_rfl
  have hvisited : R.Visited t := by
    unfold Visited
    rw [heq]
    exact hlive
  by_cases hm : (R.before t).isMerge t
  · obtain ⟨hstack, hfloor⟩ := R.stack_arrival_of_merge hm
    refine ⟨hvisited, fun _ => ?_, .inr (.inl ⟨hstack, hfloor, fun slot hmem => ?_⟩)⟩
    · rw [R.locals_arrival_of_merge hm, ← heq]
      refine R.mergedLocals_subset ht.le (List.mem_append_left _ ?_)
      rw [heq, if_pos hr]
      exact List.mem_singleton.2 rfl
    · -- The merge retires all that is on the stack.
      rw [ghost_eq_false_iff]
      intro k hk
      obtain ⟨hkn, hklive⟩ := (R.sound (by omega : n + 1 ≤ m.code.length)).held.live ⟨slot, hmem, hk⟩
      obtain ⟨x, hx⟩ := R.exists_instruction hvisited
      have hv := R.visit ht hvisited hx
      have hnot : ¬ Pushed (R.arrival t).stack k := by
        rw [hstack]
        exact not_pushed_nil
      have hp : ¬ R.Pending (t + 1) k := by
        rintro ⟨-, hpushed⟩
        rcases hv.pushed hpushed with h | rfl
        · exact hnot h
        · omega
      rw [R.isLive_final_iff (by omega) hp ht]
      refine hv.isLive_of_not_pushed ?_ (by omega) hnot
      rw [stream_enter, heq]
      exact hklive
  · rw [← heq]
    refine ⟨hvisited, fun _ => ?_, .inl ?_⟩
    · rw [R.arrival_of_not_merge hm]
      exact List.Subset.refl _
    · rw [R.arrival_of_not_merge hm]
      exact ⟨rfl, rfl⟩

/-- A transfer that stays leads where paths merge. -/
theorem flows_of_target {stack : List Slot} {floor : Bool} (hn : R.final.isLive n)
    (hi : m.code[n]? = some insn) (ht : t ∈ insn.targets) (hs : R.Solid (R.arrival n).stack)
    (hg : R.Solid stack) : R.Flows n (R.arrival n).locals stack floor t := by
  obtain ⟨hvisited, hmerge⟩ := R.visited_of_target hn hi ht
  refine ⟨hvisited, R.locals_of_target hn hi ht, .inr ?_⟩
  by_cases hne : t = n
  · subst hne
    exact .inr ⟨rfl, hs, hg⟩
  · obtain ⟨hstack, hfloor⟩ := R.stack_arrival_of_merge (hmerge hne)
    exact .inl ⟨hstack, hfloor, hg⟩

/-! ### One visit

What follows from the state `σ` that a visit of `n` leaves behind. -/

section Visit

variable {σ : State} (hσ : R.before (n + 1) = σ)
include hσ

/-- A value that is of no more use behind the visit was pushed by a node that
stays. -/
theorem ghost_eq_false (hlt : n < m.code.length) (hs : σ.stream = (R.arrival n).stream)
    {slot : Slot} (hmem : slot ∈ (R.arrival n).stack)
    (hp : ∀ k, slot.site = some k → σ.reachable → ¬ Pushed σ.stack k) :
    R.ghost slot = false := by
  subst hσ
  rw [ghost_eq_false_iff]
  intro k hk
  obtain ⟨hkn, hlive⟩ := (R.sound_arrival hlt.le).held.live ⟨slot, hmem, hk⟩
  rw [R.isLive_final_iff (by omega) (fun h => hp k hk h.1 h.2) hlt, hs]
  exact hlive

/-- A visit after which nothing is known to be on the stack retires all that was
there: the nodes behind those values are not deleted any more. -/
theorem solid_of_not_pushed (hlt : n < m.code.length) (hs : σ.stream = (R.arrival n).stream)
    (hp : ∀ k, σ.reachable → ¬ Pushed σ.stack k) : R.Solid (R.arrival n).stack :=
  fun _ hmem => R.ghost_eq_false hσ hlt hs hmem fun k _ => hp k

/-- What a node takes off the stack without folding it was pushed by nodes that
stay. -/
theorem solid_take {count : Nat} (hlt : n < m.code.length) (hs : σ.stream = (R.arrival n).stream)
    (hp : ∀ k, Pushed σ.stack k → Pushed ((R.arrival n).stack.drop count) k) :
    R.Solid ((R.arrival n).stack.take count) := by
  intro slot hmem
  refine R.ghost_eq_false hσ hlt hs (List.mem_of_mem_take hmem) fun k hk _ hpushed => ?_
  exact (R.sound_arrival hlt.le).held.not_pushed_drop ⟨slot, hmem, hk⟩ (hp k hpushed)

/-- Operands that are folded away leave ghosts: the nodes that pushed them are
gone. -/
theorem ghost_of_deleted {count : Nat} {values : List Value} {sites : List Nat}
    (hlt : n < m.code.length)
    (hk : known? (operands count (R.arrival n).stack) = some (values, sites))
    (hd : ∀ k ∈ sites, ¬ σ.stream.isLive k) :
    ∀ slot ∈ (R.arrival n).stack.take count, R.ghost slot = true := by
  subst hσ
  intro slot hmem
  obtain ⟨-, -, hsites⟩ := known_operands hk
  have hsite : slot.site ∈ sites.map some := by
    rw [← hsites]
    exact List.mem_map.2 ⟨slot, List.mem_reverse.2 hmem, rfl⟩
  obtain ⟨k, hmem, hk⟩ := List.mem_map.1 hsite
  rw [ghost_eq_true_iff]
  exact ⟨k, hk.symm, fun hlive => hd k hmem (R.isLive_of_final hlt hlive)⟩

/-- A visit that edits nothing, and after which nobody can take a value of the
node, leaves the node for good. -/
theorem keeps (hn : R.Visited n) (hi : m.code[n]? = some insn)
    (hs : σ.stream = (R.arrival n).stream) (hp : σ.reachable → ¬ Pushed σ.stack n) :
    R.Keeps n insn := by
  subst hσ
  have hlt := (List.getElem?_eq_some_iff.1 hi).1
  rw [stream_arrival] at hs
  have hlive : R.final.isLive n := by
    rw [R.isLive_final_iff (Nat.lt_succ_self n) (fun h => hp h.1 h.2) hlt, hs]
    exact hn
  refine ⟨hlive, ?_⟩
  by_cases ht : insn.targets = []
  · rw [Instruction.mapTargets_of_targets_eq_nil ht]
    refine R.instruction_of_le (Nat.lt_succ_self n) ?_ ht hlt le_rfl
    rw [hs]
    exact (R.sound hlt.le).trimmed.fresh le_rfl hi ht
  · exact (R.sound le_rfl).trimmed.thins.instruction_of_targets hlive hi ht

theorem instruction_final (hlt : n < m.code.length) (hx : σ.stream.instruction? n = some insn)
    (ht : insn.targets = []) : R.final.instruction? n = some insn := by
  subst hσ
  exact R.instruction_of_le (Nat.lt_succ_self n) hx ht hlt le_rfl

/-- A visit that deletes nothing behind the node hands its state to the next node.
-/
theorem passes_of_isLive (hr : σ.reachable)
    (hlive : ∀ k, n < k → k < m.code.length → σ.stream.isLive k) :
    R.Passes n σ.locals σ.stack σ.floor := by
  subst hσ
  intro hlt
  refine R.flows_ahead (Nat.lt_succ_self n) hlt hr (hlive _ (Nat.lt_succ_self n) hlt) ?_
  intro k hnk hkn
  omega

/-- What a visit deletes stays deleted, and control goes on behind it. -/
theorem clears_and_flows (hnt : n < t) (ht : t < m.code.length) (hr : σ.reachable)
    (hlive : ∀ k, n ≤ k → k < m.code.length → (σ.stream.isLive k ↔ t ≤ k)) :
    R.Clears n t ∧ R.Flows n σ.locals σ.stack σ.floor t := by
  subst hσ
  have hdead : ∀ k, n ≤ k → k < t → ¬ (R.before (n + 1)).stream.isLive k := by
    intro k hnk hkt hk
    have := (hlive k hnk (by omega)).1 hk
    omega
  refine ⟨⟨hnt, fun k hnk hkt hk => ?_⟩, ?_⟩
  · exact hdead k hnk hkt (R.isLive_of_final (by omega) hk)
  · exact R.flows_ahead hnt ht hr ((hlive t hnt.le ht).2 le_rfl) fun k hnk => hdead k hnk.le

end Visit

theorem lt_of_mem_sites {count : Nat} {values : List Value} {sites : List Nat}
    (hlt : n < m.code.length)
    (hk : known? (operands count (R.arrival n).stack) = some (values, sites)) :
    ∀ k ∈ sites, k < n := by
  intro k hmem
  exact ((R.sound_arrival hlt.le).held.isLive_of_mem_sites hk k hmem).1

/-- The value of the visited node is not on the stack yet. -/
theorem not_pushed_self (hlt : n < m.code.length) : ¬ Pushed (R.arrival n).stack n := by
  intro h
  exact lt_irrefl n ((R.sound_arrival hlt.le).held.live h).1

/-! ### Visits that delete -/

section Delete

variable {R} {condition : Condition} {c : Computation} {values : List Value} {sites : List Nat}
  {v : Value} {last count : Nat} {cut stream : CodeStream} {blocked : Bool} {stats : Stats}
  {armed : List Nat} (hn : R.Visited n) (hi : m.code[n]? = some insn)
include hn hi

theorem isLive_arrival (hnk : n ≤ k) (hk : k < m.code.length) :
    (R.arrival n).stream.isLive k := by
  have hlt := (List.getElem?_eq_some_iff.1 hi).1
  rw [stream_arrival]
  exact (R.sound hlt.le).isLive_of_le hn hnk hk

/-- A computation whose operands are known is a constant in the end. -/
theorem treated_condense
    (hσ : R.before (n + 1) = { R.arrival n with
      stream := stream.replace n (.const v)
      stack := ⟨some v, some n⟩ :: (R.arrival n).stack.drop c.arity
      blocked, stats })
    (hc : computation? insn = some c)
    (hk : known? (operands c.arity (R.arrival n).stack) = some (values, sites))
    (he : c.eval values = .ok v) (hd : (R.arrival n).stream.deleteAll sites = .ok stream) :
    R.Treated n insn := by
  have hlt := (List.getElem?_eq_some_iff.1 hi).1
  obtain ⟨hle, hv, -⟩ := known_operands hk
  refine .condense hc hle hv ?_ he (R.instruction_final hσ hlt ?_ rfl)
    (R.passes_of_isLive hσ R.reachable_arrival fun k hnk hkl => ?_)
  · refine R.ghost_of_deleted hσ hlt hk fun k hmem hlive => ?_
    rw [isLive_replace, isLive_deleteAll hd] at hlive
    exact hlive.2 hmem
  · refine instruction?_replace_self ?_
    rw [size_deleteAll hd]
    exact lt_size_of_isLive (isLive_arrival hn hi le_rfl hlt)
  · rw [isLive_replace, isLive_deleteAll hd]
    exact ⟨isLive_arrival hn hi hnk.le hkl,
      fun hmem => absurd (R.lt_of_mem_sites hlt hk k hmem) (by omega)⟩

omit hi in
/-- A branch that is never taken goes, with the nodes of its operands. -/
theorem treated_pass (hi : m.code[n]? = some (.branch condition t))
    (hσ : R.before (n + 1) = { R.arrival n with
      stream, stack := (R.arrival n).stack.drop condition.operands, blocked, stats, armed })
    (hk : known? (operands condition.operands (R.arrival n).stack) = some (values, sites))
    (he : Eval.branchTaken condition values = .ok (some false))
    (hd : (R.arrival n).stream.deleteAll (sites ++ [n]) = .ok stream) :
    R.Treated n (.branch condition t) := by
  have hlt := (List.getElem?_eq_some_iff.1 hi).1
  obtain ⟨hle, hv, -⟩ := known_operands hk
  refine .pass (fun h => ?_) hle hv ?_ he
    (R.passes_of_isLive hσ R.reachable_arrival fun k hnk hkl => ?_)
  · have hlive := R.isLive_of_final (i := n + 1) hlt h
    rw [hσ, isLive_deleteAll hd] at hlive
    exact hlive.2 (List.mem_append_right _ List.mem_cons_self)
  · refine R.ghost_of_deleted hσ hlt hk fun k hmem hlive => ?_
    exact ((isLive_deleteAll hd).1 hlive).2 (List.mem_append_left _ hmem)
  · refine (isLive_deleteAll hd).2 ⟨isLive_arrival hn hi hnk.le hkl, fun hmem => ?_⟩
    rcases List.mem_append.1 hmem with hmem | hmem
    · exact absurd (R.lt_of_mem_sites hlt hk k hmem) (by omega)
    · exact absurd (List.mem_singleton.1 hmem) (by omega)

omit hi in
/-- A branch that is always taken goes too, together with all that it skips. -/
theorem treated_take (hi : m.code[n]? = some (.branch condition t))
    (hσ : R.before (n + 1) = { R.arrival n with
      stream, stack := (R.arrival n).stack.drop condition.operands, blocked, stats })
    (hk : known? (operands condition.operands (R.arrival n).stack) = some (values, sites))
    (he : Eval.branchTaken condition values = .ok (some true))
    (hp : (R.arrival n).stream.prev? ((R.before n).stream.ahead t) = some last)
    (hr : (R.arrival n).stream.deleteRange n last = .ok (count, cut))
    (hd : cut.deleteAll sites = .ok stream) :
    R.Treated n (.branch condition t) := by
  have hlt := (List.getElem?_eq_some_iff.1 hi).1
  have ht : t < m.code.length := R.closed.target (List.mem_of_getElem? hi) List.mem_cons_self
  obtain ⟨hle, hv, -⟩ := known_operands hk
  have hlive : ∀ k, stream.isLive k ↔
      ((R.arrival n).stream.isLive k ∧ ¬ (n ≤ k ∧ k ≤ last)) ∧ k ∉ sites := by
    intro k
    rw [isLive_deleteAll hd, isLive_deleteRange hr]
  rw [stream_arrival] at hp hr
  -- The deleted run ends in front of the target, and the operands lie in front of the run,
  -- so the target is the next node that is left.
  obtain ⟨hnt, hlast⟩ := (R.sound hlt.le).succ_last_eq hn ht hp hr
  obtain ⟨hclears, hflows⟩ := R.clears_and_flows hσ hnt ht R.reachable_arrival fun k hnk hkl => by
    rw [hlive]
    have hlive := isLive_arrival hn hi hnk hkl
    have hsite : k ∉ sites := fun hmem => absurd (R.lt_of_mem_sites hlt hk k hmem) (by omega)
    simp only [hlive, hsite, true_and, not_false_eq_true, and_true]
    omega
  refine .take hclears hle hv ?_ he hflows
  exact R.ghost_of_deleted hσ hlt hk fun k hmem h => ((hlive k).1 h).2 hmem

omit hi in
theorem treated_skip (hi : m.code[n]? = some (.jump t))
    (hσ : R.before (n + 1) = { R.arrival n with stream, blocked, stats, armed })
    (hp : (R.arrival n).stream.prev? ((R.before n).stream.ahead t) = some last)
    (hr : (R.arrival n).stream.deleteRange n last = .ok (count, stream)) :
    R.Treated n (.jump t) := by
  have hlt := (List.getElem?_eq_some_iff.1 hi).1
  have ht : t < m.code.length := R.closed.target (List.mem_of_getElem? hi) List.mem_cons_self
  have hlive : ∀ k, stream.isLive k ↔ (R.arrival n).stream.isLive k ∧ ¬ (n ≤ k ∧ k ≤ last) :=
    fun k => isLive_deleteRange hr
  rw [stream_arrival] at hp hr
  obtain ⟨hnt, hlast⟩ := (R.sound hlt.le).succ_last_eq hn ht hp hr
  obtain ⟨hclears, hflows⟩ := R.clears_and_flows hσ hnt ht R.reachable_arrival fun k hnk hkl => by
    rw [hlive]
    simp only [isLive_arrival hn hi hnk hkl, true_and]
    omega
  exact .skip hclears hflows

end Delete

theorem visit_arrival (hn : R.Visited n) (hi : m.code[n]? = some insn) :
    Visit (R.arrival n) n (insn.mapTargets (R.before n).stream.ahead) (R.before (n + 1)) := by
  have hlt := (List.getElem?_eq_some_iff.1 hi).1
  exact R.visit hlt hn ((R.sound hlt.le).trimmed.instruction le_rfl hn hi)

/-- **A visited node is treated** in one of the ways listed. Each case reads the
fate of the node off the state behind its visit, from which the walk does not come
back. -/
theorem treated (hn : R.Visited n) (hi : m.code[n]? = some insn) : R.Treated n insn := by
  have hlt := (List.getElem?_eq_some_iff.1 hi).1
  have hreach : (R.arrival n).reachable := R.reachable_arrival
  -- What is on the stack was pushed by earlier nodes.
  have hself := R.not_pushed_self hlt
  have hnext : ∀ k, n < k → k < m.code.length → (R.arrival n).stream.isLive k :=
    fun k hnk => isLive_arrival hn hi hnk.le
  have hfresh : insn.targets = [] → (R.arrival n).stream.instruction? n = some insn := by
    rw [stream_arrival]
    exact (R.sound hlt.le).trimmed.fresh le_rfl hi
  have hv := R.visit_arrival hn hi
  -- The visit is of the instruction with moved targets; each case recovers the one that
  -- the body has.
  generalize hx : insn.mapTargets (R.before n).stream.ahead = x at hv
  generalize hσ : R.before (n + 1) = σ at hv
  cases hv with
  -- A push may still go, so all that is said of it is what the stream has there.
  | const =>
      obtain rfl := Instruction.eq_of_mapTargets_eq hx rfl
      exact .const (R.instruction_final hσ hlt (hfresh rfl) rfl)
        (R.passes_of_isLive hσ hreach hnext)
  | load =>
      obtain rfl := Instruction.eq_of_mapTargets_eq hx rfl
      exact .load (.inl (R.instruction_final hσ hlt (hfresh rfl) rfl))
        (R.passes_of_isLive hσ hreach hnext)
  | propagate hv =>
      obtain rfl := Instruction.eq_of_mapTargets_eq hx rfl
      have hpass := R.passes_of_isLive hσ hreach fun k hnk hk => by
        rw [isLive_replace]
        exact hnext k hnk hk
      refine .load (.inr ⟨_, hv, R.instruction_final hσ hlt ?_ rfl⟩) (by rw [hv]; exact hpass)
      exact instruction?_replace_self (lt_size_of_isLive (isLive_arrival hn hi le_rfl hlt))
  -- What takes values and is not folded stays, with the nodes that pushed them.
  | store hs =>
      obtain rfl := Instruction.eq_of_mapTargets_eq hx rfl
      exact .store (R.keeps hσ hn hi rfl fun _ h => hself h.of_drop) hs
        (R.solid_take hσ hlt rfl fun _ h => h) (R.passes_of_isLive hσ hreach hnext)
  | increment =>
      obtain rfl := Instruction.eq_of_mapTargets_eq hx rfl
      exact .increment (R.keeps hσ hn hi rfl fun _ => hself) (R.passes_of_isLive hσ hreach hnext)
  | compute hc hs =>
      rename_i c blocked stats
      rw [← hx, computation?_mapTargets] at hc
      have hdrop : ∀ k, Pushed (Slot.unknown :: (R.arrival n).stack.drop c.arity) k →
          Pushed ((R.arrival n).stack.drop c.arity) k := by
        intro k h
        exact h.cons.resolve_left nofun
      exact .compute hc (R.keeps hσ hn hi rfl fun _ h => hself (hdrop n h).of_drop) hs
        (R.solid_take hσ hlt rfl hdrop) (R.passes_of_isLive hσ hreach hnext)
  | condense hc hk he hd =>
      rw [← hx, computation?_mapTargets] at hc
      exact treated_condense hn hi hσ hc hk he hd
  -- A transfer that stays leaves no value on the stack that could still be folded away.
  | branch hs =>
      obtain ⟨target, rfl, rfl⟩ := Instruction.exists_of_mapTargets_eq_branch hx
      have hkeeps := R.keeps hσ hn hi rfl fun _ => not_pushed_map_keep
      have hsolid := R.solid_of_not_pushed hσ hlt rfl fun _ _ => not_pushed_map_keep
      exact .branch hkeeps hs hsolid (R.passes_of_isLive hσ hreach hnext)
        (R.flows_of_target hkeeps.1 hi List.mem_cons_self hsolid R.solid_map_keep)
  | pass hk he hd =>
      obtain ⟨target, rfl, rfl⟩ := Instruction.exists_of_mapTargets_eq_branch hx
      exact treated_pass hn hi hσ hk he hd
  | take hk he hp hr hd =>
      obtain ⟨target, rfl, rfl⟩ := Instruction.exists_of_mapTargets_eq_branch hx
      exact treated_take hn hi hσ hk he hp hr hd
  | jump =>
      obtain ⟨target, rfl, rfl⟩ := Instruction.exists_of_mapTargets_eq_jump hx
      have hkeeps := R.keeps hσ hn hi rfl nofun
      have hsolid := R.solid_of_not_pushed hσ hlt rfl nofun
      exact .jump hkeeps hsolid (R.flows_of_target hkeeps.1 hi List.mem_cons_self hsolid hsolid)
  | skip hp hr =>
      obtain ⟨target, rfl, rfl⟩ := Instruction.exists_of_mapTargets_eq_jump hx
      exact treated_skip hn hi hσ hp hr
  | switch hs =>
      obtain ⟨fallback, cases, rfl⟩ := Instruction.exists_of_mapTargets_eq_switch hx
      have hkeeps := R.keeps hσ hn hi rfl nofun
      have hsolid := R.solid_of_not_pushed hσ hlt rfl nofun
      refine .switch hkeeps hs hsolid fun t ht => R.flows_of_target hkeeps.1 hi ht hsolid ?_
      exact fun slot hmem => hsolid slot (List.mem_of_mem_drop hmem)
  | verbatim hs =>
      obtain rfl := Instruction.eq_of_mapTargets_eq hx rfl
      refine .verbatim (R.keeps hσ hn hi rfl fun _ => not_pushed_nil) hs
        (R.solid_of_not_pushed hσ hlt rfl fun _ _ => not_pushed_nil) fun hflow => ?_
      exact R.passes_of_isLive hσ (by simp [hreach, hflow]) hnext

end JvmOptimizer.Fold.Run
