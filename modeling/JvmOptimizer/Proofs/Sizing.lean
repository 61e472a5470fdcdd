import Mathlib.Order.Bounds.Basic
import Mathlib.Tactic.IntervalCases
import JvmOptimizer.Pool.Literal
import JvmOptimizer.Proofs.Verifier.Basic
import JvmOptimizer.Sizing

/-!
# The computed depth of the operand stack

The depth is computed by a search that visits each instruction once, with
whatever depth control brings there first. What a visit finds out does not
depend on the order of the visits as long as all paths to an instruction agree,
which is what `IsDepth` says: then the computed depth is the greatest that there
is before or after an instruction that is reached (`maxStack_exact`).

Without that, the search still follows nothing but paths of the method. The list
of the visits made so far carries the whole argument (`Searched`): each of them
ends a `Walk`, lies within the depth found, and leads to visits that were made or
are still pending. An error comes from a walk as well, so a method that fails has
a path on which it does.
-/

namespace JvmOptimizer.Sizing

open Verifier (Onward)

variable {π : Type} [Pool π]

/-! ### Paths -/

/-- Control enters the method: at its start with an empty stack, at the code of a
handler with the exception. -/
inductive Entry (m : Method) : (n depth : Nat) → Prop
  | start : Entry m 0 0
  | handler {h} (hmem : h ∈ m.handlers) : Entry m h.entry 1

/-- Some path leads to the place, whatever happens to the stack on it. -/
inductive Reached (m : Method) : Nat → Prop
  | entry {n d} (h : Entry m n d) : Reached m n
  | onward {n t insn} (h : Reached m n) (hi : m.code[n]? = some insn) (ht : Onward insn n t) :
      Reached m t

/-- The instruction finds what it pops among `before` slots, and leaves
`after`. -/
def Leaves (pool : π) (insn : Instruction Nat) (before after : Nat) : Prop :=
  ∃ effect, insn.stackEffect pool = .ok effect ∧ effect.pops ≤ before ∧
    after = before - effect.pops + effect.pushes

/-- Some path leads to the place and comes there with the depth. -/
inductive Walk (pool : π) (m : Method) : (n depth : Nat) → Prop
  | entry {n d} (h : Entry m n d) : Walk pool m n d
  | onward {n t d d' insn} (h : Walk pool m n d) (hi : m.code[n]? = some insn)
      (hl : Leaves pool insn d d') (ht : Onward insn n t) : Walk pool m t d'

/-- Some path comes to the instruction with less than it pops. -/
def Underflows (pool : π) (m : Method) (n : Nat) : Prop :=
  ∃ d insn effect, Walk pool m n d ∧ m.code[n]? = some insn ∧
    insn.stackEffect pool = .ok effect ∧ d < effect.pops

/-- Some path comes to an instruction whose effect is not known, for the reason
that the error gives. -/
def LacksEffect (pool : π) (m : Method) (e : StackError) : Prop :=
  ∃ n d insn, Walk pool m n d ∧ m.code[n]? = some insn ∧ insn.stackEffect pool = .error e

/-- The error tells of a path that fails: the one for running out of slots names
the instruction where that happens, any other is about an effect. -/
def FailsOnPath (pool : π) (m : Method) (e : StackError) : Prop :=
  (∃ n, e = .underflow n ∧ Underflows pool m n) ∨
    (∀ n, e ≠ .underflow n) ∧ LacksEffect pool m e

variable {pool : π} {m : Method} {insn : Instruction Nat} {n d limit : Nat}

theorem Walk.reached (h : Walk pool m n d) : Reached m n := by
  induction h with
  | entry h => exact .entry h
  | onward _ hi _ ht ih => exact .onward ih hi ht

theorem Leaves.unique {after after' : Nat} (h : Leaves pool insn d after)
    (h' : Leaves pool insn d after') : after = after' := by
  obtain ⟨effect, he, -, rfl⟩ := h
  obtain ⟨effect', he', -, rfl⟩ := h'
  rw [he] at he'
  cases he'
  rfl

theorem member_ne_underflow (pool : π) (opcode : Opcode) (operands : Bytes) (n : Nat) :
    StackEffect.member pool opcode operands ≠ .error (.underflow n) := by
  unfold StackEffect.member
  split
  · simp
  · split <;> simp

theorem ofVerbatim_ne_underflow (pool : π) (opcode : Opcode) (operands : Bytes) (n : Nat) :
    StackEffect.ofVerbatim pool opcode operands ≠ .error (.underflow n) := by
  have hmember := member_ne_underflow pool opcode operands n
  have hbind : ∀ f : String → Except StackError StackEffect, (∀ s, f s ≠ .error (.underflow n)) →
      (StackEffect.member pool opcode operands >>= f) ≠ .error (.underflow n) := by
    intro f hf
    cases hm : StackEffect.member pool opcode operands with
    | error e =>
        rw [hm] at hmember
        intro h
        cases h
        exact hmember rfl
    | ok descriptor => exact hf descriptor
  unfold StackEffect.ofVerbatim
  split
  · simp
  · refine hbind _ fun descriptor => ?_
    split
    · simp
    · split <;> simp
  · refine hbind _ fun descriptor => ?_
    split <;> simp
  · split <;> simp
  · simp

/-- Running out of slots is no property of an instruction. -/
theorem stackEffect_ne_underflow (pool : π) (insn : Instruction Nat) (n : Nat) :
    insn.stackEffect pool ≠ .error (.underflow n) := by
  cases insn with
  | verbatim opcode operands => exact ofVerbatim_ne_underflow pool opcode operands n
  | arith op kind =>
      simp only [Instruction.stackEffect]
      split <;> simp
  | _ => simp [Instruction.stackEffect]

/-- The places that control goes on to are the next one and the targets. -/
theorem forall_onward {P : Nat → Prop} : (∀ t, Onward insn n t → P t) ↔
    (insn.fallsThrough → P (n + 1)) ∧ ∀ t ∈ insn.targets, P t := by
  simp only [Onward, or_imp, forall_and, and_imp, forall_eq_apply_imp_iff]

/-! ### Visits -/

/-- One of the visits is to the place. -/
def Listed (visits : List Visit) (n : Nat) : Prop := ∃ v ∈ visits, v.index = n

theorem mem_successors {v : Visit} :
    v ∈ successors insn n d ↔ Onward insn n v.index ∧ v.depth = d := by
  obtain ⟨t, depth⟩ := v
  simp only [successors, Onward, List.mem_map, List.mem_append, List.mem_reverse, Visit.mk.injEq]
  constructor
  · intro h
    obtain ⟨t, ht, rfl, rfl⟩ := h
    refine ⟨?_, rfl⟩
    rcases ht with ht | ht
    · split at ht
      · rename_i hf
        exact .inl ⟨hf, List.mem_singleton.1 ht⟩
      · cases ht
    · exact .inr ht
  · intro h
    obtain ⟨ht, rfl⟩ := h
    refine ⟨t, ?_, rfl, rfl⟩
    rcases ht with ⟨hf, rfl⟩ | ht
    · rw [if_pos hf]
      exact .inl List.mem_cons_self
    · exact .inr ht

/-- A visit made stays within the depth, and whatever it leads to is listed. -/
structure Passed (pool : π) (m : Method) (visits : List Visit) (limit : Nat) (v : Visit)
    (insn : Instruction Nat) (after : Nat) : Prop where
  code : m.code[v.index]? = some insn
  leaves : Leaves pool insn v.depth after
  before_le : v.depth ≤ limit
  after_le : after ≤ limit
  leads : ∀ t, Onward insn v.index t → t < m.code.length → Listed visits t

theorem Passed.mono {visits visits' : List Visit} {limit' after : Nat} {v : Visit}
    (h : Passed pool m visits limit v insn after) (hle : limit ≤ limit')
    (hlisted : ∀ {t}, t < m.code.length → Listed visits t → Listed visits' t) :
    Passed pool m visits' limit' v insn after where
  code := h.code
  leaves := h.leaves
  before_le := h.before_le.trans hle
  after_le := h.after_le.trans hle
  leads := fun t ht hlt => hlisted hlt (h.leads t ht hlt)

/-- What the search knows after some visits, with others pending. -/
structure Searched (pool : π) (m : Method) (made pending : List Visit) (limit : Nat) : Prop where
  walk : ∀ v ∈ made ++ pending, Walk pool m v.index v.depth
  entry : ∀ {n d}, Entry m n d → n < m.code.length → Listed (made ++ pending) n
  passed : ∀ v ∈ made, ∃ insn after, Passed pool m (made ++ pending) limit v insn after
  /-- The depth is that of some visit. -/
  attained : limit = 0 ∨ ∃ v ∈ made, limit = v.depth ∨
    ∃ insn, m.code[v.index]? = some insn ∧ Leaves pool insn v.depth limit

namespace Searched

variable {made pending : List Visit} {v : Visit}

/-- A visit that was made before, or that leads out of the method. -/
theorem skip (h : Searched pool m made (v :: pending) limit)
    (hv : v.index < m.code.length → Listed made v.index) :
    Searched pool m made pending limit := by
  have hlisted : ∀ {t}, t < m.code.length → Listed (made ++ v :: pending) t →
      Listed (made ++ pending) t := by
    intro t ht hl
    obtain ⟨w, hw, rfl⟩ := hl
    rcases List.mem_append.1 hw with hw | hw
    · exact ⟨w, List.mem_append_left _ hw, rfl⟩
    · rcases List.mem_cons.1 hw with rfl | hw
      · obtain ⟨u, hu, heq⟩ := hv ht
        exact ⟨u, List.mem_append_left _ hu, heq⟩
      · exact ⟨w, List.mem_append_right _ hw, rfl⟩
  refine ⟨fun w hw => h.walk w ?_, fun he hlt => hlisted hlt (h.entry he hlt), ?_, h.attained⟩
  · rcases List.mem_append.1 hw with hw | hw
    · exact List.mem_append_left _ hw
    · exact List.mem_append_right _ (List.mem_cons_of_mem _ hw)
  · intro w hw
    obtain ⟨insn, after, hpassed⟩ := h.passed w hw
    exact ⟨insn, after, hpassed.mono le_rfl hlisted⟩

/-- **One visit.** -/
theorem visit {after : Nat} (h : Searched pool m made (v :: pending) limit)
    (hi : m.code[v.index]? = some insn) (hl : Leaves pool insn v.depth after) :
    Searched pool m (v :: made) (successors insn v.index after ++ pending)
      (max limit (max v.depth after)) := by
  -- Nothing that was listed is lost by moving `v` to the visits that are made.
  have hmem : ∀ {w}, w ∈ made ++ v :: pending →
      w ∈ v :: made ++ (successors insn v.index after ++ pending) := by
    intro w hw
    simp only [List.mem_append, List.mem_cons] at hw ⊢
    rcases hw with hw | hw | hw
    · exact .inl (.inr hw)
    · exact .inl (.inl hw)
    · exact .inr (.inr hw)
  have hlisted : ∀ {t}, Listed (made ++ v :: pending) t →
      Listed (v :: made ++ (successors insn v.index after ++ pending)) t := by
    intro t ht
    obtain ⟨w, hw, heq⟩ := ht
    exact ⟨w, hmem hw, heq⟩
  have hv : Walk pool m v.index v.depth := h.walk v (List.mem_append_right _ List.mem_cons_self)
  refine ⟨?_, fun he hlt => hlisted (h.entry he hlt), ?_, ?_⟩
  · intro w hw
    simp only [List.mem_append, List.mem_cons] at hw
    rcases hw with (rfl | hw) | hw | hw
    · exact hv
    · exact h.walk w (List.mem_append_left _ hw)
    · obtain ⟨ht, heq⟩ := mem_successors.1 hw
      rw [heq]
      exact .onward hv hi hl ht
    · exact h.walk w (List.mem_append_right _ (List.mem_cons_of_mem _ hw))
  · intro w hw
    rcases List.mem_cons.1 hw with rfl | hw
    · refine ⟨insn, after, hi, hl, by omega, by omega, fun t ht _ => ⟨⟨t, after⟩, ?_, rfl⟩⟩
      exact List.mem_append_right _ (List.mem_append_left _ (mem_successors.2 ⟨ht, rfl⟩))
    · obtain ⟨other, after', hpassed⟩ := h.passed w hw
      exact ⟨other, after', hpassed.mono (Nat.le_max_left _ _) fun _ => hlisted⟩
  -- The new limit is the old one, or it is met at this visit.
  · rcases Nat.le_total (max v.depth after) limit with hle | hle
    · rw [Nat.max_eq_left hle]
      rcases h.attained with h0 | ⟨w, hw, heq⟩
      · exact .inl h0
      · exact .inr ⟨w, List.mem_cons_of_mem _ hw, heq⟩
    · rw [Nat.max_eq_right hle]
      refine .inr ⟨v, List.mem_cons_self, ?_⟩
      rcases Nat.le_total after v.depth with hle | hle
      · exact .inl (Nat.max_eq_left hle)
      · rw [Nat.max_eq_right hle]
        exact .inr ⟨insn, hi, hl⟩

/-- When nothing is pending, everything that is reached was visited. -/
theorem listed_of_reached (h : Searched pool m made [] limit) (hr : Reached m n)
    (hlt : n < m.code.length) : Listed made n := by
  have hmade : made ++ [] = made := List.append_nil made
  induction hr with
  | entry he => exact hmade ▸ h.entry he hlt
  | @onward n t insn _ hi ht ih =>
      obtain ⟨v, hv, rfl⟩ := ih (List.getElem?_eq_some_iff.1 hi).1
      obtain ⟨other, after, hpassed⟩ := h.passed v hv
      obtain rfl : insn = other := Option.some.inj (hi.symm.trans hpassed.code)
      exact hmade ▸ hpassed.leads t ht hlt

/-- The visit to an instruction that is reached. -/
theorem exists_passed (h : Searched pool m made [] limit) (hr : Reached m n)
    (hi : m.code[n]? = some insn) : ∃ d after, Walk pool m n d ∧ Leaves pool insn d after ∧
      d ≤ limit ∧ after ≤ limit := by
  obtain ⟨v, hv, rfl⟩ := h.listed_of_reached hr (List.getElem?_eq_some_iff.1 hi).1
  obtain ⟨other, after, hpassed⟩ := h.passed v hv
  obtain rfl : insn = other := Option.some.inj (hi.symm.trans hpassed.code)
  exact ⟨v.depth, after, h.walk v (List.mem_append_left _ hv), hpassed.leaves,
    hpassed.before_le, hpassed.after_le⟩

end Searched

/-! ### The search -/

/-- **The search** ends with everything visited, or at a path that fails. -/
theorem deepest_cases {visited : Array Bool} {made pending : List Visit}
    (hsize : visited.size = m.code.length)
    (hmark : ∀ n, visited[n]? = some true ↔ Listed made n)
    (hs : Searched pool m made pending limit) :
    (∃ made result, deepest pool m.code.toArray visited pending limit = .ok result ∧
        Searched pool m made [] result) ∨
      ∃ e, deepest pool m.code.toArray visited pending limit = .error e ∧
        FailsOnPath pool m e := by
  -- The cases are those of the search: nothing pending, an index out of range, one that is
  -- visited, an effect that is not known, an underflow, and a visit.
  fun_induction deepest pool m.code.toArray visited pending limit generalizing made with
  | case1 visited limit => exact .inl ⟨made, limit, rfl, hs⟩
  | case2 visited v pending limit hnone ih =>
      have hout : ¬ v.index < m.code.length := by simpa using hnone
      exact ih hsize hmark (hs.skip fun h => absurd h hout)
  | case3 visited v pending limit insn hi hlt hv ih =>
      have hvisited : visited[v.index]? = some true := Array.getElem?_eq_some_iff.2 ⟨hlt, hv⟩
      exact ih hsize hmark (hs.skip fun _ => (hmark _).1 hvisited)
  | case4 visited v pending limit insn hi hlt hv e he =>
      have hwalk := hs.walk v (List.mem_append_right _ List.mem_cons_self)
      refine .inr ⟨e, rfl, .inr ⟨fun n heq => ?_, v.index, v.depth, insn, hwalk,
        by simpa using hi, he⟩⟩
      exact stackEffect_ne_underflow pool insn n (heq ▸ he)
  | case5 visited v pending limit insn hi hlt hv effect he hunder =>
      have hwalk := hs.walk v (List.mem_append_right _ List.mem_cons_self)
      exact .inr ⟨_, rfl, .inl ⟨v.index, rfl, v.depth, insn, effect, hwalk, by simpa using hi, he,
        hunder⟩⟩
  | case6 visited v pending limit insn hi hlt hv effect he hunder after =>
      rename_i ih
      have hi' : m.code[v.index]? = some insn := by simpa using hi
      have hleaves : Leaves pool insn v.depth after := ⟨effect, he, by omega, rfl⟩
      refine ih (by simpa using hsize) (fun n => ?_) (hs.visit hi' hleaves)
      have hcons : Listed (v :: made) n ↔ v.index = n ∨ Listed made n := by
        simp only [Listed, List.mem_cons, exists_eq_or_imp]
      rw [Array.getElem?_set, hcons, ← hmark]
      split
      · rename_i heq
        simp [heq]
      · rename_i hne
        simp [hne]
  | case7 visited v pending limit insn hi hge ih =>
      have hout : ¬ v.index < m.code.length := hsize ▸ hge
      exact ih hsize hmark (hs.skip fun h => absurd h hout)

/-- **What a computed depth or an error says of the method.** -/
theorem maxStack_cases (pool : π) (m : Method) :
    (∃ made deepest, maxStack pool m = .ok (UInt16.ofNat (min deepest 65535)) ∧
        Searched pool m made [] deepest) ∨
      ∃ e, maxStack pool m = .error e ∧ FailsOnPath pool m e := by
  unfold maxStack
  dsimp only
  generalize hstart : (if m.code.isEmpty then [] else [(⟨0, 0⟩ : Visit)]) = start
  generalize hpending : (m.handlers.map fun h => (⟨h.entry, 1⟩ : Visit)).reverse ++ start = pending
  have hbegin : Searched pool m [] pending 0 := by
    refine ⟨fun v hv => .entry ?_, fun {n d} he hlt => ?_, nofun, .inl rfl⟩
    · rw [List.nil_append, ← hpending] at hv
      rcases List.mem_append.1 hv with hv | hv
      · obtain ⟨h, hmem, rfl⟩ := List.mem_map.1 (List.mem_reverse.1 hv)
        exact .handler hmem
      · rw [← hstart] at hv
        split at hv
        · cases hv
        · rw [List.mem_singleton.1 hv]
          exact .start
    · rw [List.nil_append, ← hpending]
      cases he with
      | start =>
          have hne : ¬ m.code.isEmpty := by simpa using List.ne_nil_of_length_pos hlt
          rw [← hstart, if_neg hne]
          exact ⟨_, List.mem_append_right _ List.mem_cons_self, rfl⟩
      | handler hmem =>
          exact ⟨_, List.mem_append_left _ (List.mem_reverse.2 (List.mem_map.2 ⟨_, hmem, rfl⟩)), rfl⟩
  have hmark : ∀ n, (Array.replicate m.code.toArray.size false)[n]? = some true ↔
      Listed [] n := by
    intro n
    simp [Listed, Array.getElem?_replicate]
  rcases deepest_cases (by simp) hmark hbegin with ⟨made, deepest, heq, hs⟩ | ⟨e, heq, he⟩
  · rw [heq]
    exact .inl ⟨made, deepest, rfl, hs⟩
  · rw [heq]
    exact .inr ⟨e, rfl, he⟩

/-! ### Methods with one depth for each instruction -/

/-- Every instruction that is reached has one depth, which all paths bring
there. -/
structure IsDepth (pool : π) (m : Method) (depth : Nat → Nat) : Prop where
  entry : ∀ {n d}, Entry m n d → n < m.code.length → depth n = d
  onward : ∀ {n insn}, Reached m n → m.code[n]? = some insn →
    ∃ after, Leaves pool insn (depth n) after ∧
      ∀ t, Onward insn n t → t < m.code.length → depth t = after

/-- The depths before and after the instructions that are reached. -/
def heldDepths (pool : π) (m : Method) (depth : Nat → Nat) : Set Nat :=
  {d | ∃ n insn, Reached m n ∧ m.code[n]? = some insn ∧
    (d = depth n ∨ Leaves pool insn (depth n) d)}

namespace IsDepth

variable {depth : Nat → Nat}

/-- The depth of a walk is that of the place it leads to. -/
theorem eq_of_walk (h : IsDepth pool m depth) (hw : Walk pool m n d)
    (hlt : n < m.code.length) : depth n = d := by
  induction hw with
  | entry he => exact h.entry he hlt
  | onward hw hi hl ht ih =>
      obtain ⟨after, hafter, hflow⟩ := h.onward hw.reached hi
      rw [ih (List.getElem?_eq_some_iff.1 hi).1] at hafter
      rw [hflow _ ht hlt]
      exact hafter.unique hl

/-- Nothing fails on a walk. -/
theorem exists_leaves (h : IsDepth pool m depth) (hw : Walk pool m n d)
    (hi : m.code[n]? = some insn) : ∃ after, Leaves pool insn d after := by
  obtain ⟨after, hafter, -⟩ := h.onward hw.reached hi
  rw [h.eq_of_walk hw (List.getElem?_eq_some_iff.1 hi).1] at hafter
  exact ⟨after, hafter⟩

theorem not_failsOnPath {e : StackError} (h : IsDepth pool m depth) : ¬ FailsOnPath pool m e := by
  intro hfails
  rcases hfails with ⟨n, -, d, insn, effect, hw, hi, he, hlt⟩ | ⟨-, n, d, insn, hw, hi, he⟩
  · obtain ⟨after, effect', he', hle, -⟩ := h.exists_leaves hw hi
    rw [he] at he'
    cases he'
    omega
  · obtain ⟨after, effect, he', -⟩ := h.exists_leaves hw hi
    rw [he] at he'
    cases he'

/-- The depth that the search ends with is the greatest that is held. -/
theorem isGreatest {made : List Visit} (h : IsDepth pool m depth)
    (hs : Searched pool m made [] limit) : IsGreatest (insert 0 (heldDepths pool m depth)) limit := by
  constructor
  · rcases hs.attained with h0 | ⟨v, hv, hlimit⟩
    · exact .inl h0
    · obtain ⟨insn, after, hpassed⟩ := hs.passed v hv
      have hw := hs.walk v (List.mem_append_left _ hv)
      refine .inr ⟨v.index, insn, hw.reached, hpassed.code, ?_⟩
      rw [h.eq_of_walk hw (List.getElem?_eq_some_iff.1 hpassed.code).1]
      rcases hlimit with hlimit | ⟨other, hi, hl⟩
      · exact .inl hlimit
      · obtain rfl : insn = other := Option.some.inj (hpassed.code.symm.trans hi)
        exact .inr hl
  · intro held hheld
    rcases hheld with rfl | ⟨n, insn, hr, hi, hheld⟩
    · exact Nat.zero_le _
    · obtain ⟨d, after, hw, hl, hbefore, hafter⟩ := hs.exists_passed hr hi
      rw [h.eq_of_walk hw (List.getElem?_eq_some_iff.1 hi).1] at hheld
      rcases hheld with rfl | hheld
      · exact hbefore
      · rw [hheld.unique hl]
        exact hafter

end IsDepth

/-- **The computed depth is exact.** If all paths bring one depth to each
instruction that they reach, the greatest depth before or after one of these is
computed, up to what a word can state; it is zero if there are none. In any case
there is an answer, and an error means that some path runs out of slots or comes
to an instruction without a known effect. -/
theorem maxStack_exact (pool : π) (m : Method) :
    (∀ depth, IsDepth pool m depth → ∃ size deepest, maxStack pool m = .ok size ∧
        IsGreatest (insert 0 (heldDepths pool m depth)) deepest ∧
        size.toNat = min 65535 deepest) ∧
      ((∃ size, maxStack pool m = .ok size) ∨
        ∃ e, maxStack pool m = .error e ∧ FailsOnPath pool m e) := by
  rcases maxStack_cases pool m with ⟨made, deepest, heq, hs⟩ | ⟨e, heq, he⟩
  · refine ⟨fun depth h => ⟨_, deepest, heq, h.isGreatest hs, ?_⟩, .inl ⟨_, heq⟩⟩
    rw [UInt16.toNat_ofNat_of_lt' (by simp [UInt16.size]), Nat.min_comm]
  · exact ⟨fun depth h => absurd he h.not_failsOnPath, .inr ⟨e, heq, he⟩⟩

/-- A loop around a switch, with a handler. Nothing leads to the last instruction,
whose effect is not known. -/
def dispatchLoop : Method where
  code := [.const (.int 3), .switch 2 (.lookup [(0, 0), (1, 3)]), .jump 0, .const (.long 7),
    .verbatim 0x5c [], .verbatim 0xad [], .verbatim 0xbf [], .verbatim 0xa8 [0, 0]]
  handlers := [⟨0, 4, 6, 0⟩]

/-- The depths in the loop around a switch. -/
def dispatchDepth (n : Nat) : Nat := [0, 1, 0, 0, 2, 4, 1].getD n 0

theorem lt_of_reached_dispatchLoop (h : Reached dispatchLoop n) : n < 7 := by
  induction h with
  | entry h =>
      cases h with
      | start => decide
      | handler hmem =>
          obtain rfl := List.mem_singleton.1 hmem
          decide
  | @onward n t insn _ hi ht ih =>
      revert t
      rw [forall_onward]
      interval_cases n <;> cases hi <;> decide

theorem isDepth_dispatchLoop (pool : π) : IsDepth pool dispatchLoop dispatchDepth where
  entry := by
    intro n d he _
    cases he with
    | start => rfl
    | handler hmem =>
        obtain rfl := List.mem_singleton.1 hmem
        rfl
  onward := by
    intro n insn hr hi
    have hn := lt_of_reached_dispatchLoop hr
    interval_cases n <;> cases hi <;>
      exact ⟨_, ⟨_, rfl, by decide, rfl⟩, by rw [forall_onward]; decide⟩

theorem isGreatest_dispatchLoop (pool : π) :
    IsGreatest (insert 0 (heldDepths pool dispatchLoop dispatchDepth)) 4 := by
  constructor
  · have hswitch : Reached dispatchLoop 1 := .onward (.entry .start) rfl (.inl ⟨rfl, rfl⟩)
    have hconst : Reached dispatchLoop 3 := .onward hswitch rfl (.inr (by decide))
    have hdup : Reached dispatchLoop 4 := .onward hconst rfl (.inl ⟨rfl, rfl⟩)
    exact .inr ⟨4, _, hdup, rfl, .inr ⟨_, rfl, by decide, rfl⟩⟩
  · intro d hd
    rcases hd with rfl | ⟨n, insn, hr, hi, hd⟩
    · decide
    · have hn := lt_of_reached_dispatchLoop hr
      rcases hd with rfl | ⟨effect, he, -, rfl⟩
      · interval_cases n <;> decide
      · interval_cases n <;> cases hi <;> cases he <;> decide

theorem maxStack_exact_dispatchLoop :
    IsDepth (⟨#[]⟩ : LiteralPool) dispatchLoop dispatchDepth ∧
      maxStack (⟨#[]⟩ : LiteralPool) dispatchLoop = .ok 4 := by
  have hdepth : IsDepth (⟨#[]⟩ : LiteralPool) dispatchLoop dispatchDepth := isDepth_dispatchLoop _
  obtain ⟨size, deepest, hok, hgreatest, hsize⟩ := (maxStack_exact _ _).1 _ hdepth
  obtain rfl : deepest = 4 := hgreatest.unique (isGreatest_dispatchLoop _)
  obtain rfl : size = 4 := UInt16.toNat_inj.1 hsize
  exact ⟨hdepth, hok⟩

end JvmOptimizer.Sizing
