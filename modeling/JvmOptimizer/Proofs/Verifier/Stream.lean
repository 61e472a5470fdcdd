import Mathlib.Data.List.Nodup
import JvmOptimizer.Proofs.Machine.Program
import JvmOptimizer.Proofs.Verifier.Basic

/-!
# Verified streams

The same for a code stream, where control passes to the next live node. A
verified method has a verified stream, and a verified stream that names only
live nodes has a verified method; in between an optimization may do what it
likes as long as the stream stays verified.
-/

namespace JvmOptimizer.Verifier

open CodeStream

variable {π : Type} [Pool π] {pool : π} {m : Method} {s : CodeStream} {shape : Nat → Shape}
  {n j : Nat} {insn : Instruction Nat}

/-- An instruction whose targets are named by live nodes makes out of a shape what
is expected where control goes. -/
def Arrives (pool : π) (s : CodeStream) (shape : Nat → Shape) (n : Nat)
    (insn : Instruction Nat) : Prop :=
  ∃ after, Effect pool insn (shape n) after ∧ (∀ t ∈ insn.targets, shape t = after) ∧
    (insn.fallsThrough → s.isLive (s.ahead (n + 1)) ∧ shape (s.ahead (n + 1)) = after)

/-- The shapes verify the stream. -/
structure Typed (pool : π) (s : CodeStream) (shape : Nat → Shape) : Prop where
  start : shape (s.ahead 0) = []
  regular : ∀ {n insn}, s.isLive n → s.instruction? n = some insn → IsRegular insn
  arrives : ∀ {n insn}, s.isLive n → s.instruction? n = some insn → Arrives pool s shape n insn
  handler : ∀ {r n}, r ∈ s.handlers → s.isLive n → Covers r n → shape r.entry = [.reference]

theorem Typed.renumber (h : Typed pool s shape) : Typed pool s.renumber shape := by
  constructor
  · rw [ahead_renumber]
    exact h.start
  · intro n insn hn hi
    rw [isLive_renumber] at hn
    rw [instruction?_renumber] at hi
    exact h.regular hn hi
  · intro n insn hn hi
    rw [isLive_renumber] at hn
    rw [instruction?_renumber] at hi
    rw [Arrives, ahead_renumber, isLive_renumber]
    exact h.arrives hn hi
  · intro r n hr hn
    rw [isLive_renumber] at hn
    exact h.handler hr hn

/-! ### The stream of a method -/

/-- A verified method is a verified stream, as all its nodes are live. -/
theorem Verified.typed (h : Verified pool m shape) : Typed pool (whole m) shape := by
  constructor
  · rw [ahead_whole (Nat.zero_le _)]
    exact h.start
  · intro n insn _ hi
    rw [instruction?_whole] at hi
    exact h.regular (List.mem_of_getElem? hi)
  · intro n insn _ hi
    rw [instruction?_whole] at hi
    obtain ⟨after, heffect, htargets, hnext⟩ := h.effect hi
    refine ⟨after, heffect, fun t ht => (htargets t ht).2, fun hf => ?_⟩
    obtain ⟨hlt, heq⟩ := hnext hf
    rw [ahead_whole hlt.le, isLive_whole]
    exact ⟨hlt, heq⟩
  · intro r n hr _ _
    obtain ⟨handler, hmem, rfl⟩ := List.mem_map.1 hr
    exact (h.handler hmem).2.2.2

/-! ### The method of a stream -/

/-- The shapes of a stream, by places. -/
def flatShape (s : CodeStream) (shape : Nat → Shape) (j : Nat) : Shape :=
  (s.ids[j]?.map shape).getD []

theorem flatShape_rank (hn : s.isLive n) : flatShape s shape (s.rank n) = shape n := by
  rw [flatShape, getElem?_ids hn]
  rfl

theorem rank_lt_length (hn : s.isLive n) : s.rank n < s.length := by
  rw [length_eq_rank]
  exact rank_lt_rank hn (lt_size_of_isLive hn)

/-- Every place is that of a node. -/
theorem exists_rank_eq (hj : j < s.length) : ∃ n, s.isLive n ∧ s.rank n = j := by
  have hmem : s.ids[j] ∈ s.ids := List.getElem_mem hj
  have hlive := mem_ids.1 hmem
  refine ⟨s.ids[j], hlive, ?_⟩
  have hnodup : s.ids.Nodup := pairwise_ids.imp Nat.ne_of_lt
  obtain ⟨hlt, heq⟩ := List.getElem?_eq_some_iff.1 (getElem?_ids hlive)
  exact hnodup.getElem_inj_iff.1 heq

/-- Every instruction of the method is that of a node. -/
theorem exists_of_getElem?_flat {template : Method} {insn' : Instruction Nat}
    (hi : (s.flat template).code[j]? = some insn') :
    ∃ n insn, s.isLive n ∧ s.rank n = j ∧ s.instruction? n = some insn ∧
      insn.mapTargets s.rank = insn' := by
  have hj := (List.getElem?_eq_some_iff.1 hi).1
  rw [length_flat] at hj
  obtain ⟨n, hn, rfl⟩ := exists_rank_eq hj
  rw [getElem?_flat hn, Option.map_eq_some_iff] at hi
  obtain ⟨insn, hi, rfl⟩ := hi
  exact ⟨n, insn, hn, rfl, hi, rfl⟩

/-- **A verified stream has a verified method.** -/
theorem Typed.flat (h : Typed pool s shape) (hs : s.IsClosed) (template : Method) :
    Verified pool (s.flat template) (flatShape s shape) := by
  have hlength : (s.flat template).code.length = s.length := length_flat
  constructor
  · -- The first place is that of the first node.
    by_cases hpos : 0 < s.length
    · obtain ⟨n, hn, hrank⟩ := exists_rank_eq hpos
      have hahead : s.isLive (s.ahead 0) :=
        isLive_ahead ((ahead_le_of_isLive (Nat.zero_le n) hn).trans_lt (lt_size_of_isLive hn))
      have hzero : s.rank (s.ahead 0) = 0 := rank_ahead (Nat.zero_le _)
      rw [← hzero, flatShape_rank hahead]
      exact h.start
    · rw [flatShape, List.getElem?_eq_none (by rw [← length]; omega)]
      rfl
  · intro insn' hmem
    obtain ⟨j, hj⟩ := List.getElem?_of_mem hmem
    obtain ⟨n, insn, hn, -, hi, rfl⟩ := exists_of_getElem?_flat hj
    exact (isRegular_mapTargets _).2 (h.regular hn hi)
  · intro j insn' hj
    obtain ⟨n, insn, hn, rfl, hi, rfl⟩ := exists_of_getElem?_flat hj
    obtain ⟨after, heffect, htargets, hnext⟩ := h.arrives hn hi
    rw [flatShape_rank hn, hlength]
    refine ⟨after, (effect_mapTargets _).2 heffect, fun t ht => ?_, fun hf => ?_⟩
    · rw [Instruction.targets_mapTargets] at ht
      obtain ⟨u, hu, rfl⟩ := List.mem_map.1 ht
      have hlive : s.isLive u := hs.target hn (by rwa [targets_of_instruction? hi])
      rw [flatShape_rank hlive]
      exact ⟨rank_lt_length hlive, htargets u hu⟩
    · rw [Instruction.fallsThrough_mapTargets] at hf
      obtain ⟨hlive, heq⟩ := hnext hf
      -- Falling through goes to the next live node, whose rank is the next place.
      have hsucc : s.rank n + 1 = s.rank (s.ahead (n + 1)) := by
        rw [rank_ahead (lt_size_of_isLive hn), rank_succ, if_pos hn]
      rw [hsucc, flatShape_rank hlive]
      exact ⟨rank_lt_length hlive, heq⟩
  · intro handler hmem
    obtain ⟨r, hr, hof⟩ := List.mem_filterMap.1 hmem
    have hstart := hs.start hr
    have hentry := hs.entry hr
    simp only [handlerOf?] at hof
    split at hof
    · rename_i hlt
      cases hof
      have hcovers : Covers r r.start := by
        simpa [Covers] using (covers_handlerOf? hstart).2 ⟨le_rfl, hlt⟩
      rw [hlength, flatShape_rank hentry]
      refine ⟨hlt, ?_, rank_lt_length hentry, h.handler hr hstart hcovers⟩
      cases hstop : r.stop with
      | none => exact le_rfl
      | some k => exact (rank_lt_length (hs.stop hr hstop)).le
    · cases hof

end JvmOptimizer.Verifier
