import Mathlib.Tactic.IntervalCases
import JvmOptimizer.Proofs.Flow
import JvmOptimizer.Proofs.Sizing
import JvmOptimizer.Proofs.Verifier.Basic

/-!
# The depth of the operand stack

Of a verified method the computed depth bounds every shape that control can come
to, since the computation follows control just as the shapes do. What was
declared serves as well, if it bounds the shapes.
-/

namespace JvmOptimizer.Verifier

open Sizing

variable {π : Type} [Pool π] {pool : π} {m : Method} {shape : Nat → Shape} {n limit : Nat}
  {insn : Instruction Nat}

/-- The stack holds no more than `limit` slots before and after the
instruction. -/
structure Within (pool : π) (shape : Nat → Shape) (limit n : Nat) (insn : Instruction Nat) :
    Prop where
  before : depth (shape n) ≤ limit
  after : ∀ effect, insn.stackEffect pool = .ok effect →
    depth (shape n) - effect.pops + effect.pushes ≤ limit
  onward : ∀ t, Onward insn n t → depth (shape t) ≤ limit

/-! ### The declared depth -/

/-- An instruction that ends the flow pushes nothing. -/
theorem pushes_of_endsFlow {opcode : Opcode} {bytes : Bytes} {effect : StackEffect}
    (hf : opcode.endsFlow) (he : StackEffect.ofVerbatim pool opcode bytes = .ok effect) :
    effect.pushes = 0 := by
  have hrule : StackEffect.rule opcode = .unknown ∨
      ∃ pops, StackEffect.rule opcode = .fixed ⟨pops, 0⟩ := by
    simp only [Opcode.endsFlow, Bool.or_eq_true, Bool.and_eq_true, beq_iff_eq,
      decide_eq_true_eq] at hf
    unfold StackEffect.rule
    rcases hf with (((h | h) | h) | h) | ⟨hle, hge⟩
    · rw [h]
      exact .inl rfl
    · rw [h]
      exact .inl rfl
    · rw [h]
      exact .inl rfl
    · rw [h]
      exact .inr ⟨1, rfl⟩
    · -- The two switches are no verbatim instructions, the others are the returns.
      interval_cases opcode.toNat
      · exact .inl rfl
      · exact .inl rfl
      all_goals exact .inr ⟨_, rfl⟩
  unfold StackEffect.ofVerbatim at he
  rcases hrule with h | ⟨pops, h⟩
  · rw [h] at he
    cases he
  · rw [h] at he
    cases he
    rfl

/-- A depth that bounds all shapes bounds what is pushed in between. -/
theorem Verified.within (h : Verified pool m shape)
    (hb : ∀ n < m.code.length, depth (shape n) ≤ limit) (hi : m.code[n]? = some insn) :
    Within pool shape limit n insn := by
  obtain ⟨after, heffect, honward⟩ := h.exists_after hi
  have hflow : ∀ {t}, Onward insn n t → depth after ≤ limit := by
    intro t ht
    obtain ⟨hlt, heq⟩ := honward ht
    rw [← heq]
    exact hb t hlt
  refine ⟨hb n (List.getElem?_eq_some_iff.1 hi).1, fun effect he => ?_,
    fun t ht => hb t (honward ht).1⟩
  rw [← (heffect.depth_eq he).2]
  by_cases hf : insn.fallsThrough
  · exact hflow (.inl ⟨hf, rfl⟩)
  · cases insn with
    | jump target => exact hflow (.inr List.mem_cons_self)
    | switch fallback cases => exact hflow (.inr List.mem_cons_self)
    | verbatim opcode bytes =>
        have hpushes := pushes_of_endsFlow (by simpa [Instruction.fallsThrough] using hf) he
        have hbefore := hb n (List.getElem?_eq_some_iff.1 hi).1
        have hafter := (heffect.depth_eq he).2
        omega
    | _ => exact absurd rfl hf

/-! ### The computed depth -/

theorem Verified.depth_of_onward (h : Verified pool m shape) (hi : m.code[n]? = some insn)
    {t : Nat} {effect : StackEffect} (ht : Onward insn n t)
    (he : insn.stackEffect pool = .ok effect) :
    depth (shape t) = depth (shape n) - effect.pops + effect.pushes := by
  obtain ⟨after, heffect, honward⟩ := h.exists_after hi
  rw [(honward ht).2]
  exact (heffect.depth_eq he).2

/-- Every path comes to an instruction with the depth of its shape. -/
theorem Verified.depth_of_walk (h : Verified pool m shape) {d : Nat} (hw : Walk pool m n d) :
    depth (shape n) = d := by
  induction hw with
  | entry he =>
      cases he with
      | start =>
          rw [h.start]
          rfl
      | handler hmem =>
          rw [(h.handler hmem).2.2.2]
          rfl
  | onward _ hi hl ht ih =>
      obtain ⟨effect, he, -, rfl⟩ := hl
      rw [h.depth_of_onward hi ht he, ih]

/-- Where control can come by exceptions, a path leads from a handler. -/
theorem reached_of_reachable (h : m.Reachable n) : Reached m n := by
  induction h with
  | refl => exact .entry .start
  | tail _ hedge ih =>
      cases hedge with
      | next hi hf => exact .onward ih hi (.inl ⟨hf, rfl⟩)
      | target hi ht => exact .onward ih hi (.inr ht)
      | handler _ hmem => exact .entry (.handler hmem)

/-- What the search has visited is within the depth that it ends with. -/
theorem Verified.within_of_searched (h : Verified pool m shape) {made : List Visit}
    (hs : Searched pool m made [] limit) (hr : m.Reachable n) (hi : m.code[n]? = some insn) :
    Within pool shape limit n insn := by
  obtain ⟨d, after, hw, ⟨effect, he, -, rfl⟩, hbefore, hafter⟩ :=
    hs.exists_passed (reached_of_reachable hr) hi
  obtain rfl := h.depth_of_walk hw
  refine ⟨hbefore, fun effect' he' => ?_, fun t ht => ?_⟩
  · rw [he] at he'
    cases he'
    exact hafter
  · rw [h.depth_of_onward hi ht he]
    exact hafter

/-- **The computed depth** bounds what control can come to. -/
theorem Verified.within_maxStack (h : Verified pool m shape) {size : UInt16}
    (hb : ∀ n < m.code.length, depth (shape n) ≤ 65535) (hs : maxStack pool m = .ok size)
    (hr : m.Reachable n) (hi : m.code[n]? = some insn) :
    Within pool shape size.toNat n insn := by
  rcases maxStack_cases pool m with ⟨made, deepest, heq, hdone⟩ | ⟨e, heq, -⟩
  · rw [heq] at hs
    obtain rfl := Except.ok.inj hs
    have hresult := h.within_of_searched hdone hr hi
    have hwide := h.within hb hi
    have hsize : (UInt16.ofNat (min deepest 65535)).toNat = min deepest 65535 :=
      UInt16.toNat_ofNat_of_lt' (by simp [UInt16.size])
    rw [hsize]
    exact ⟨le_min hresult.before hwide.before,
      fun e he => le_min (hresult.after e he) (hwide.after e he),
      fun t ht => le_min (hresult.onward t ht) (hwide.onward t ht)⟩
  · rw [heq] at hs
    cases hs

end JvmOptimizer.Verifier
