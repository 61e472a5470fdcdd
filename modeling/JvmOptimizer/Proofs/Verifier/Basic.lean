import Mathlib.Algebra.GroupWithZero.Nat
import JvmOptimizer.Code.Form
import JvmOptimizer.Proofs.CodeStream.Method
import JvmOptimizer.Proofs.Eval
import JvmOptimizer.Proofs.Machine.Basic
import JvmOptimizer.StackEffect

/-!
# Verified methods

A method is verified by a **shape** for each of its instructions: the kinds of
the values on the operand stack whenever control comes there. The instruction
takes some of them off, puts others on, and leaves the rest; wherever control
goes then, that is the shape.

Instructions that are carried verbatim may exchange what they like for what they
like, as long as the slots agree with what is known of their stack effect.
-/

namespace JvmOptimizer.Verifier

variable {π τ σ : Type} [Pool π] {pool : π}

/-- The kinds of the values on an operand stack, top first. -/
abbrev Shape := List LocalKind

/-- Slots that the values take. -/
def depth (shape : Shape) : Nat := (shape.map LocalKind.slots).sum

/-! ### Instructions -/

/-- The kinds that an operation takes, top first. The distance of a shift is an
int. -/
def operandKinds (op : ArithOp) (kind : Kind) : Shape :=
  if op = .neg then [.number kind]
  else if op.isShift then [.number .int, .number kind]
  else [.number kind, .number kind]

/-- The kinds that a condition takes. -/
def conditionKinds : Condition → Shape
  | .zero _ => [.number .int]
  | .pair _ => [.number .int, .number .int]
  | .reference _ => [.reference, .reference]
  | .null _ => [.reference]

/-- The instruction takes the first values off the stack and puts the second ones
on. -/
def Exchanges (pool : π) : Instruction τ → (popped pushed : Shape) → Prop
  | .const v, popped, pushed => popped = [] ∧ pushed = [.number v.kind]
  | .load kind _, popped, pushed => popped = [] ∧ pushed = [kind]
  | .store kind _, popped, pushed => popped = [kind] ∧ pushed = []
  | .increment _ _, popped, pushed => popped = [] ∧ pushed = []
  | .arith op kind, popped, pushed => popped = operandKinds op kind ∧ pushed = [.number kind]
  | .compare c, popped, pushed =>
      popped = [.number c.operandKind, .number c.operandKind] ∧ pushed = [.number .int]
  | .convert source target, popped, pushed =>
      popped = [.number source] ∧ pushed = [.number target.resultKind]
  | .branch condition _, popped, pushed => popped = conditionKinds condition ∧ pushed = []
  | .jump _, popped, pushed => popped = [] ∧ pushed = []
  | .switch _ _, popped, pushed => popped = [.number .int] ∧ pushed = []
  | .verbatim opcode operands, popped, pushed =>
      ∀ effect, StackEffect.ofVerbatim pool opcode operands = .ok effect →
        depth popped = effect.pops ∧ depth pushed = effect.pushes

/-- The instruction makes the second shape out of the first. -/
def Effect (pool : π) (insn : Instruction τ) (before after : Shape) : Prop :=
  ∃ popped pushed rest, Exchanges pool insn popped pushed ∧ before = popped ++ rest ∧
    after = pushed ++ rest

/-- The machine has the instruction, it is not part of a subroutine, and it does
not use the last of the local slots. -/
def IsRegular : Instruction τ → Prop
  | .load _ index => index ≠ 65535
  | .store _ index => index ≠ 65535
  | .increment index _ => index ≠ 65535
  | .arith op kind =>
      op ∈ Code.numericOps ∨ op ∈ Code.integerOps ∧ (kind = .int ∨ kind = .long)
  | .convert source target => (source, target) ∈ Code.conversions
  | .verbatim opcode _ => ¬ opcode.isSubroutine
  | _ => True

/-! ### Methods -/

/-- The shapes verify the method. -/
structure Verified (pool : π) (m : Method) (shape : Nat → Shape) : Prop where
  start : shape 0 = []
  regular : ∀ {insn}, insn ∈ m.code → IsRegular insn
  /-- Control stays in the method and finds the shape that it brings. -/
  effect : ∀ {n insn}, m.code[n]? = some insn → ∃ after, Effect pool insn (shape n) after ∧
    (∀ t ∈ insn.targets, t < m.code.length ∧ shape t = after) ∧
    (insn.fallsThrough → n + 1 < m.code.length ∧ shape (n + 1) = after)
  /-- A handler protects something, and its code starts with the exception. -/
  handler : ∀ {h}, h ∈ m.handlers → h.start < h.stop ∧ h.stop ≤ m.code.length ∧
    h.entry < m.code.length ∧ shape h.entry = [.reference]

/-- Control goes on from an instruction to another one, other than by an
exception. -/
def Onward (insn : Instruction Nat) (n t : Nat) : Prop :=
  insn.fallsThrough ∧ t = n + 1 ∨ t ∈ insn.targets

/-- An instruction of a verified method leaves one shape, and that is the shape
wherever control goes on. -/
theorem Verified.exists_after {m : Method} {shape : Nat → Shape} {n : Nat}
    {insn : Instruction Nat} (h : Verified pool m shape) (hi : m.code[n]? = some insn) :
    ∃ after, Effect pool insn (shape n) after ∧
      ∀ {t}, Onward insn n t → t < m.code.length ∧ shape t = after := by
  obtain ⟨after, heffect, htargets, hnext⟩ := h.effect hi
  refine ⟨after, heffect, fun {t} ht => ?_⟩
  rcases ht with ⟨hf, rfl⟩ | ht
  · exact hnext hf
  · exact htargets t ht

theorem Verified.isClosed {m : Method} {shape : Nat → Shape} (h : Verified pool m shape) :
    m.IsClosed where
  target := by
    intro insn t hmem ht
    obtain ⟨n, hn, hi⟩ := List.getElem_of_mem hmem
    obtain ⟨after, -, htargets, -⟩ := h.effect (List.getElem?_eq_some_iff.2 ⟨hn, hi⟩)
    exact (htargets t ht).1
  handler := by
    intro r hr
    obtain ⟨hlt, hle, hentry, -⟩ := h.handler hr
    exact ⟨by omega, hentry⟩

/-! ### Depth -/

@[simp]
theorem depth_nil : depth [] = 0 := rfl

@[simp]
theorem depth_cons {kind : LocalKind} {shape : Shape} :
    depth (kind :: shape) = kind.slots + depth shape := by
  simp [depth]

@[simp]
theorem depth_append {shape shape' : Shape} :
    depth (shape ++ shape') = depth shape + depth shape' := by
  simp [depth]

theorem depth_le_of_sublist {shape shape' : Shape} (h : shape.Sublist shape') :
    depth shape ≤ depth shape' := by
  induction h with
  | slnil => exact le_rfl
  | cons kind _ ih => simpa using ih.trans (Nat.le_add_left _ _)
  | cons_cons kind _ ih => simpa using ih

theorem slots_pos (kind : LocalKind) : 0 < kind.slots := by
  rcases kind with (_ | _ | _ | _) | _ <;> decide

/-- What takes the slots of the topmost value takes that value. -/
theorem eq_singleton_of_depth {kind : LocalKind} {popped rest shape : Shape}
    (h : kind :: shape = popped ++ rest) (hd : depth popped = kind.slots) :
    popped = [kind] ∧ rest = shape := by
  have hpos := slots_pos kind
  cases popped with
  | nil => simp at hd; omega
  | cons first others =>
      obtain ⟨rfl, hrest⟩ := List.cons.inj h
      cases others with
      | nil => exact ⟨rfl, hrest.symm⟩
      | cons second others =>
          have := slots_pos second
          simp at hd
          omega

/-! ### Effects -/

section Effects

variable {insn : Instruction τ} {popped pushed before after : Shape}

theorem exchanges_mapTargets (f : τ → σ) :
    Exchanges pool (insn.mapTargets f) popped pushed ↔ Exchanges pool insn popped pushed := by
  cases insn <;> rfl

theorem effect_mapTargets (f : τ → σ) :
    Effect pool (insn.mapTargets f) before after ↔ Effect pool insn before after := by
  simp only [Effect, exchanges_mapTargets]

theorem isRegular_mapTargets (f : τ → σ) : IsRegular (insn.mapTargets f) ↔ IsRegular insn := by
  cases insn <;> rfl

/-- The shapes agree with the stack effect, where there is one. -/
theorem Exchanges.depth_eq {effect : StackEffect} (h : Exchanges pool insn popped pushed)
    (he : insn.stackEffect pool = .ok effect) :
    depth popped = effect.pops ∧ depth pushed = effect.pushes := by
  cases insn with
  | verbatim opcode operands => exact h effect he
  | arith op kind =>
      obtain ⟨rfl, rfl⟩ := h
      have hop : effect = ⟨depth (operandKinds op kind), kind.slots⟩ := by
        cases op <;> cases he <;> simp [operandKinds, ArithOp.isShift, ArithOp.arity,
          LocalKind.slots, Kind.slots] <;> omega
      rw [hop]
      exact ⟨rfl, rfl⟩
  | branch condition target =>
      obtain ⟨rfl, rfl⟩ := h
      cases he
      cases condition <;> exact ⟨rfl, rfl⟩
  | compare comparison =>
      obtain ⟨rfl, rfl⟩ := h
      cases he
      cases comparison <;> exact ⟨rfl, rfl⟩
  | _ =>
      obtain ⟨rfl, rfl⟩ := h
      cases he
      exact ⟨rfl, rfl⟩

/-- The depth of a shape follows the effect that the search computes with. -/
theorem Effect.depth_eq {effect : StackEffect} (h : Effect pool insn before after)
    (he : insn.stackEffect pool = .ok effect) :
    effect.pops ≤ depth before ∧ depth after = depth before - effect.pops + effect.pushes := by
  obtain ⟨popped, pushed, rest, hx, rfl, rfl⟩ := h
  obtain ⟨hpops, hpushes⟩ := hx.depth_eq he
  rw [depth_append, depth_append, ← hpops, ← hpushes]
  omega

end Effects

/-! ### Computations -/

section Computations

open Machine

variable {insn : Instruction τ} {c : Computation} {popped pushed : Shape} {values : List Value}

theorem kind_convert {source : Kind} {target : ConvertTarget} {a v : Value}
    (h : Eval.convert source target a = .ok v) : v.kind = target.resultKind := by
  unfold Eval.convert at h
  split at h
  · cases h
  · split at h
    · cases h
      rename_i kind
      cases a <;> cases kind <;> rfl
    · cases h
      rfl
    · cases h
      rfl
    · cases h
      rfl
    · cases h

theorem kind_compare {comparison : Comparison} {a b v : Value}
    (h : Eval.compare comparison a b = .ok v) : v.kind = .int := by
  unfold Eval.compare at h
  split at h <;> cases h <;> rfl

/-- A computation pops as many values as it has operands, and pushes one of the
kind that it computes. -/
theorem Exchanges.computation (h : Exchanges pool insn popped pushed)
    (hc : computation? insn = some c) :
    popped.length = c.arity ∧ ∃ kind, pushed = [.number kind] ∧
      ∀ {values v}, c.eval values = .ok v → v.kind = kind := by
  cases insn with
  | arith op kind =>
      cases hc
      obtain ⟨rfl, rfl⟩ := h
      exact ⟨by cases op <;> rfl, kind, rfl, Eval.kind_arithmetic⟩
  | compare comparison =>
      cases hc
      obtain ⟨rfl, rfl⟩ := h
      refine ⟨rfl, .int, rfl, fun {values v} he => ?_⟩
      dsimp only at he
      split at he
      · exact kind_compare he
      · cases he
  | convert source target =>
      cases hc
      obtain ⟨rfl, rfl⟩ := h
      refine ⟨rfl, _, rfl, fun {values v} he => ?_⟩
      dsimp only at he
      split at he
      · exact kind_convert he
      · cases he
  | _ => cases hc

theorem exists_single {k : Kind} (h : values.map (LocalKind.number ·.kind) = [.number k]) :
    ∃ a, values = [a] ∧ a.kind = k := by
  rcases values with _ | ⟨a, _ | _⟩ <;> simp at h
  exact ⟨a, rfl, h⟩

theorem exists_pair {k k' : Kind}
    (h : values.map (LocalKind.number ·.kind) = [.number k, .number k']) :
    ∃ a b, values = [a, b] ∧ a.kind = k ∧ b.kind = k' := by
  rcases values with _ | ⟨a, _ | ⟨b, _ | _⟩⟩ <;> simp at h
  exact ⟨a, b, rfl, h⟩

/-- Operands of an operation that the machine has. -/
theorem arithmetic_ne_typeMismatch {op : ArithOp} {kind : Kind}
    (hr : IsRegular (.arith (τ := τ) op kind))
    (hv : values.map (LocalKind.number ·.kind) = (operandKinds op kind).reverse) :
    Eval.arithmetic op kind values ≠ .error .typeMismatch := by
  rw [ne_eq, Eval.arithmetic_eq_typeMismatch_iff, not_not]
  by_cases hneg : op = .neg
  · subst hneg
    obtain ⟨a, rfl, rfl⟩ := exists_single hv
    rfl
  · have hkinds : (operandKinds op kind).reverse =
        [.number kind, .number (if op.isShift then .int else kind)] := by
      simp only [operandKinds, if_neg hneg]
      split <;> rfl
    obtain ⟨a, b, rfl, ha, hb⟩ := exists_pair (hv.trans hkinds)
    refine (Eval.operandKinds?_eq_pair_iff hneg).2 ⟨ha, hb, fun hmem => ?_⟩
    rcases hr with hr | ⟨-, rfl | rfl⟩
    · exact absurd hmem (by revert hr; cases op <;> decide)
    · rfl
    · rfl

/-- **A computation on operands of its kinds** has a result, or divides by
zero. -/
theorem eval_ne_typeMismatch (h : Exchanges pool insn popped pushed) (hr : IsRegular insn)
    (hc : computation? insn = some c)
    (hv : values.map (LocalKind.number ·.kind) = popped.reverse) :
    c.eval values ≠ .error .typeMismatch := by
  cases insn with
  | arith op kind =>
      cases hc
      obtain ⟨rfl, -⟩ := h
      exact arithmetic_ne_typeMismatch hr hv
  | compare comparison =>
      cases hc
      obtain ⟨rfl, -⟩ := h
      obtain ⟨a, b, rfl, ha, hb⟩ := exists_pair hv
      cases comparison <;> cases a <;> cases ha <;> cases b <;> cases hb <;> simp [Eval.compare]
  | convert source target =>
      cases hc
      obtain ⟨rfl, -⟩ := h
      obtain ⟨a, rfl, rfl⟩ := exists_single hv
      simp only [Eval.convert, ne_eq, not_true_eq_false, if_false]
      cases a <;> cases target <;> simp_all [IsRegular, Code.conversions, Value.kind]
  | _ => cases hc

/-- A condition on operands of its kinds can be evaluated. -/
theorem branchTaken_ne_error {condition : Condition} {e : EvalError}
    (hv : values.map (LocalKind.number ·.kind) = (conditionKinds condition).reverse) :
    Eval.branchTaken condition values ≠ .error e := by
  cases condition with
  | zero relation =>
      obtain ⟨a, rfl, ha⟩ := exists_single hv
      cases a <;> cases ha
      simp [Eval.branchTaken]
  | pair relation =>
      obtain ⟨a, b, rfl, ha, hb⟩ := exists_pair hv
      cases a <;> cases ha
      cases b <;> cases hb
      simp [Eval.branchTaken]
  | reference same => simp [Eval.branchTaken]
  | null isNull => simp [Eval.branchTaken]

end Computations

end JvmOptimizer.Verifier
