import JvmOptimizer.Method
import JvmOptimizer.StackEffect

/-!
# Limits of a method

A method declares how many local slots it uses and how deep its operand stack
gets. After a change both are computed anew: the local slots from the highest
one that an instruction names, the stack by following control from the start of
the method with an empty stack and from each handler with the exception on it.
-/

namespace JvmOptimizer.Sizing

/-- The number of local slots that an instruction needs. -/
def localsOf : Instruction Nat → Nat
  | .load kind index => index.toNat + kind.slots
  | .store kind index => index.toNat + kind.slots
  | .increment index _ => index.toNat + 1
  | _ => 0

/-- The number of local slots that a method needs, at least those of its
parameters. -/
def maxLocals (m : Method) : UInt16 :=
  let needed := m.code.foldl (fun n insn => max n (localsOf insn)) m.parameterSlots.toNat
  UInt16.ofNat (min needed 65535)

/-- An instruction still to be visited, with the depth of the stack there. -/
structure Visit where
  index : Nat
  depth : Nat

/-- Where control goes from an instruction, with the depth of the stack behind
it. The visit to be made first comes first. -/
def successors (insn : Instruction Nat) (index depth : Nat) : List Visit :=
  let through := if insn.fallsThrough then [index + 1] else []
  (through ++ insn.targets.reverse).map fun i => ⟨i, depth⟩

private theorem count_set_lt {visited : Array Bool} {i : Nat} (h : i < visited.size)
    (hv : visited[i] = false) :
    (visited.set i true).count false < visited.count false := by
  have hpos : 0 < visited.count false := by
    rw [Array.count_pos_iff]
    exact hv ▸ visited.getElem_mem h
  rw [Array.count_set h, hv]
  simp only [beq_self_eq_true, if_true, Bool.true_beq, Bool.false_eq_true, if_false]
  omega

/-- The greatest depth on the visits to come. Every instruction is visited once,
with the depth at which control comes to it first. -/
def deepest {π : Type} [Pool π] (pool : π) (code : Array (Instruction Nat)) :
    (visited : Array Bool) → (pending : List Visit) → (depth : Nat) → Except StackError Nat
  | _, [], depth => .ok depth
  | visited, v :: pending, depth =>
      match code[v.index]? with
      | none => deepest pool code visited pending depth
      | some insn =>
          if h : v.index < visited.size then
            if hv : visited[v.index] then
              deepest pool code visited pending depth
            else
              match insn.stackEffect pool with
              | .error e => .error e
              | .ok effect =>
                  if v.depth < effect.pops then
                    .error (.underflow v.index)
                  else
                    let after := v.depth - effect.pops + effect.pushes
                    deepest pool code (visited.set v.index true)
                      (successors insn v.index after ++ pending)
                      (max depth (max v.depth after))
          else
            deepest pool code visited pending depth
termination_by visited pending => (visited.count false, pending.length)
decreasing_by
  all_goals first
    | exact Prod.Lex.right _ (Nat.lt_succ_self _)
    | exact Prod.Lex.left _ _ (count_set_lt h (by simpa using hv))

/-- The depth that the operand stack of a method gets, in slots. -/
def maxStack {π : Type} [Pool π] (pool : π) (m : Method) : Except StackError UInt16 := do
  let start := if m.code.isEmpty then [] else [(⟨0, 0⟩ : Visit)]
  let handlers := m.handlers.map fun h => (⟨h.entry, 1⟩ : Visit)
  let code := m.code.toArray
  let depth ← deepest pool code (Array.replicate code.size false) (handlers.reverse ++ start) 0
  return UInt16.ofNat (min depth 65535)

end JvmOptimizer.Sizing
