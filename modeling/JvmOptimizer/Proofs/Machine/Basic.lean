import JvmOptimizer.Eval

/-!
# The running machine

What a method does when it runs, one instruction at a time. Numbers are
computed by `Eval`, an integer division by zero throws, and an exception clears
the operand stack and goes to the first handler that catches it.

Instructions that are carried verbatim are up to an `Environment`: each has some
fixed effect on the operand stack, the heap and the output, may throw, and
leaves local variables alone. The two discards are the exception, since the
optimizer itself writes them.

A machine that would read a variable which is unset, half overwritten or of
another kind, or find the wrong operands, or run off the code, is **stuck**.

The machine runs a `Program`: instructions under names, with the name of the
instruction that comes next. Methods and code streams are both programs, so what
an optimization does can be said of either.
-/

namespace JvmOptimizer.Machine

variable {τ σ Ref Heap Event : Type}

/-! ### Values and variables -/

/-- A value of the running machine. -/
inductive Datum (Ref : Type)
  | number (value : Value)
  | reference (ref : Ref)
  deriving DecidableEq

namespace Datum

/-- The kind of a value. -/
def kind : Datum Ref → LocalKind
  | number v => .number v.kind
  | reference _ => .reference

/-- Slots that a value takes. -/
def slots (d : Datum Ref) : Nat := d.kind.slots

/-- The number that a value is. -/
def number? : Datum Ref → Option Value
  | number v => some v
  | reference _ => none

end Datum

/-- The local variables. A wide value stands at its first slot, and a slot that
holds no value of its own is empty. -/
abbrev Variables (Ref : Type) := Nat → Option (Datum Ref)

namespace Variables

/-- Let a slot hold a value. A wide value takes the slot behind it too, and a
wide value that reached into the slot from below is lost. -/
def write (vars : Variables Ref) (slot : Nat) (d : Datum Ref) : Variables Ref := fun i =>
  if i = slot then some d
  else if d.slots = 2 ∧ i = slot + 1 then none
  else if i + 1 = slot ∧ (vars i).any (·.slots = 2) then none
  else vars i

/-- Exchange the value that a slot holds for one of the same kind. -/
def exchange (vars : Variables Ref) (slot : Nat) (d : Datum Ref) : Variables Ref := fun i =>
  if i = slot then some d else vars i

end Variables

/-! ### The world outside -/

/-- What an instruction that is carried verbatim comes to. -/
inductive Reply (Ref Heap Event : Type)
  | continues (stack : List (Datum Ref)) (heap : Heap) (events : List Event)
  | throws (exception : Ref) (heap : Heap) (events : List Event)

/-- Everything about the machine that the optimizer does not model. -/
structure Environment (Ref Heap Event : Type) where
  /-- The effect of an instruction that is carried verbatim. -/
  effect : Opcode → Bytes → List (Datum Ref) → Heap → Reply Ref Heap Event
  /-- The exception that an integer division by zero throws. -/
  divisionByZero : Heap → Ref × Heap
  /-- Does a handler for a class, named by its pool index, catch an
  exception? -/
  catches : UInt16 → Ref → Heap → Bool
  isNull : Ref → Bool
  isSame : Ref → Ref → Bool

/-! ### Single instructions -/

/-- What an instruction comes to, before it is known where in the program it
stands. -/
inductive Action (τ Ref Heap Event : Type)
  /-- Control goes to the target, or without one to the next instruction. -/
  | goes (target : Option τ) (stack : List (Datum Ref)) (vars : Variables Ref) (heap : Heap)
      (events : List Event)
  | throws (exception : Ref) (heap : Heap) (events : List Event)
  | returns (stack : List (Datum Ref)) (heap : Heap) (events : List Event)
  | stuck

/-- The action with its target replaced. -/
def Action.mapTarget (f : τ → σ) : Action τ Ref Heap Event → Action σ Ref Heap Event
  | goes target stack vars heap events => goes (target.map f) stack vars heap events
  | throws exception heap events => throws exception heap events
  | returns stack heap events => returns stack heap events
  | stuck => stuck

/-- A computation on numbers, deepest operand first. -/
structure Computation where
  arity : Nat
  eval : List Value → Except EvalError Value

/-- The computation that an instruction stands for. -/
def computation? : Instruction τ → Option Computation
  | .arith op kind => some ⟨op.arity, Eval.arithmetic op kind⟩
  | .compare c => some ⟨2, fun
      | [a, b] => Eval.compare c a b
      | _ => .error .typeMismatch⟩
  | .convert source target => some ⟨1, fun
      | [a] => Eval.convert source target a
      | _ => .error .typeMismatch⟩
  | _ => none

theorem targets_of_computation? {insn : Instruction τ} {c : Computation}
    (h : computation? insn = some c) : insn.targets = [] := by
  cases insn with
  | arith | compare | convert => rfl
  | _ => cases h

/-- A computation goes on to the next instruction. -/
theorem fallsThrough_of_computation? {insn : Instruction τ} {c : Computation}
    (h : computation? insn = some c) : insn.fallsThrough := by
  cases insn with
  | arith | compare | convert => rfl
  | _ => cases h

/-- The operands on top of a stack, deepest first. -/
def operands (count : Nat) (stack : List (Datum Ref)) : List (Datum Ref) :=
  (stack.take count).reverse

/-- Is a branch taken with these operands? -/
def taken? (env : Environment Ref Heap Event) :
    Condition → List (Datum Ref) → Option Bool
  | .reference same, [.reference a, .reference b] => some (env.isSame a b == same)
  | .null isNull, [.reference a] => some (env.isNull a == isNull)
  | condition, ds =>
      match ds.mapM Datum.number? with
      | some values => ((Eval.branchTaken condition values).toOption).join
      | none => none

/-- The target that a switch picks for a key. -/
def select (fallback : τ) : SwitchTable τ → Int32 → τ
  | .table low high targets, key =>
      if low ≤ key ∧ key ≤ high then
        targets[(key.toInt - low.toInt).toNat]?.getD fallback
      else
        fallback
  | .lookup pairs, key => (pairs.lookup key).getD fallback

/-- The stack without the value or values that a discard takes away. -/
def discard? (opcode : Opcode) (stack : List (Datum Ref)) : Option (List (Datum Ref)) :=
  if opcode = Opcode.pop then
    match stack with
    | d :: rest => if d.slots = 1 then some rest else none
    | [] => none
  else
    match stack with
    | [] => none
    | d :: rest =>
        if d.slots = 2 then
          some rest
        else
          match rest with
          | e :: rest => if e.slots = 1 then some rest else none
          | [] => none

/-- Run a computation on the stack. -/
def compute (env : Environment Ref Heap Event) (c : Computation)
    (stack : List (Datum Ref)) (vars : Variables Ref) (heap : Heap) :
    Action τ Ref Heap Event :=
  match (operands c.arity stack).mapM Datum.number? with
  | none => .stuck
  | some values =>
      match c.eval values with
      | .ok v => .goes none (.number v :: stack.drop c.arity) vars heap []
      | .error (.divisionByZero _) =>
          let (exception, heap) := env.divisionByZero heap
          .throws exception heap []
      | .error .typeMismatch => .stuck

/-- Run an instruction that is carried verbatim. -/
def runVerbatim (env : Environment Ref Heap Event) (opcode : Opcode) (bytes : Bytes)
    (stack : List (Datum Ref)) (vars : Variables Ref) (heap : Heap) :
    Action τ Ref Heap Event :=
  if opcode = Opcode.pop ∨ opcode = Opcode.pop2 then
    match discard? opcode stack with
    | some rest => .goes none rest vars heap []
    | none => .stuck
  else
    match env.effect opcode bytes stack heap with
    | .continues stack heap events =>
        if opcode.endsFlow then
          .returns stack heap events
        else
          .goes none stack vars heap events
    | .throws exception heap events => .throws exception heap events

/-- Run an instruction. -/
def execute (env : Environment Ref Heap Event) (insn : Instruction τ)
    (stack : List (Datum Ref)) (vars : Variables Ref) (heap : Heap) :
    Action τ Ref Heap Event :=
  match insn with
  | .const v => .goes none (.number v :: stack) vars heap []
  | .load kind index =>
      match vars index.toNat with
      | some d => if d.kind = kind then .goes none (d :: stack) vars heap [] else .stuck
      | none => .stuck
  | .store kind index =>
      match stack with
      | d :: rest =>
          if d.kind = kind then
            .goes none rest (vars.write index.toNat d) heap []
          else
            .stuck
      | [] => .stuck
  | .increment index delta =>
      match vars index.toNat with
      | some (.number (.int v)) =>
          let sum := .number (.int (v + delta.toInt32))
          .goes none stack (vars.exchange index.toNat sum) heap []
      | _ => .stuck
  | .branch condition target =>
      match taken? env condition (operands condition.operands stack) with
      | some true => .goes (some target) (stack.drop condition.operands) vars heap []
      | some false => .goes none (stack.drop condition.operands) vars heap []
      | none => .stuck
  | .jump target => .goes (some target) stack vars heap []
  | .switch fallback cases =>
      match stack with
      | .number (.int key) :: rest => .goes (some (select fallback cases key)) rest vars heap []
      | _ => .stuck
  | .verbatim opcode bytes => runVerbatim env opcode bytes stack vars heap
  | insn =>
      match computation? insn with
      | some c => compute env c stack vars heap
      | none => .stuck

/-! ### Programs -/

/-- A part of a program that an exception handler protects. -/
structure Region where
  /-- Does the region protect an instruction? -/
  covers : Nat → Bool
  /-- Where a caught exception continues. -/
  entry : Nat
  /-- Pool index of the caught class, zero for all. -/
  catchType : UInt16

/-- Code that the machine can run. Instructions have names. -/
structure Program where
  fetch : Nat → Option (Instruction Nat)
  /-- The instruction that control passes on to. -/
  next : Nat → Nat
  start : Nat
  /-- The protected regions, in the order in which they are tried. -/
  regions : List Region

/-- Where an exception thrown at an instruction continues, if `catches` says
which classes catch it. -/
def Program.handler? (p : Program) (name : Nat) (catches : UInt16 → Bool) : Option Nat :=
  (p.regions.find? fun r => r.covers name && (r.catchType == 0 || catches r.catchType)).map
    (·.entry)

/-- A state of the machine. -/
structure Config (Ref Heap Event : Type) where
  /-- The instruction that is run next. -/
  pc : Nat
  /-- The operand stack, top first. -/
  stack : List (Datum Ref)
  vars : Variables Ref
  heap : Heap
  /-- What was put out so far. -/
  output : List Event

/-- How a method ends. -/
inductive Outcome (Ref : Type)
  | returned (stack : List (Datum Ref))
  | uncaught (exception : Ref)

/-- What is left when a method has ended. -/
structure Result (Ref Heap Event : Type) where
  outcome : Outcome Ref
  heap : Heap
  output : List Event

/-- What a step of a machine comes to. -/
inductive Next (C R : Type)
  | running (config : C)
  | halted (result : R)
  | stuck

/-- Continue an action of the instruction at `c.pc`. -/
def resume (env : Environment Ref Heap Event) (p : Program) (c : Config Ref Heap Event) :
    Action Nat Ref Heap Event → Next (Config Ref Heap Event) (Result Ref Heap Event)
  | .goes target stack vars heap events =>
      .running ⟨target.getD (p.next c.pc), stack, vars, heap, c.output ++ events⟩
  | .throws exception heap events =>
      match p.handler? c.pc (env.catches · exception heap) with
      | some entry =>
          .running ⟨entry, [.reference exception], c.vars, heap, c.output ++ events⟩
      | none => .halted ⟨.uncaught exception, heap, c.output ++ events⟩
  | .returns stack heap events => .halted ⟨.returned stack, heap, c.output ++ events⟩
  | .stuck => .stuck

/-- One step of the machine. -/
def step (env : Environment Ref Heap Event) (p : Program) (c : Config Ref Heap Event) :
    Next (Config Ref Heap Event) (Result Ref Heap Event) :=
  match p.fetch c.pc with
  | some insn => resume env p c (execute env insn c.stack c.vars c.heap)
  | none => .stuck

/-- The state in which a program starts. -/
def Program.initial (p : Program) (vars : Variables Ref) (heap : Heap) :
    Config Ref Heap Event :=
  ⟨p.start, [], vars, heap, []⟩

end JvmOptimizer.Machine
