import JvmOptimizer.Eval
import JvmOptimizer.Fold.State
import JvmOptimizer.Loops

/-!
# Folding

One walk along the stream that computes what it can ahead of time: it puts
constants in the place of variable loads and computations, and takes out
branches whose outcome is known, together with the arm that is never run.

What is known where control flows together is handled with care.

* At a **join** only those variables stay known that have the same value on the
  path from the node in front and on every forward transfer to the node, and
  nothing stays known about the stack.
* At the **head of a loop** every variable that the loop writes is forgotten.
* At the **entry of an exception handler** all variables are forgotten.
* A **load in a loop** that writes the variable is not replaced, and neither is
  the computation it goes into.
* A **branch** is decided only outside of all loops.
-/

namespace JvmOptimizer.Fold

variable (loops : List LoopExtent)

/-! ### Arriving at a node -/

/-- Is the node entered otherwise than from the node in front alone? -/
def State.isMerge (s : State) (id : Nat) : Bool :=
  s.stream.isTargeted id || !s.reachable

/-- The local slots known on the paths to a node: from the node in front, if
control comes from there, and on the forward transfers. -/
def State.incoming (s : State) (id : Nat) : List Locals :=
  (if s.reachable then [s.locals] else []) ++ (s.edges.filter (·.1 == id)).map (·.2)

/-- The local slots known at a node where paths merge. -/
def State.mergedLocals (s : State) (id : Nat) : Locals :=
  let merged := if s.stream.isHandlerEntry id then {} else Locals.meet (s.incoming id)
  if Loops.isHead loops id then
    merged.forgetAll (Loops.changedAtHead loops s.stream id)
  else
    merged

/-- The state on arrival at a node. -/
def State.enter (s : State) (id : Nat) : State :=
  if s.isMerge id then
    { s with
      locals := s.mergedLocals loops id
      edges := s.edges.filter (·.1 != id)
      stack := []
      floor := true
      blocked := false
      reachable := true }
  else
    s

/-! ### Variables -/

/-- The known value of a variable of a kind. -/
def Locals.ofKind? (l : Locals) (kind : LocalKind) (slot : Nat) : Option Value :=
  (l.get? slot).filter fun v => LocalKind.number v.kind = kind

/-- A load. A known variable becomes a constant, unless a loop around the node
may change it. -/
def load (id : Nat) (kind : LocalKind) (slot : Nat) : Step Unit := do
  let s ← get
  match s.locals.ofKind? kind slot with
  | none => push ⟨none, some id⟩
  | some v =>
      if Loops.changesAround loops s.stream id slot then
        modify fun s => { s with blocked := true }
      else
        replaceByConst id v
        count fun c => { c with propagated := c.propagated + 1 }
      push ⟨some v, some id⟩

/-- A store. -/
def store (id : Nat) (kind : LocalKind) (index : UInt16) : Step Unit := do
  let slot ← pop id
  let written := (Instruction.store (τ := Nat) kind index).writtenSlots
  modify fun s =>
    let locals := s.locals.forgetAll written
    match slot.value with
    | some v =>
        if LocalKind.number v.kind = kind then
          { s with locals := locals.insert index.toNat v }
        else
          { s with locals }
    | none => { s with locals }

/-- An increment. -/
def increment (index : UInt16) (delta : Int16) : Step Unit :=
  modify fun s =>
    match s.locals.get? index.toNat with
    | some (.int v) =>
        { s with locals := s.locals.insert index.toNat (.int (v + delta.toInt32)) }
    | _ => { s with locals := s.locals.forgetAll [index.toNat] }

/-! ### Computations -/

/-- Put a constant in the place of a computation and of the nodes that pushed
its operands. -/
def condense (id : Nat) (sites : List Nat) (v : Value) : Step Unit := do
  sites.forM delete
  replaceByConst id v
  count fun c => { c with folded := c.folded + 1, deleted := c.deleted + sites.length }
  push ⟨some v, some id⟩

/-- A computation with `arity` operands. One that would throw stays. -/
def compute (id : Nat) (arity : Nat) (eval : List Value → Except EvalError Value) :
    Step Unit := do
  let operands ← popMany id arity
  let blocked := (← get).blocked
  modify fun s => { s with blocked := false }
  match blocked, known? operands with
  | false, some (values, sites) =>
      match eval values with
      | .ok v => condense id sites v
      | .error (.divisionByZero _) =>
          count fun c => { c with skipped := c.skipped + 1 }
          push Slot.unknown
      | .error .typeMismatch => throw (.inconsistentStack id)
  | _, _ => push Slot.unknown

/-- A comparison of two operands. -/
def evalCompare (c : Comparison) : List Value → Except EvalError Value
  | [a, b] => Eval.compare c a b
  | _ => .error .typeMismatch

/-- A conversion of one operand. -/
def evalConvert (source : Kind) (target : ConvertTarget) :
    List Value → Except EvalError Value
  | [a] => Eval.convert source target a
  | _ => .error .typeMismatch

/-! ### Transfers of control -/

/-- The jump in front of the target of a branch that leads further forward: it
ends the arm that the branch skips, and skips the other one. -/
def elseJump? (s : CodeStream) (id target : Nat) : Option Nat :=
  (s.prev? target).filter fun last =>
    last ≠ id &&
      match s.instruction? last with
      | some (.jump t) => s.isForward last t
      | _ => false

/-- A branch that is never taken goes, with the nodes that pushed its
operands. -/
def pruneNotTaken (id target : Nat) (sites : List Nat) : Step Unit := do
  let jump := elseJump? (← get).stream id target
  sites.forM delete
  delete id
  count fun c =>
    { c with deleted := c.deleted + sites.length + 1, pruned := c.pruned + 1 }
  modify fun s => { s with armed := jump.toList ++ s.armed }

/-- A branch that is always taken goes, with the arm that it skips and the
nodes that pushed its operands. False if something leads into that arm. -/
def pruneTaken (id target : Nat) (sites : List Nat) : Step Bool := do
  match (← get).stream.prev? target with
  | none => return false
  | some last =>
      match ← deleteRun? id last with
      | none => return false
      | some removed =>
          sites.forM delete
          count fun c =>
            { c with deleted := c.deleted + removed + sites.length, pruned := c.pruned + 1 }
          return true

/-- Control may go either way. Whatever is on the stack is seen by both ways
from here on, so its nodes have to stay. -/
def fork (id target : Nat) : Step Unit := do
  recordEdge id target
  modify fun s => { s with stack := s.stack.map fun slot => { slot with site := none } }

/-- A conditional branch. -/
def branch (id : Nat) (condition : Condition) (target : Nat) : Step Unit := do
  let operands ← popMany id condition.operands
  let s ← get
  let decidable := !s.blocked && s.stream.isForward id target
    && !Loops.isInside loops s.stream id && !Loops.isInside loops s.stream target
  match decidable, known? operands with
  | true, some (values, sites) =>
      match Eval.branchTaken condition values with
      | .error _ => throw (.inconsistentStack id)
      | .ok (some false) => pruneNotTaken id target sites
      | .ok (some true) => if !(← pruneTaken id target sites) then fork id target
      | .ok none => fork id target
  | _, _ => fork id target

/-- Control never comes to the node behind this one by falling through. -/
def endFlow : Step Unit := modify fun s => { s with reachable := false }

/-- A jump. An armed jump takes the arm that it skips with it, if nothing leads
into that arm. -/
def jump (id target : Nat) : Step Unit := do
  let s ← get
  let mut removed := none
  if s.armed.contains id then
    set { s with armed := s.armed.erase id }
    if let some last := s.stream.prev? target then
      removed ← deleteRun? id last
  match removed with
  | some n => count fun c => { c with deleted := c.deleted + n }
  | none =>
      recordEdge id target
      endFlow

/-- A switch. -/
def switch (id : Nat) (targets : List Nat) : Step Unit := do
  let _ ← pop id
  targets.forM (recordEdge id)
  endFlow

/-- An instruction that is carried verbatim: it may do anything to the stack,
but leaves local variables alone. -/
def verbatim (id : Nat) (opcode : Opcode) : Step Unit := do
  if opcode.isSubroutine then
    throw (.unsupportedInstruction opcode ((← get).stream.position id))
  resetStack
  if opcode.endsFlow then
    endFlow

/-! ### The walk -/

/-- The effect of an instruction other than a push. -/
def execute (id : Nat) : Instruction Nat → Step Unit
  | .const v => push ⟨some v, some id⟩
  | .load kind index => load loops id kind index.toNat
  | .store kind index => store id kind index
  | .increment index delta => increment index delta
  | .arith op kind => compute id op.arity (Eval.arithmetic op kind)
  | .compare c => compute id 2 (evalCompare c)
  | .convert source target => compute id 1 (evalConvert source target)
  | .branch condition target => branch loops id condition target
  | .jump target => jump id target
  | .switch fallback cases => switch id (fallback :: cases.targets)
  | .verbatim opcode _ => verbatim id opcode

/-- Visit a node. A block stands until something other than a push was
visited. -/
def visit (id : Nat) : Step Unit := do
  match (← get).stream.instruction? id with
  | none => return
  | some insn =>
      execute loops id insn
      if !insn.isPurePush then
        modify fun s => { s with blocked := false }

/-- Walk over the nodes that are still live when their turn comes. -/
def walk (ids : List Nat) : Step Unit :=
  ids.forM fun id => do
    if (← get).stream.isLive id then
      modify fun s => s.enter loops id
      visit loops id

end JvmOptimizer.Fold

namespace JvmOptimizer

/-- Fold a stream with the loops it had. The stream is renumbered; after an
error it is left as it was at that point. -/
def CodeStream.fold (s : CodeStream) (loops : List LoopExtent) :
    Except OptimizeError Fold.Stats × CodeStream :=
  match Fold.walk loops s.ids { stream := s } with
  | (.ok _, final) => (.ok final.stats, final.stream.renumber)
  | (.error e, final) => (.error e, final.stream)

end JvmOptimizer
