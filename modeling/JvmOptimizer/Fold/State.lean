import JvmOptimizer.OptimizeError

/-!
# Folding state

What the folding pass knows at a place in the stream: the local slots that are
certain to hold a known value, and the topmost values of the operand stack.

A stack value may carry the node that pushed it. As long as it does, nothing
but its consumer can see the value, so the node may be deleted when the
consumer is replaced. Below the values that the pass keeps track of there may
be others, about which it knows nothing (`floor`).
-/

namespace JvmOptimizer.Fold

/-- Local slots with known values. A wide value stands at its first slot. -/
structure Locals where
  /-- Slots and their values. -/
  entries : List (Nat × Value) := []

namespace Locals

/-- The known value of a slot. -/
def get? (l : Locals) (slot : Nat) : Option Value := l.entries.lookup slot

/-- Forget the value that stands at a slot. -/
def erase (slot : Nat) (l : Locals) : Locals := ⟨l.entries.filter (·.1 ≠ slot)⟩

/-- Let a slot hold a value. -/
def insert (slot : Nat) (v : Value) (l : Locals) : Locals :=
  ⟨(slot, v) :: (l.erase slot).entries⟩

/-- Does a wide value stand at a slot? -/
def isWide (l : Locals) (slot : Nat) : Bool := (l.get? slot).any (·.slots = 2)

/-- Forget what a write to a slot destroys: the value there, and a wide value
that reaches into the slot from below. -/
def forget (l : Locals) (slot : Nat) : Locals :=
  let l := l.erase slot
  if 0 < slot ∧ l.isWide (slot - 1) then l.erase (slot - 1) else l

/-- Forget what writes to several slots destroy. -/
def forgetAll (slots : List Nat) (l : Locals) : Locals := slots.foldl forget l

/-- What is known whichever of several states control comes from; nothing if
there is none. -/
def meet : List Locals → Locals
  | [] => {}
  | l :: others => ⟨l.entries.filter fun e => others.all fun o => o.get? e.1 = some e.2⟩

end Locals

/-- A value on the simulated operand stack. -/
structure Slot where
  /-- The value, if it is known. -/
  value : Option Value
  /-- The node that pushed the value, if it may be deleted with its
  consumer. -/
  site : Option Nat

/-- A value about which nothing is known. -/
def Slot.unknown : Slot := ⟨none, none⟩

/-- What a run of the pass did. -/
structure Stats where
  /-- Computations replaced by constants. -/
  folded : Nat := 0
  /-- Variable loads replaced by constants. -/
  propagated : Nat := 0
  /-- Branches decided. -/
  pruned : Nat := 0
  /-- Nodes deleted. -/
  deleted : Nat := 0
  /-- Opportunities passed up to keep the method's meaning. -/
  skipped : Nat := 0
  deriving DecidableEq

/-- The state of the pass. -/
structure State where
  /-- The stream, edited so far. -/
  stream : CodeStream
  /-- Known local slots. -/
  locals : Locals := {}
  /-- The operand stack, top first. -/
  stack : List Slot := []
  /-- May there be more values below those of `stack`? -/
  floor : Bool := false
  /-- Was a value loaded that a loop may change? Then the next computation is
  not folded. -/
  blocked : Bool := false
  /-- Can control come from the node in front? -/
  reachable : Bool := true
  /-- Jumps over the other arm of a decided branch, which may take that arm
  with them. -/
  armed : List Nat := []
  /-- The local slots known at each forward transfer so far, with its
  target. -/
  edges : List (Nat × Locals) := []
  stats : Stats := {}

/-- A step of the pass. An error keeps the edits made before it. -/
abbrev Step := ExceptT OptimizeError (StateM State)

/-! ### The operand stack -/

/-- Push a value. -/
def push (slot : Slot) : Step Unit := modify fun s => { s with stack := slot :: s.stack }

/-- Pop a value for the node `id`. -/
def pop (id : Nat) : Step Slot := do
  let s ← get
  match s.stack with
  | top :: rest =>
      set { s with stack := rest }
      return top
  | [] => if s.floor then return Slot.unknown else throw (.inconsistentStack id)

/-- Pop several values for the node `id`; the deepest comes first. -/
def popMany (id : Nat) : (count : Nat) → Step (List Slot)
  | 0 => return []
  | count + 1 => do
      let top ← pop id
      let below ← popMany id count
      return below ++ [top]

/-- Forget everything about the stack. -/
def resetStack : Step Unit := modify fun s => { s with stack := [], floor := true }

/-- The values and the sites of stack values that all have both. -/
def known? (slots : List Slot) : Option (List Value × List Nat) :=
  match slots.mapM (·.value), slots.mapM (·.site) with
  | some values, some sites => some (values, sites)
  | _, _ => none

/-! ### The stream -/

/-- Change the counters. -/
def count (f : Stats → Stats) : Step Unit := modify fun s => { s with stats := f s.stats }

/-- Delete a node. -/
def delete (id : Nat) : Step Unit := do
  let s ← get
  match s.stream.deleteOne id with
  | .ok stream => set { s with stream }
  | .error e => throw (.danglingTarget e)

/-- Try to delete a run of nodes, and say how many went. A run that something
leads into stays. -/
def deleteRun? (first last : Nat) : Step (Option Nat) := do
  let s ← get
  match s.stream.deleteRange first last with
  | .ok (removed, stream) =>
      set { s with stream }
      return some removed
  | .error _ =>
      count fun c => { c with skipped := c.skipped + 1 }
      return none

/-- Replace the instruction of a node by a constant. -/
def replaceByConst (id : Nat) (v : Value) : Step Unit :=
  modify fun s => { s with stream := s.stream.replace id (.const v) }

/-- Remember what is known on a forward transfer. -/
def recordEdge (source target : Nat) : Step Unit :=
  modify fun s =>
    if s.stream.isForward source target then
      { s with edges := s.edges ++ [(target, s.locals)] }
    else
      s

end JvmOptimizer.Fold
