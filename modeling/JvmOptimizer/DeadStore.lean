import JvmOptimizer.Loops
import JvmOptimizer.OptimizeError

/-!
# Dead stores

A store to a local slot is dead if it is the last access of the slot in the
stream and no read of the slot in front of it can be reached from it. Where
control may come back to is bounded by `reentry`: the lowest position that
backward transfers and exception handlers lead to from the store on.

A dead store goes together with the node that pushed its value, if that is all
the node does; otherwise the value is discarded instead. A discarded push goes
as well. Each removal may make another store dead, so rounds are repeated until
one changes nothing.
-/

namespace JvmOptimizer.DeadStore

/-- What a run of the pass did. -/
structure Stats where
  /-- Rounds, the last one included. -/
  rounds : Nat := 0
  /-- Stores removed with the push that fed them. -/
  removed : Nat := 0
  /-- Stores replaced by a discard of their value. -/
  popped : Nat := 0
  /-- Discarded pushes removed. -/
  pairs : Nat := 0
  deriving DecidableEq

namespace Stats

/-- Number of changes. -/
def changes (c : Stats) : Nat := c.removed + c.popped + c.pairs

/-- Was anything changed? -/
def isChanged (c : Stats) : Bool := 0 < c.changes

end Stats

/-- The stream and the counters. -/
structure State where
  stream : CodeStream
  stats : Stats := {}

/-- A step of the pass. An error keeps the edits made before it. -/
abbrev Step := ExceptT OptimizeError (StateM State)

/-- Delete a node. -/
def delete (id : Nat) : Step Unit := do
  let s ← get
  match s.stream.deleteOne id with
  | .ok stream => set { s with stream }
  | .error e => throw (.danglingTarget e)

/-- Change the counters. -/
def count (f : Stats → Stats) : Step Unit := modify fun s => { s with stats := f s.stats }

/-! ### Where control may come back to -/

section Reentry

variable (s : CodeStream) (loops : List LoopExtent)

/-- The lowest position that one transfer leads to from `lowest` or behind. -/
def reentryStep (lowest : Nat) : Nat :=
  let heads := (loops.filter fun e => lowest ≤ s.position e.tail).map fun e =>
    s.position e.head
  let entries := (s.handlers.filter fun h => h.stop.all (lowest < s.position ·)).map fun h =>
    s.position h.entry
  (heads ++ entries).foldl min lowest

private theorem foldl_min_le (l : List Nat) (n : Nat) : l.foldl min n ≤ n := by
  induction l generalizing n with
  | nil => exact Nat.le_refl n
  | cons a l ih => exact Nat.le_trans (ih (min n a)) (Nat.min_le_left n a)

/-- A step never leads forward. -/
theorem reentryStep_le (lowest : Nat) : reentryStep s loops lowest ≤ lowest :=
  foldl_min_le _ lowest

/-- The lowest position that control may come back to from `position` or
behind. -/
def reentry (position : Nat) : Nat :=
  let lowest := reentryStep s loops position
  if lowest < position then reentry lowest else position

end Reentry

/-! ### Stores -/

/-- The last store to a slot, and the node that feeds it if that one only
pushes a value. -/
structure Candidate where
  slot : Nat
  store : Nat
  producer : Option Nat

/-- The slot that a node stores to. -/
def storedSlot? (s : CodeStream) (id : Nat) : Option Nat :=
  match s.instruction? id with
  | some (.store _ index) => some index.toNat
  | _ => none

/-- Does a node read a slot? -/
def reads (s : CodeStream) (slot id : Nat) : Bool :=
  (s.instruction? id).any (·.readSlots.contains slot)

/-- Does a node only push a value? -/
def isPurePush (s : CodeStream) (id : Nat) : Bool := (s.instruction? id).any (·.isPurePush)

/-- The store to a slot that no read follows. -/
def candidate? (s : CodeStream) (slot : Nat) : Option Candidate :=
  match s.ids.reverse.find? fun id => storedSlot? s id = some slot || reads s slot id with
  | some id =>
      if reads s slot id then
        none
      else
        some { slot, store := id, producer := (s.prev? id).filter (isPurePush s) }
  | none => none

/-- The stores that no read follows, in the order of their slots. -/
def candidates (s : CodeStream) : List Candidate :=
  ((s.ids.filterMap (storedSlot? s)).eraseDups.mergeSort).filterMap (candidate? s)

/-- The positions at which a slot is read. -/
def readPositions (s : CodeStream) (slot : Nat) : List Nat :=
  (s.ids.filter (reads s slot)).map s.position

/-- The instruction that discards a value of a kind. -/
def discard (kind : LocalKind) : Instruction Nat :=
  .verbatim (if kind.slots = 2 then Opcode.pop2 else Opcode.pop) []

/-- Take out a dead store. -/
def removeStore (c : Candidate) : Step Unit := do
  let s ← get
  match s.stream.instruction? c.store, c.producer, s.stream.isTargeted c.store with
  | some (.store ..), some producer, false =>
      delete producer
      delete c.store
      count fun n => { n with removed := n.removed + 1 }
  | some (.store kind _), _, _ =>
      set { s with stream := s.stream.replace c.store (discard kind) }
      count fun n => { n with popped := n.popped + 1 }
  | _, _, _ => return

/-- Take out the dead stores among the candidates of `before`, the stream at
the start of the round. -/
def sweep (before : CodeStream) (loops : List LoopExtent) : Step Unit :=
  (candidates before).forM fun c => do
    let s ← get
    let here := s.stream.position c.store
    let back := reentry s.stream loops here
    if (readPositions before c.slot).any fun p => back ≤ p && p < here then
      return
    removeStore c

/-! ### Discarded pushes -/

/-- The number of slots that a node discards. -/
def discardedSlots? (s : CodeStream) (id : Nat) : Option Nat :=
  match s.instruction? id with
  | some (.verbatim Opcode.pop _) => some 1
  | some (.verbatim Opcode.pop2 _) => some 2
  | _ => none

/-- The push right in front of a discard of what it pushes. -/
def discardedPush? (s : CodeStream) (id : Nat) : Option Nat := do
  let slots ← discardedSlots? s id
  let push ← s.prev? id
  let pushed ← (← s.instruction? push).pushedSlots?
  if pushed = slots ∧ !s.isTargeted id then some push else none

/-- Take out a push and its discard if both are still there. -/
def removePair (push discard : Nat) : Step Unit := do
  let s ← get
  if s.stream.isLive push ∧ s.stream.isLive discard then
    delete push
    delete discard
    count fun n => { n with pairs := n.pairs + 1 }

/-- Take out all pushes that are discarded at once. -/
def removePairs : Step Unit := do
  let s := (← get).stream
  let pairs := s.ids.filterMap fun id => (discardedPush? s id).map fun push => (push, id)
  pairs.forM fun (push, id) => removePair push id

/-! ### Rounds -/

/-- One round. -/
def round : Step Unit := do
  modify fun s => { s with
    stream := s.stream.renumber, stats.rounds := s.stats.rounds + 1 }
  let s := (← get).stream
  sweep s s.loops
  removePairs

/-- Rounds until one changes nothing, at most `limit` of them. -/
def rounds : (limit : Nat) → Step Unit
  | 0 => return
  | limit + 1 => do
      let before := (← get).stats.changes
      round
      if (← get).stats.changes ≠ before then
        rounds limit

end JvmOptimizer.DeadStore

namespace JvmOptimizer

/-- Remove the dead stores of a stream, in at most `limit` rounds. The stream is
renumbered; after an error it is left as it was at that point. -/
def CodeStream.removeDeadStores (s : CodeStream) (limit : Nat) :
    Except OptimizeError DeadStore.Stats × CodeStream :=
  match DeadStore.rounds limit { stream := s } with
  | (.ok _, final) => (.ok final.stats, final.stream.renumber)
  | (.error e, final) => (.error e, final.stream)

end JvmOptimizer
