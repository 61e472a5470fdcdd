import JvmOptimizer.Method

/-!
# Code streams

The optimizer edits a method as a stream of nodes. Each instruction of the
method becomes a node, and the node is named by the position that the
instruction had, for good: a natural number `id`, which targets and handlers
refer to. A deleted node stays where it is and is no longer `live`. Deletion is
the only change of shape, so the stream order is the order of names, and
following the stream means passing over dead nodes.

A node also has a `position`. Positions are counted along the stream by
`renumber` and then left alone, so that a pass can compare places in the stream
it started from while it edits.
-/

namespace JvmOptimizer

/-- A node of a code stream. -/
structure Node where
  /-- The instruction, with nodes as targets. -/
  instruction : Instruction Nat
  /-- Place in the stream at the last renumbering. -/
  position : Nat
  /-- Is the node still part of the stream? -/
  live : Bool

/-- An exception handler over nodes. -/
structure HandlerRange where
  /-- First protected node. -/
  start : Nat
  /-- First node behind the protected ones; none at the end of the method. -/
  stop : Option Nat
  /-- Where a caught exception continues. -/
  entry : Nat
  /-- Pool index of the caught class, zero for all. -/
  catchType : UInt16
  deriving DecidableEq

/-- A method under optimization. -/
structure CodeStream where
  /-- All nodes ever, by name. -/
  nodes : Array Node
  /-- The handlers, in the order in which they are tried. -/
  handlers : List HandlerRange

namespace CodeStream

variable (s : CodeStream)

/-! ### Nodes -/

/-- Is the node part of the stream? -/
def isLive (id : Nat) : Bool := (s.nodes[id]?.map (·.live)).getD false

/-- The instruction of a node, live or dead. -/
def instruction? (id : Nat) : Option (Instruction Nat) :=
  s.nodes[id]?.map (·.instruction)

/-- The position of a node, live or dead. -/
def position (id : Nat) : Nat := (s.nodes[id]?.map (·.position)).getD 0

/-- The targets of a node. -/
def targets (id : Nat) : List Nat := ((s.instruction? id).map (·.targets)).getD []

/-- The live nodes in stream order. -/
def ids : List Nat := (List.range s.nodes.size).filter s.isLive

/-- Number of live nodes. -/
def length : Nat := s.ids.length

/-! ### Neighbours -/

/-- The first live node from `id` on. -/
def firstFrom (id : Nat) : Option Nat :=
  if _h : id < s.nodes.size then
    if s.isLive id then some id else firstFrom (id + 1)
  else
    none
termination_by s.nodes.size - id

/-- The last live node before `id`. -/
def lastBefore : (id : Nat) → Option Nat
  | 0 => none
  | id + 1 => if s.isLive id then some id else lastBefore id

/-- The node behind a live node. A dead node has no neighbours. -/
def next? (id : Nat) : Option Nat :=
  if s.isLive id then s.firstFrom (id + 1) else none

/-- The node in front of a live node. -/
def prev? (id : Nat) : Option Nat :=
  if s.isLive id then s.lastBefore id else none

/-- The nodes from `id` on, in stream order. A dead node stands alone. -/
def following (id : Nat) : List Nat :=
  if s.isLive id then s.ids.dropWhile (· < id) else [id]

/-! ### References -/

/-- The other live nodes that may transfer control to a node. -/
def targeters (id : Nat) : List Nat :=
  s.ids.filter fun other => other ≠ id ∧ id ∈ s.targets other

/-- Does an exception handler start at the node? -/
def isHandlerEntry (id : Nat) : Bool := s.handlers.any fun h => h.entry = id

/-- Can control come to the node from elsewhere than the node in front of
it? -/
def isTargeted (id : Nat) : Bool := s.isHandlerEntry id || !(s.targeters id).isEmpty

/-- Is the second node behind the first? -/
def isForward (source target : Nat) : Bool := s.position source < s.position target

/-! ### Renumbering and replacing -/

/-- Nodes with the live ones counted from `n` on. -/
def numberFrom (n : Nat) : List Node → List Node
  | [] => []
  | node :: rest =>
      if node.live then
        { node with position := n } :: numberFrom (n + 1) rest
      else
        node :: numberFrom n rest

/-- The stream with positions counted anew. -/
def renumber : CodeStream :=
  { s with nodes := (numberFrom 0 s.nodes.toList).toArray }

/-- The stream with another instruction at a node. -/
def replace (id : Nat) (insn : Instruction Nat) : CodeStream :=
  { s with nodes := s.nodes.modify id fun node => { node with instruction := insn } }

end CodeStream

end JvmOptimizer
