import JvmOptimizer.CodeStream.Basic

/-!
# Loops

A loop is a backward transfer of control. Its extent reaches from the target up
to, not including, the node that transfers, in stream positions. Extents may
nest or overlap in any way, so whoever asks about a node looks at all of them.

The extents of a stream are collected once. A pass that edits the stream keeps
asking with the extents of the stream it started from: positions do not move
while it edits, and neither do the extents.
-/

namespace JvmOptimizer

/-- One loop. -/
structure LoopExtent where
  /-- Target of the backward transfer. -/
  head : Nat
  /-- The node that transfers control backward. -/
  tail : Nat
  /-- Position of the head. -/
  first : Nat
  /-- Position of the tail, which is the first one outside the extent. -/
  last : Nat
  deriving DecidableEq

namespace LoopExtent

/-- Does a position lie in the extent? -/
def contains (e : LoopExtent) (position : Nat) : Bool :=
  e.first ≤ position && position < e.last

/-- Number of positions in the extent. -/
def span (e : LoopExtent) : Nat := e.last - e.first

/-- Inner extents come first: the shorter, and of two equal ones the later. -/
def isInner (a b : LoopExtent) : Bool :=
  a.span < b.span || (a.span == b.span && b.first ≤ a.first)

end LoopExtent

namespace Instruction

variable {τ : Type}

/-- The local slots that an instruction writes. -/
def writtenSlots : Instruction τ → List Nat
  | store kind index => List.range' index.toNat kind.slots
  | increment index _ => [index.toNat]
  | _ => []

/-- The local slots that an instruction reads. -/
def readSlots : Instruction τ → List Nat
  | load kind index => List.range' index.toNat kind.slots
  | increment index _ => [index.toNat]
  | _ => []

end Instruction

namespace CodeStream

variable (s : CodeStream)

/-- The loops whose tail is a node. -/
def loopsAt (tail : Nat) : List LoopExtent :=
  let last := s.position tail
  let heads := (s.targets tail).eraseDups.filter fun head => s.position head ≤ last
  heads.map fun head => { head, tail, first := s.position head, last }

/-- The loops of a stream, in the order of their tails. -/
def loops : List LoopExtent := s.ids.flatMap s.loopsAt

/-- The local slots that a node writes. -/
def writtenSlots (id : Nat) : List Nat :=
  ((s.instruction? id).map (·.writtenSlots)).getD []

/-- The local slots written in an extent. The stream is followed from the head
as it is now, until it leaves the extent. -/
def changedIn (e : LoopExtent) : List Nat :=
  ((s.following e.head).takeWhile fun id => id ≠ e.tail ∧ s.position id < e.last).flatMap
    s.writtenSlots

end CodeStream

namespace Loops

variable (loops : List LoopExtent) (s : CodeStream)

/-- The extents that contain a node, inner ones first. -/
def enclosing (id : Nat) : List LoopExtent :=
  (loops.filter (·.contains (s.position id))).mergeSort LoopExtent.isInner

/-- The innermost extent that contains a node. -/
def innermost? (id : Nat) : Option LoopExtent := (enclosing loops s id).head?

/-- Does a node lie in an extent? -/
def isInside (id : Nat) : Bool := loops.any (·.contains (s.position id))

/-- Is a node the head of an extent? -/
def isHead (id : Nat) : Bool := loops.any (·.head == id)

/-- The local slots written in the extents with this head, in ascending
order. -/
def changedAtHead (id : Nat) : List Nat :=
  (((loops.filter (·.head == id)).flatMap s.changedIn).eraseDups).mergeSort

/-- May a local slot change between two visits of a node by the loops around
it? -/
def changesAround (id : Nat) (slot : Nat) : Bool :=
  loops.any fun e => e.contains (s.position id) && (s.changedIn e).contains slot

end Loops

end JvmOptimizer
