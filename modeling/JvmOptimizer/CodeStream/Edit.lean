import JvmOptimizer.CodeStream.Basic

/-!
# Deleting from a code stream

Two ways to delete, both of which leave every reference to a live node. A
single node hands whatever refers to it over to the node behind it. A run of
nodes can go only if nothing from outside leads into it, and just the bounds of
protected ranges move on to the node behind the run.

A deletion that would leave a reference without a node fails, and the stream
stays as it was.
-/

namespace JvmOptimizer

/-- A deletion would leave a reference to this node. -/
structure DanglingTarget where
  node : Nat
  deriving DecidableEq

/-- The text of a refused deletion. -/
def DanglingTarget.message (e : DanglingTarget) : String :=
  s!"Deleting node #{e.node} would leave a branch target dangling"

/-- Is the protected range not known to be empty? -/
def HandlerRange.isProper (h : HandlerRange) : Bool := h.stop ≠ some h.start

/-- The handler with every reference to `old` handed over to `new`. -/
def HandlerRange.redirect (old new : Nat) (h : HandlerRange) : HandlerRange :=
  let move := fun id => if id = old then new else id
  { h with start := move h.start, stop := h.stop.map move, entry := move h.entry }

namespace CodeStream

variable (s : CodeStream)

/-- The stream without a node. -/
def unlink (id : Nat) : CodeStream :=
  { s with nodes := s.nodes.modify id fun node => { node with live := false } }

/-- The stream with every reference to `old` from another live node or a
handler handed over to `new`. Ranges that become empty are dropped. -/
def redirect (old new : Nat) : CodeStream where
  nodes := s.nodes.mapIdx fun id node =>
    if node.live ∧ id ≠ old then
      { node with instruction := node.instruction.retarget old new }
    else
      node
  handlers := (s.handlers.map (HandlerRange.redirect old new)).filter HandlerRange.isProper

/-- The handlers when the last node of the stream goes: ranges that start there
go with it, and ranges up to it run to the end. -/
def handlersWithoutLast (id : Nat) : List HandlerRange :=
  (s.handlers.filter fun h => h.start ≠ id).map fun h =>
    if h.stop = some id then { h with stop := none } else h

/-- Delete a node. References to it go to the node behind it, so only the last
node of the stream cannot be deleted while something refers to it. -/
def deleteOne (id : Nat) : Except DanglingTarget CodeStream :=
  if !s.isLive id then
    .ok s
  else
    match s.next? id with
    | some successor => .ok ((s.redirect id successor).unlink id)
    | none =>
        if s.isTargeted id then
          .error ⟨id⟩
        else
          .ok ({ s with handlers := s.handlersWithoutLast id }.unlink id)

/-- The live nodes from `first` to `last`, or none if the stream does not lead
from one to the other. -/
def run? (first last : Nat) : Option (List Nat) :=
  if s.isLive first ∧ s.isLive last ∧ first ≤ last then
    some (s.ids.filter fun id => first ≤ id ∧ id ≤ last)
  else
    none

/-- The first reference from outside into a set of nodes: targets come before
handler entries. -/
def referenceInto? (members : List Nat) : Option Nat :=
  let targets := (s.ids.filter (· ∉ members)).flatMap s.targets
  (targets ++ s.handlers.map (·.entry)).find? (· ∈ members)

/-- The handlers when a run goes and `after` is the node behind it. -/
def handlersWithout (members : List Nat) (after : Option Nat) : List HandlerRange :=
  let moved := s.handlers.filterMap fun h =>
    let stop := if h.stop.any (· ∈ members) then after else h.stop
    if h.start ∈ members then
      after.map fun start => { h with start, stop }
    else
      some { h with stop }
  moved.filter HandlerRange.isProper

/-- Delete the nodes from `first` to `last`, and say how many they were. -/
def deleteRange (first last : Nat) : Except DanglingTarget (Nat × CodeStream) :=
  match s.run? first last with
  | none => .error ⟨first⟩
  | some members =>
      match s.referenceInto? members with
      | some node => .error ⟨node⟩
      | none =>
          let handlers := s.handlersWithout members (s.next? last)
          .ok (members.length, members.foldl unlink { s with handlers })

end CodeStream

end JvmOptimizer
