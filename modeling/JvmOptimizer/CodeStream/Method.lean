import JvmOptimizer.CodeStream.Edit

/-!
# Methods as code streams

A method becomes a stream by giving every instruction a node, and a stream
becomes a method again by counting its live nodes. Both directions fail on a
reference that leads nowhere; a stream that was only ever edited by deletions
has none.
-/

namespace JvmOptimizer.CodeStream

/-- The node range of a handler in a method of `length` instructions. -/
def rangeOf (length : Nat) (h : Handler) : Except DanglingTarget HandlerRange :=
  if h.start < length ∧ h.entry < length then
    .ok ⟨h.start, if h.stop < length then some h.stop else none, h.entry, h.catchType⟩
  else
    .error ⟨h.entry⟩

/-- The stream of a method. -/
def ofMethod (m : Method) : Except DanglingTarget CodeStream := do
  let length := m.code.length
  let nodes ← m.code.zipIdx.mapM fun (insn, id) =>
    if insn.targets.all (· < length) then
      .ok { instruction := insn, position := id, live := true }
    else
      .error ⟨id⟩
  let handlers ← m.handlers.mapM (rangeOf length)
  return { nodes := nodes.toArray, handlers }

variable (s : CodeStream)

/-- The place of each live node among the live nodes, by name. -/
def places : Array (Option Nat) :=
  (s.nodes.foldl (fun (places, count) node =>
    if node.live then (places.push (some count), count + 1) else (places.push none, count))
    ((#[] : Array (Option Nat)), 0)).1

/-- The place of a live node, looked up. -/
def placeIn (places : Array (Option Nat)) (id : Nat) : Except DanglingTarget Nat :=
  match places[id]?.join with
  | some n => .ok n
  | none => .error ⟨id⟩

/-- The handler of a range in a method of `length` instructions, or none if the
range is empty. -/
def handlerIn (places : Array (Option Nat)) (length : Nat) (r : HandlerRange) :
    Except DanglingTarget (List Handler) := do
  let start ← placeIn places r.start
  let stop ← match r.stop with
    | some id => placeIn places id
    | none => pure length
  if start < stop then
    return [{ start, stop, entry := ← placeIn places r.entry, catchType := r.catchType }]
  else
    return []

/-- The method of a stream, with the limits of `template`. Handlers whose range
is empty are left out. -/
def toMethod (template : Method) : Except DanglingTarget Method := do
  let places := s.places
  let live := s.ids
  let code ← (live.filterMap s.instruction?).mapM (·.mapTargetsM (placeIn places))
  let handlers ← s.handlers.mapM (handlerIn places live.length)
  return { template with code, handlers := handlers.flatten }

end JvmOptimizer.CodeStream
