import JvmOptimizer.Proofs.CodeStream.Adjacent
import JvmOptimizer.Proofs.CodeStream.Reached

/-!
# Streams with stored neighbours

A code stream finds the nodes beside a node by passing over dead ones. Here they
are stored: each node keeps the names of the live nodes in front of it and
behind it, and the stream keeps those of its ends and the number of its live
nodes. An edit follows the stored names, changes a few of them and looks at no
dead node.

The stored names always say what the nodes say (`Agrees`): adding a node links
it behind the last one, and taking out a node mends the links around it.
-/

namespace JvmOptimizer

/-- The nodes beside a live node. A dead node has none. -/
structure Link where
  prev : Option Nat
  next : Option Nat

/-- A code stream with its order stored. -/
structure LinkedStream where
  stream : CodeStream
  /-- The neighbours of all nodes, by name. -/
  links : Array Link
  /-- The first live node. -/
  head : Option Nat
  /-- The last live node. -/
  tail : Option Nat
  /-- Number of live nodes. -/
  count : Nat

/-- Steps that edit a linked stream and may fail. -/
abbrev Linking := ExceptT DanglingTarget (StateM LinkedStream)

namespace LinkedStream

open CodeStream (Edit)

section Definitions

variable (a : LinkedStream)

/-- The stored node behind a node. -/
def next (id : Nat) : Option Nat := a.links[id]?.bind (·.next)

/-- The stored node in front of a node. -/
def prev (id : Nat) : Option Nat := a.links[id]?.bind (·.prev)

/-- Let a node, or the head, lead on to `next`. -/
def setNext (place next : Option Nat) : LinkedStream :=
  match place with
  | some id => { a with links := a.links.modify id fun link => { link with next } }
  | none => { a with head := next }

/-- Let a node, or the tail, lead back to `prev`. -/
def setPrev (place prev : Option Nat) : LinkedStream :=
  match place with
  | some id => { a with links := a.links.modify id fun link => { link with prev } }
  | none => { a with tail := prev }

/-- The stream with a node behind its last. -/
def push (node : Node) : LinkedStream :=
  let longer : LinkedStream := { a with
    stream := a.stream.push node
    links := a.links.push ⟨a.tail, none⟩
    count := a.count + 1 }
  { longer.setNext a.tail (some a.links.size) with tail := some a.links.size }

/-- The linked stream of a method. -/
def ofMethod (m : Method) : Except DanglingTarget LinkedStream := do
  let s ← CodeStream.ofMethod m
  return s.nodes.toList.foldl push ⟨{ s with nodes := #[] }, #[], none, none, 0⟩

/-- The stream without a node: what is in front of it leads to what is behind
it. -/
def unlink (id : Nat) : LinkedStream :=
  let mended := (a.setNext (a.prev id) (a.next id)).setPrev (a.next id) (a.prev id)
  { mended with
    stream := mended.stream.unlink id
    links := mended.links.modify id fun _ => ⟨none, none⟩
    count := mended.count - 1 }

/-- At most `bound` nodes from a node on, each the next of the one before. -/
def follow : (bound : Nat) → Option Nat → List Nat
  | bound + 1, some id => id :: follow bound (a.next id)
  | _, _ => []

/-- The nodes from the head on. -/
def ids : List Nat := a.follow a.links.size a.head

/-- At most `bound` nodes from a live node on, up to `last`. -/
def runTo (last : Nat) : (bound : Nat) → Option Nat → List Nat
  | bound + 1, some id =>
      if !a.stream.isLive id then
        []
      else if id = last then
        [id]
      else
        id :: runTo last bound (a.next id)
  | _, _ => []

/-- Does a handler start at the node, or another node name it? -/
def isTargeted (id : Nat) : Bool :=
  a.stream.isHandlerEntry id ||
    a.ids.any fun other => other ≠ id ∧ id ∈ a.stream.targets other

/-- The first reference from outside into a run. -/
def referenceInto? (run : List Nat) : Option Nat :=
  let targets := (a.ids.filter (· ∉ run)).flatMap a.stream.targets
  (targets ++ a.stream.handlers.map (·.entry)).find? (· ∈ run)

/-- The nodes with the position of one of them set. -/
def setPosition (nodes : Array Node) (p : Nat × Nat) : Array Node :=
  nodes.modify p.1 fun node => { node with position := p.2 }

/-- The stream with the nodes counted from the head on. -/
def renumber : LinkedStream :=
  { a with stream.nodes := a.ids.zipIdx.foldl setPosition a.stream.nodes }

end Definitions

/-- Delete a node. -/
def deleteOne (id : Nat) : Linking Unit := do
  let a ← get
  if a.stream.isLive id then
    match a.next id with
    | some successor => modify fun a => { a with stream := a.stream.redirect id successor }
    | none =>
        if a.isTargeted id then
          throw ⟨id⟩
        modify fun a => { a with stream.handlers := a.stream.handlersWithoutLast id }
    modify (unlink · id)

/-- Delete the nodes from `first` to `last`, and say how many they were. -/
def deleteRange (first last : Nat) : Linking Nat := do
  let a ← get
  let run := a.runTo last a.links.size (some first)
  if run.getLast? ≠ some last then
    throw ⟨first⟩
  if let some node := a.referenceInto? run then
    throw ⟨node⟩
  modify fun a => { a with stream.handlers := a.stream.handlersWithout run (a.next last) }
  modify fun a => run.foldl unlink a
  return run.length

/-- Make an edit. -/
def edit : Edit → Linking Unit
  | .deleteOne id => deleteOne id
  | .deleteRange first last => do let _ ← deleteRange first last
  | .renumber => modify renumber
  | .replace id insn => modify fun a => { a with stream := a.stream.replace id insn }

/-! ### What the links say -/

variable {a : LinkedStream} {n t id : Nat}

/-- The stored names say what the nodes say. -/
structure Agrees (a : LinkedStream) : Prop where
  size : a.links.size = a.stream.nodes.size
  head : ∀ n, a.head = some n ↔ a.stream.IsFirst n
  tail : ∀ n, a.tail = some n ↔ a.stream.IsLast n
  next : ∀ n t, a.next n = some t ↔ a.stream.Adjacent n t
  prev : ∀ n t, a.prev t = some n ↔ a.stream.Adjacent n t
  count : a.count = a.stream.length

/-- Only who is live counts for the links. -/
theorem Agrees.congr {s : CodeStream} (h : a.Agrees) (hsize : s.nodes.size = a.stream.nodes.size)
    (hlive : ∀ n, s.isLive n = a.stream.isLive n) : Agrees { a with stream := s } where
  size := h.size.trans hsize.symm
  head n := (h.head n).trans (by simp only [CodeStream.IsFirst, CodeStream.Clear, hlive])
  tail n := (h.tail n).trans (by simp only [CodeStream.IsLast, CodeStream.Clear, hlive, hsize])
  next n t := (h.next n t).trans (by simp only [CodeStream.Adjacent, CodeStream.Clear, hlive])
  prev n t := (h.prev n t).trans (by simp only [CodeStream.Adjacent, CodeStream.Clear, hlive])
  count := by
    rw [CodeStream.length, CodeStream.ids_congr hsize hlive]
    exact h.count

section SetLinks

variable {place link : Option Nat}

@[simp]
theorem stream_setNext : (a.setNext place link).stream = a.stream := by cases place <;> rfl

@[simp]
theorem stream_setPrev : (a.setPrev place link).stream = a.stream := by cases place <;> rfl

@[simp]
theorem size_setNext : (a.setNext place link).links.size = a.links.size := by
  cases place <;> simp [setNext]

@[simp]
theorem size_setPrev : (a.setPrev place link).links.size = a.links.size := by
  cases place <;> simp [setPrev]

@[simp]
theorem count_setNext : (a.setNext place link).count = a.count := by cases place <;> rfl

@[simp]
theorem count_setPrev : (a.setPrev place link).count = a.count := by cases place <;> rfl

@[simp]
theorem tail_setNext : (a.setNext place link).tail = a.tail := by cases place <;> rfl

@[simp]
theorem head_setPrev : (a.setPrev place link).head = a.head := by cases place <;> rfl

theorem head_setNext : (a.setNext place link).head = if place = none then link else a.head := by
  cases place <;> rfl

theorem tail_setPrev : (a.setPrev place link).tail = if place = none then link else a.tail := by
  cases place <;> rfl

@[simp]
theorem prev_setNext : (a.setNext place link).prev n = a.prev n := by
  cases place with
  | none => rfl
  | some id =>
      simp only [prev, setNext, Array.getElem?_modify]
      split
      · cases a.links[n]? <;> rfl
      · rfl

@[simp]
theorem next_setPrev : (a.setPrev place link).next n = a.next n := by
  cases place with
  | none => rfl
  | some id =>
      simp only [next, setPrev, Array.getElem?_modify]
      split
      · cases a.links[n]? <;> rfl
      · rfl

theorem next_setNext (hn : n < a.links.size) :
    (a.setNext place link).next n = if place = some n then link else a.next n := by
  cases place with
  | none => rfl
  | some id => by_cases heq : id = n <;> simp [next, setNext, Array.getElem_modify, heq, hn]

theorem prev_setPrev (hn : n < a.links.size) :
    (a.setPrev place link).prev n = if place = some n then link else a.prev n := by
  cases place with
  | none => rfl
  | some id => by_cases heq : id = n <;> simp [prev, setPrev, Array.getElem_modify, heq, hn]

end SetLinks

theorem next_eq_none (h : a.links.size ≤ n) : a.next n = none := by simp [next, h]

theorem prev_eq_none (h : a.links.size ≤ n) : a.prev n = none := by simp [prev, h]

section Unlink

theorem size_unlink : (a.unlink id).links.size = a.links.size := by simp [unlink]

theorem stream_unlink : (a.unlink id).stream = a.stream.unlink id := by simp [unlink]

/-- The forward links after an unlinking: the node that goes loses its own, and
the one in front of it takes that over. -/
theorem next_unlink (hn : n < a.links.size) : (a.unlink id).next n =
    if n = id then none else if a.prev id = some n then a.next id else a.next n := by
  have hmended : (a.unlink id).next n = if n = id then none else
      ((a.setNext (a.prev id) (a.next id)).setPrev (a.next id) (a.prev id)).next n := by
    by_cases heq : id = n
    · simp [next, unlink, Array.getElem_modify, heq, hn]
    · simp [next, unlink, Array.getElem?_modify, heq, Ne.symm heq]
  rw [hmended, next_setPrev, next_setNext hn]

/-- The backward links after an unlinking, the mirror image of `next_unlink`. -/
theorem prev_unlink (hn : n < a.links.size) : (a.unlink id).prev n =
    if n = id then none else if a.next id = some n then a.prev id else a.prev n := by
  have hmended : (a.unlink id).prev n = if n = id then none else
      ((a.setNext (a.prev id) (a.next id)).setPrev (a.next id) (a.prev id)).prev n := by
    by_cases heq : id = n
    · simp [prev, unlink, Array.getElem_modify, heq, hn]
    · simp [prev, unlink, Array.getElem?_modify, heq, Ne.symm heq]
  rw [hmended, prev_setPrev (by simpa using hn), prev_setNext]

section

variable (h : a.Agrees) (hid : a.stream.isLive id)

include h hid

/-- The head after an unlinking is the first node that is left. It moves only
where the node that goes had no predecessor. -/
theorem head_unlink_eq_some_iff :
    (a.unlink id).head = some n ↔ (a.stream.unlink id).IsFirst n := by
  have hhead : (a.unlink id).head = if a.prev id = none then a.next id else a.head := by
    simp [unlink, head_setNext]
  rw [CodeStream.isFirst_unlink hid, hhead]
  cases hp : a.prev id with
  | none =>
      -- No link back: the node that goes is the head itself.
      have hfirst : a.stream.IsFirst id := by
        refine CodeStream.isFirst_iff.2 ⟨hid, Option.eq_none_iff_forall_ne_some.2 fun k hk => ?_⟩
        rw [CodeStream.prev?_eq_some_iff_adjacent, ← h.prev, hp] at hk
        cases hk
      rw [if_pos rfl, h.next]
      constructor
      · exact fun hn => .inr ⟨hfirst, hn⟩
      · rintro (⟨hn, hne⟩ | ⟨-, hn⟩)
        · exact absurd (hn.eq hfirst) hne
        · exact hn
  | some p =>
      -- A node in front of it is live, so the head is another node and stays.
      have hadj := (h.prev p id).1 hp
      have hnot : ¬ a.stream.IsFirst id :=
        fun hfirst => hfirst.2 p (Nat.zero_le p) hadj.2.2.1 hadj.1
      rw [if_neg (Option.some_ne_none p), h.head]
      constructor
      · exact fun hn => .inl ⟨hn, fun heq => hnot (heq ▸ hn)⟩
      · rintro (⟨hn, -⟩ | ⟨hfirst, -⟩)
        · exact hn
        · exact absurd hfirst hnot

/-- The tail after an unlinking is the last node that is left. -/
theorem tail_unlink_eq_some_iff :
    (a.unlink id).tail = some n ↔ (a.stream.unlink id).IsLast n := by
  have htail : (a.unlink id).tail = if a.next id = none then a.prev id else a.tail := by
    simp [unlink, tail_setPrev]
  rw [CodeStream.isLast_unlink hid, htail]
  cases hp : a.next id with
  | none =>
      -- No link forward: the node that goes is the tail itself.
      have hlast : a.stream.IsLast id := by
        refine CodeStream.isLast_iff.2 ⟨hid, Option.eq_none_iff_forall_ne_some.2 fun k hk => ?_⟩
        rw [CodeStream.next?_eq_some_iff_adjacent, ← h.next, hp] at hk
        cases hk
      rw [if_pos rfl, h.prev]
      constructor
      · exact fun hn => .inr ⟨hlast, hn⟩
      · rintro (⟨hn, hne⟩ | ⟨-, hn⟩)
        · exact absurd (hn.eq hlast) hne
        · exact hn
  | some p =>
      -- A node behind it is live, so the tail is another node and stays.
      have hadj := (h.next id p).1 hp
      have hnot : ¬ a.stream.IsLast id :=
        fun hlast => hlast.2 p hadj.2.2.1 (CodeStream.lt_size_of_isLive hadj.2.1) hadj.2.1
      rw [if_neg (Option.some_ne_none p), h.tail]
      constructor
      · exact fun hn => .inl ⟨hn, fun heq => hnot (heq ▸ hn)⟩
      · rintro (⟨hn, -⟩ | ⟨hlast, -⟩)
        · exact hn
        · exact absurd hlast hnot

/-- The forward links after an unlinking join the neighbours in what is left. -/
theorem next_unlink_eq_some_iff :
    (a.unlink id).next n = some t ↔ (a.stream.unlink id).Adjacent n t := by
  rw [CodeStream.adjacent_unlink hid]
  by_cases hn : n < a.links.size
  case neg =>
    -- Past the end there is no link and no neighbour.
    have hdead : ∀ t, ¬ a.stream.Adjacent n t :=
      fun t hadj => hn (h.size ▸ CodeStream.lt_size_of_isLive hadj.1)
    simp [next_eq_none (size_unlink ▸ Nat.le_of_not_lt hn), hdead]
  rw [next_unlink hn]
  by_cases heq : n = id
  · subst heq
    simp [CodeStream.Adjacent.irrefl]
  rw [if_neg heq]
  split
  · rename_i hp
    -- `n` stood in front of the node that goes, whose link it takes over.
    have hadj := (h.prev n id).1 hp
    rw [h.next]
    constructor
    · exact fun ht => .inr ⟨hadj, ht⟩
    · rintro (⟨ht, -, hte⟩ | ⟨-, ht⟩)
      · exact absurd (ht.eq_of_right hadj) hte
      · exact ht
  · rename_i hp
    -- `n` is no neighbour of it and keeps its link.
    rw [h.prev] at hp
    rw [h.next]
    constructor
    · exact fun ht => .inl ⟨ht, heq, fun hte => hp (hte ▸ ht)⟩
    · rintro (⟨ht, -⟩ | ⟨hadj, -⟩)
      · exact ht
      · exact absurd hadj hp

/-- The backward links after an unlinking join the neighbours in what is left. -/
theorem prev_unlink_eq_some_iff :
    (a.unlink id).prev t = some n ↔ (a.stream.unlink id).Adjacent n t := by
  rw [CodeStream.adjacent_unlink hid]
  by_cases ht : t < a.links.size
  case neg =>
    -- Past the end there is no link and no neighbour.
    have hdead : ∀ n, ¬ a.stream.Adjacent n t :=
      fun n hadj => ht (h.size ▸ CodeStream.lt_size_of_isLive hadj.2.1)
    simp [prev_eq_none (size_unlink ▸ Nat.le_of_not_lt ht), hdead]
  rw [prev_unlink ht]
  by_cases heq : t = id
  · subst heq
    simp [CodeStream.Adjacent.irrefl]
  rw [if_neg heq]
  split
  · rename_i hp
    -- `t` stood behind the node that goes, whose link it takes over.
    have hadj := (h.next id t).1 hp
    rw [h.prev]
    constructor
    · exact fun hn => .inr ⟨hn, hadj⟩
    · rintro (⟨hn, hne, -⟩ | ⟨hn, -⟩)
      · exact absurd (hn.eq_of_left hadj) hne
      · exact hn
  · rename_i hp
    -- `t` is no neighbour of it and keeps its link.
    rw [h.next] at hp
    rw [h.prev]
    constructor
    · exact fun hn => .inl ⟨hn, fun hne => hp (hne ▸ hn), heq⟩
    · rintro (⟨hn, -⟩ | ⟨-, hadj⟩)
      · exact hn
      · exact absurd hadj hp

/-- **Taking out a node.** The links around a live node are mended. -/
theorem Agrees.unlink : (a.unlink id).Agrees where
  size := by rw [size_unlink, stream_unlink, CodeStream.size_unlink, h.size]
  head _ := stream_unlink ▸ head_unlink_eq_some_iff h hid
  tail _ := stream_unlink ▸ tail_unlink_eq_some_iff h hid
  next _ _ := stream_unlink ▸ next_unlink_eq_some_iff h hid
  prev _ _ := stream_unlink ▸ prev_unlink_eq_some_iff h hid
  count := by
    rw [stream_unlink, CodeStream.length_unlink hid, ← h.count]
    simp [LinkedStream.unlink]

end

end Unlink

section Push

variable {node : Node}

theorem stream_push : (a.push node).stream = a.stream.push node := by simp [push]

theorem size_push : (a.push node).links.size = a.links.size + 1 := by simp [push]

/-- A new node is linked to the old tail, and to nothing behind it. -/
theorem next_push : (a.push node).next n =
    if n ≤ a.links.size ∧ a.tail = some n then some a.links.size else a.next n := by
  by_cases hn : n ≤ a.links.size
  · have hold : (a.links.push ⟨a.tail, none⟩)[n]?.bind (·.next) = a.next n := by
      rw [Array.getElem?_push]
      split
      · rename_i heq
        rw [next_eq_none heq.ge]
        rfl
      · rfl
    have hlt : n < (a.links.push ⟨a.tail, none⟩).size := by
      rw [Array.size_push]
      omega
    simp only [hn, true_and]
    rw [← hold]
    exact next_setNext hlt
  · have hle : (a.push node).links.size ≤ n := by
      rw [size_push]
      omega
    rw [if_neg fun h => hn h.1, next_eq_none hle, next_eq_none (by omega)]

theorem prev_push : (a.push node).prev n = if n = a.links.size then a.tail else a.prev n := by
  have hset : (a.push node).prev n = (a.links.push ⟨a.tail, none⟩)[n]?.bind (·.prev) := prev_setNext
  rw [hset, Array.getElem?_push]
  split <;> rfl

/-- **Adding a node.** A live node is linked behind the last one. -/
theorem Agrees.push (h : a.Agrees) (hlive : node.live) : (a.push node).Agrees where
  size := by rw [size_push, stream_push, CodeStream.size_push, h.size]
  head n := by
    rw [stream_push, CodeStream.isFirst_push hlive, ← h.head]
    have hhead : (a.push node).head = if a.tail = none then some a.links.size else a.head :=
      head_setNext
    -- The head moves only where there was no live node at all.
    have hnone : a.tail = none ↔ a.stream.Clear 0 a.stream.nodes.size := by
      rw [← CodeStream.lastBefore_eq_none_iff]
      simp only [Option.eq_none_iff_forall_ne_some, ne_eq, h.tail,
        CodeStream.lastBefore_size_eq_some_iff]
    rw [hhead, h.size]
    split
    · rename_i ht
      rw [hnone] at ht
      have hfirst : a.head ≠ some n := fun hh =>
        ht n (Nat.zero_le n) (CodeStream.lt_size_of_isLive ((h.head n).1 hh).1) ((h.head n).1 hh).1
      simp [ht, hfirst, eq_comm]
    · rename_i ht
      rw [hnone] at ht
      simp [ht]
  tail n := by
    rw [stream_push, CodeStream.isLast_push hlive, ← h.size]
    exact (Option.some_inj).trans eq_comm
  next n t := by
    rw [stream_push, CodeStream.adjacent_push hlive, ← h.next, ← h.tail, next_push, ← h.size]
    by_cases ht : a.tail = some n
    -- The old tail had no link forward, and gets one to the new node.
    · have hlast := (h.tail n).1 ht
      have hlt := h.size ▸ CodeStream.lt_size_of_isLive hlast.1
      have hnone : a.next n ≠ some t := fun hn => hlast.2 t ((h.next n t).1 hn).2.2.1
        (CodeStream.lt_size_of_isLive ((h.next n t).1 hn).2.1) ((h.next n t).1 hn).2.1
      simp [ht, hlt.le, hnone, eq_comm]
    · simp [ht]
  prev n t := by
    rw [stream_push, CodeStream.adjacent_push hlive, ← h.prev, ← h.tail, prev_push, ← h.size]
    by_cases ht : t = a.links.size
    · have hnone : a.prev t = none := prev_eq_none ht.ge
      rw [if_pos ht, hnone]
      simp [ht]
    · simp [ht]
  count := by
    have hcount : (a.push node).count = a.count + 1 := count_setNext
    rw [hcount, h.count, stream_push, CodeStream.length_push hlive]

end Push

/-- A list of live nodes is linked one by one, so the representation of a whole
body is good. -/
theorem agrees_foldl_push {nodes : List Node} (h : a.Agrees) (hlive : ∀ node ∈ nodes, node.live) :
    (nodes.foldl push a).Agrees ∧
      (nodes.foldl push a).stream = nodes.foldl CodeStream.push a.stream := by
  induction nodes generalizing a with
  | nil => exact ⟨h, rfl⟩
  | cons node nodes ih =>
      rw [List.forall_mem_cons] at hlive
      rw [List.foldl_cons, List.foldl_cons, ← stream_push]
      exact ih (h.push hlive.1) hlive.2

/-- The linked stream of a method has the nodes and handlers of its stream, and
its links say so. -/
theorem ofMethod_eq_ok {m : Method} (h : ofMethod m = .ok a) :
    CodeStream.ofMethod m = .ok a.stream ∧ a.Agrees := by
  obtain ⟨s, hs, h⟩ := Except.bind_eq_ok.1 h
  cases h
  obtain ⟨-, rfl⟩ := CodeStream.ofMethod_eq_ok_iff.1 hs
  have hempty : Agrees ⟨{ CodeStream.whole m with nodes := #[] }, #[], none, none, 0⟩ := by
    have hdead : ∀ n, ¬ CodeStream.isLive { CodeStream.whole m with nodes := #[] } n := by
      simp [CodeStream.isLive]
    exact ⟨rfl, by simp [CodeStream.IsFirst, hdead], by simp [CodeStream.IsLast, hdead],
      by simp [next, CodeStream.Adjacent, hdead], by simp [prev, CodeStream.Adjacent, hdead], rfl⟩
  have hlive : ∀ node ∈ (CodeStream.whole m).nodes.toList, node.live := by
    intro node hnode
    obtain ⟨p, -, rfl⟩ := List.mem_map.1 hnode
    rfl
  obtain ⟨hagrees, hstream⟩ := agrees_foldl_push hempty hlive
  refine ⟨?_, hagrees⟩
  rw [hstream, CodeStream.foldl_push, hs]
  simp

end LinkedStream

end JvmOptimizer
