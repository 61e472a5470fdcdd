import JvmOptimizer.CodeStream.Method
import JvmOptimizer.Proofs.CodeStream.Thinning
import Mathlib.Data.List.Basic
import Mathlib.Data.List.Induction

/-!
# From a method to a stream and back

A method that names only its own instructions has a stream in which every node
is live, at its own position. A stream that names only live nodes has a method,
in which a node stands at its `rank`; whatever thins out a method is such a
stream, so there is always a way back.
-/

namespace JvmOptimizer

/-- Every target, every protected range and every handler of the method lies in
the method. -/
structure Method.IsClosed (m : Method) : Prop where
  target : ∀ {insn t}, insn ∈ m.code → t ∈ insn.targets → t < m.code.length
  handler : ∀ {h}, h ∈ m.handlers → h.start < m.code.length ∧ h.entry < m.code.length

/-- The handler with its places moved. -/
def Handler.move (place : Nat → Nat) (h : Handler) : Handler :=
  ⟨place h.start, place h.stop, place h.entry, h.catchType⟩

namespace CodeStream

variable {s : CodeStream} {m : Method} {n t k : Nat}

/-! ### The stream of a method -/

/-- The stream in which all instructions of a method are live. -/
def whole (m : Method) : CodeStream where
  nodes := (m.code.zipIdx.map fun p => ⟨p.1, p.2, true⟩).toArray
  handlers := m.handlers.map fun h =>
    ⟨h.start, if h.stop < m.code.length then some h.stop else none, h.entry, h.catchType⟩

@[simp]
theorem size_whole : (whole m).nodes.size = m.code.length := by simp [whole]

/-- A stream starts out with one live node for each instruction. -/
theorem getElem?_whole :
    (whole m).nodes[n]? = m.code[n]?.map fun insn => ⟨insn, n, true⟩ := by
  simp [whole, Function.comp_def]

theorem isLive_whole : (whole m).isLive n ↔ n < m.code.length := by
  rw [isLive, getElem?_whole]
  by_cases h : n < m.code.length <;> simp [h]

@[simp]
theorem instruction?_whole : (whole m).instruction? n = m.code[n]? := by
  rw [instruction?, getElem?_whole]
  cases m.code[n]? <;> rfl

theorem position_whole (h : n < m.code.length) : (whole m).position n = n := by
  rw [position, getElem?_whole]
  simp [h]

theorem ahead_whole (h : t ≤ m.code.length) : (whole m).ahead t = t := by
  rcases Nat.lt_or_eq_of_le h with hlt | rfl
  · exact ahead_of_isLive (isLive_whole.2 hlt)
  · rw [ahead_eq_size_of_le (by simp), size_whole]

theorem ids_whole : (whole m).ids = List.range m.code.length := by
  rw [ids, size_whole, List.filter_eq_self]
  intro n hn
  exact isLive_whole.2 (List.mem_range.1 hn)

/-- The node of an instruction that names instructions only. -/
def nodeOf (length : Nat) : Instruction Nat × Nat → Except DanglingTarget Node :=
  fun (insn, id) =>
    if insn.targets.all (· < length) then
      .ok { instruction := insn, position := id, live := true }
    else
      .error ⟨id⟩

/-- Making a stream, as two passes that can fail. -/
theorem ofMethod_eq (m : Method) : ofMethod m = (do
    let nodes ← m.code.zipIdx.mapM (nodeOf m.code.length)
    let handlers ← m.handlers.mapM (rangeOf m.code.length)
    return { nodes := nodes.toArray, handlers }) :=
  rfl

/-- The code is accepted if every target is a position in it. -/
theorem mapM_nodeOf_eq_ok_iff {nodes : List Node} :
    m.code.zipIdx.mapM (nodeOf m.code.length) = .ok nodes ↔
      (∀ insn ∈ m.code, ∀ t ∈ insn.targets, t < m.code.length) ∧
        nodes = m.code.zipIdx.map fun p => ⟨p.1, p.2, true⟩ := by
  refine (List.mapM_check_eq_ok_iff
    (c := fun p : Instruction Nat × Nat => p.1.targets.all (· < m.code.length))
    (e := fun p => (⟨p.2⟩ : DanglingTarget))).trans (and_congr_left' ?_)
  simp only [List.all_eq_true, decide_eq_true_eq, Prod.forall, List.mem_zipIdx_iff_getElem?]
  constructor
  · intro h insn hmem
    obtain ⟨n, hn⟩ := List.getElem?_of_mem hmem
    exact h insn n hn
  · intro h insn n hn
    exact h insn (List.mem_of_getElem? hn)

/-- Handlers are accepted if they start and enter in the code. One that stops at
the end or behind it is left open. -/
theorem mapM_rangeOf_eq_ok_iff {handlers : List HandlerRange} :
    m.handlers.mapM (rangeOf m.code.length) = .ok handlers ↔
      (∀ h ∈ m.handlers, h.start < m.code.length ∧ h.entry < m.code.length) ∧
        handlers = m.handlers.map fun h =>
          ⟨h.start, if h.stop < m.code.length then some h.stop else none, h.entry,
            h.catchType⟩ := by
  refine Iff.trans ?_ ((List.mapM_check_eq_ok_iff
    (c := fun h => h.start < m.code.length ∧ h.entry < m.code.length)
    (e := fun h => (⟨h.entry⟩ : DanglingTarget))).trans
      (and_congr_left' (by simp only [decide_eq_true_eq])))
  simp only [decide_eq_true_eq]
  rfl

/-- A method has a stream if it names only its own instructions. -/
theorem ofMethod_eq_ok_iff : ofMethod m = .ok s ↔ m.IsClosed ∧ s = whole m := by
  rw [ofMethod_eq]
  constructor
  · intro h
    cases hn : m.code.zipIdx.mapM (nodeOf m.code.length) with
    | error e =>
        simp only [hn] at h
        cases h
    | ok nodes =>
        simp only [hn] at h
        cases hh : m.handlers.mapM (rangeOf m.code.length) with
        | error e =>
            simp only [hh] at h
            cases h
        | ok handlers =>
            simp only [hh] at h
            cases h
            obtain ⟨ht, rfl⟩ := mapM_nodeOf_eq_ok_iff.1 hn
            obtain ⟨hr, rfl⟩ := mapM_rangeOf_eq_ok_iff.1 hh
            exact ⟨⟨fun hmem hin => ht _ hmem _ hin, fun hmem => hr _ hmem⟩, rfl⟩
  · rintro ⟨hclosed, rfl⟩
    simp only [mapM_nodeOf_eq_ok_iff.2 ⟨fun _ hmem _ hin => hclosed.target hmem hin, rfl⟩,
      mapM_rangeOf_eq_ok_iff.2 ⟨fun _ hmem => hclosed.handler hmem, rfl⟩]
    rfl

/-- At first nothing is taken out. -/
theorem thins_whole (h : m.IsClosed) : (whole m).Thins m := by
  have hstop : ∀ t, (whole m).firstFrom t = if t < m.code.length then some t else none := by
    intro t
    rw [firstFrom_eq_ahead, size_whole]
    by_cases ht : t < m.code.length
    · rw [ahead_whole ht.le]
    · rw [ahead_eq_size_of_le (by simpa using ht), size_whole, if_neg (lt_irrefl _), if_neg ht]
  refine ⟨size_whole, fun {n insn} hn hi => .inl ?_, fun {n insn t} hn hi ht => ?_,
    fun _ => true, ?_, fun r hr => ?_⟩
  · rw [instruction?_whole, hi, Instruction.mapTargets_eq_self]
    exact fun t ht => ahead_whole (h.target (List.mem_of_getElem? hi) ht).le
  · have := h.target (List.mem_of_getElem? hi) ht
    rwa [ahead_whole this.le, size_whole]
  · rw [List.filter_eq_self.2 fun _ _ => rfl]
    apply List.map_congr_left
    intro r hr
    obtain ⟨hstart, hentry⟩ := h.handler hr
    rw [range, ahead_whole hstart.le, ahead_whole hentry.le, hstop]
  · obtain ⟨hstart, hentry⟩ := h.handler hr
    rw [if_pos rfl, Holds, ahead_whole hstart.le, ahead_whole hentry.le, size_whole]
    exact ⟨hstart, hentry⟩

/-! ### The method of a stream -/

/-- Whatever the stream names is live. -/
structure IsClosed (s : CodeStream) : Prop where
  target : ∀ {n t}, s.isLive n → t ∈ s.targets n → s.isLive t
  start : ∀ {r}, r ∈ s.handlers → s.isLive r.start
  stop : ∀ {r k}, r ∈ s.handlers → r.stop = some k → s.isLive k
  entry : ∀ {r}, r ∈ s.handlers → s.isLive r.entry

/-- A stream that was thinned out of a body refers to live nodes only. -/
theorem Thins.isClosed (h : s.Thins m) : s.IsClosed := by
  refine ⟨fun {n t} hn ht => ?_, fun hr => ?_, fun hr hk => ?_, fun hr => ?_⟩
  · obtain ⟨insn, hi⟩ := h.exists_code hn
    rw [h.targets hn hi] at ht
    obtain ⟨target, hmem, rfl⟩ := List.mem_map.1 ht
    exact isLive_ahead (h.target hn hi hmem)
  · obtain ⟨h, -, hholds, rfl⟩ := h.exists_of_mem_handlers hr
    exact isLive_ahead hholds.1
  · obtain ⟨h, -, -, rfl⟩ := h.exists_of_mem_handlers hr
    exact (firstFrom_eq_some_iff.1 hk).2.1
  · obtain ⟨h, -, hholds, rfl⟩ := h.exists_of_mem_handlers hr
    exact isLive_ahead hholds.2

/-- One step of the count that numbers the live nodes. -/
def placed (r : Array (Option Nat) × Nat) (node : Node) : Array (Option Nat) × Nat :=
  if node.live then (r.1.push (some r.2), r.2 + 1) else (r.1.push none, r.2)

/-- The table of places in closed form: a live node has the number of live ones
before it, a dead one nothing. -/
theorem foldl_placed (nodes : List Node) :
    (nodes.foldl placed (#[], 0)).1.size = nodes.length ∧
    (nodes.foldl placed (#[], 0)).2 = nodes.countP (·.live) ∧
    ∀ n, (nodes.foldl placed (#[], 0)).1[n]? = nodes[n]?.map fun node : Node =>
      if node.live then some ((nodes.take n).countP (·.live)) else none := by
  -- The counter counts what lies in front, so the induction adds nodes at the end.
  induction nodes using List.reverseRecOn with
  | nil => simp
  | append_singleton nodes node ih =>
      rw [List.foldl_append, List.foldl_cons, List.foldl_nil]
      obtain ⟨hsize, hcount, hget⟩ := ih
      generalize nodes.foldl placed (#[], 0) = r at *
      have hpush : (placed r node).1 =
          r.1.push (if node.live then some (nodes.countP (·.live)) else none) := by
        unfold placed
        split <;> simp [hcount]
      refine ⟨by simp [hpush, hsize], ?_, fun n => ?_⟩
      · unfold placed
        split <;> simp_all
      · rw [hpush, Array.getElem?_push, hsize]
        rcases Nat.lt_trichotomy n nodes.length with hlt | rfl | hgt
        · rw [if_neg hlt.ne, hget, List.getElem?_append_left hlt,
            List.take_append_of_le_length hlt.le]
        · simp
        · have hbehind : (nodes ++ [node]).length ≤ n := by
            rw [List.length_append, List.length_singleton]
            exact hgt
          rw [if_neg hgt.ne', hget, List.getElem?_eq_none hgt.le, List.getElem?_eq_none hbehind]
          rfl

theorem getElem?_places : s.places[n]? =
    if n < s.nodes.size then some (if s.isLive n then some (s.rank n) else none) else none := by
  have hplaces : s.places = (s.nodes.toList.foldl placed (#[], 0)).1 := by
    rw [places, ← Array.foldl_toList]
    rfl
  rw [hplaces, (foldl_placed s.nodes.toList).2.2 n]
  by_cases hn : n < s.nodes.size
  · rw [countP_take_eq_rank hn.le]
    simp [isLive, hn]
  · simp [hn]

theorem join_places (h : s.isLive n) : s.places[n]?.join = some (s.rank n) := by
  simp [getElem?_places, lt_size_of_isLive h, h]

/-- A node stands at its rank among the live ones. -/
theorem getElem?_ids (h : s.isLive n) : s.ids[s.rank n]? = some n := by
  have hlt := lt_size_of_isLive h
  rw [ids, rank, List.countP_eq_length_filter]
  obtain ⟨k, hk⟩ : ∃ k, s.nodes.size = n + (k + 1) := ⟨s.nodes.size - n - 1, by omega⟩
  rw [hk, List.range_add, List.filter_append, List.getElem?_append_right (by simp),
    Nat.sub_self, List.range_succ_eq_map, List.map_cons, Nat.add_zero, List.filter_cons,
    if_pos h]
  rfl

/-- The number of live nodes is the rank of the end. -/
theorem length_eq_rank : s.length = s.rank s.nodes.size := by
  rw [length, ids, rank, List.countP_eq_length_filter]

theorem rank_le_length (t : Nat) : s.rank t ≤ s.length := by
  rw [length_eq_rank]
  rcases Nat.le_total t s.nodes.size with hle | hle
  · exact rank_mono hle
  · refine (rank_eq_of_dead hle fun k hk _ hlive => ?_).ge
    have := lt_size_of_isLive hlive
    omega

/-- The handler in the method of the stream, unless its range is empty. -/
def handlerOf? (s : CodeStream) (r : HandlerRange) : Option Handler :=
  let start := s.rank r.start
  let stop := (r.stop.map s.rank).getD s.length
  if start < stop then some ⟨start, stop, s.rank r.entry, r.catchType⟩ else none

/-- The method of a stream, computed from the ranks. -/
def flat (s : CodeStream) (template : Method) : Method :=
  { template with
    code := (s.ids.filterMap s.instruction?).map (·.mapTargets s.rank)
    handlers := s.handlers.filterMap s.handlerOf? }

/-- **The way back.** A stream that names only live nodes has a method. -/
theorem IsClosed.toMethod (h : s.IsClosed) (template : Method) :
    s.toMethod template = .ok (s.flat template) := by
  have hplace : ∀ {id}, s.isLive id → placeIn s.places id = .ok (s.rank id) := by
    intro id hid
    rw [placeIn, join_places hid]
  -- In a closed stream every reference is to a live node, and live nodes have places, so
  -- no look-up fails.
  have hcode : (s.ids.filterMap s.instruction?).mapM (·.mapTargetsM (placeIn s.places)) =
      .ok ((s.ids.filterMap s.instruction?).map (·.mapTargets s.rank)) := by
    refine List.mapM_eq_ok fun insn hmem => Instruction.mapTargetsM_eq_ok fun t ht => ?_
    obtain ⟨n, hn, hi⟩ := List.mem_filterMap.1 hmem
    refine hplace (h.target (mem_ids.1 hn) ?_)
    rwa [targets_of_instruction? hi]
  have hhandlers : s.handlers.mapM (handlerIn s.places s.ids.length) =
      .ok (s.handlers.map fun r => (s.handlerOf? r).toList) := by
    refine List.mapM_eq_ok fun r hr => ?_
    have hstart := hplace (h.start hr)
    have hentry := hplace (h.entry hr)
    have hstop := fun {k} (hk : r.stop = some k) => hplace (h.stop hr hk)
    have hif : ∀ stop, (if s.rank r.start < stop then
        (.ok [⟨s.rank r.start, stop, s.rank r.entry, r.catchType⟩] :
          Except DanglingTarget (List Handler))
        else .ok []) = .ok (if s.rank r.start < stop then
          some ⟨s.rank r.start, stop, s.rank r.entry, r.catchType⟩ else none).toList := by
      intro stop
      split <;> rfl
    obtain ⟨start, stop, entry, catchType⟩ := r
    cases stop with
    | none =>
        simp only [handlerIn, hstart, hentry]
        exact hif s.length
    | some k =>
        simp only [handlerIn, hstart, hentry, hstop rfl]
        exact hif (s.rank k)
  rw [CodeStream.toMethod, hcode, hhandlers, flat,
    List.filterMap_eq_flatMap_toList s.handlerOf?, List.flatMap_def]
  rfl

/-- Where nothing is left out, places stay. -/
theorem getElem?_filterMap_of_isSome {α β : Type} {f : α → Option β} {l : List α}
    (h : ∀ a ∈ l, (f a).isSome) (k : Nat) : (l.filterMap f)[k]? = l[k]?.bind f := by
  induction l generalizing k with
  | nil => rfl
  | cons a l ih =>
      simp only [List.mem_cons, forall_eq_or_imp] at h
      obtain ⟨b, hb⟩ := Option.isSome_iff_exists.1 h.1
      rw [List.filterMap_cons_some hb]
      cases k with
      | zero => exact hb.symm
      | succ k => exact ih h.2 k

theorem isSome_instruction? (h : n ∈ s.ids) : (s.instruction? n).isSome := by
  obtain ⟨insn, hi⟩ := exists_instruction_of_lt (lt_size_of_isLive (mem_ids.1 h))
  rw [hi]
  rfl

/-- In the method of the stream, a node's instruction stands at its rank. -/
theorem getElem?_flat (h : s.isLive n) :
    (s.flat m).code[s.rank n]? = (s.instruction? n).map (·.mapTargets s.rank) := by
  rw [flat, List.getElem?_map, getElem?_filterMap_of_isSome fun _ => isSome_instruction?,
    getElem?_ids h]
  rfl

/-- The body has an instruction for each live node. -/
theorem length_flat : (s.flat m).code.length = s.length := by
  rw [flat, List.length_map, List.length_filterMap_eq_countP, length, List.countP_eq_length]
  exact fun _ => isSome_instruction?

end CodeStream

end JvmOptimizer
