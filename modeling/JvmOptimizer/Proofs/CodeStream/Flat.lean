import JvmOptimizer.Proofs.CodeStream.Exchange
import JvmOptimizer.Proofs.CodeStream.Reached

/-!
# Editing by index

A method can also be edited without a stream: take some instructions out of the
list and move every index that lies behind them. Deleting from a stream comes to
the same. A deletion changes the ranks of nodes just as it moves indices
(`Gap.rank_eq`), and whatever it hands over from a deleted node to the node
behind it had that node's new rank already, so what it does to targets and
protected ranges does not show in the method of the stream.
-/

namespace JvmOptimizer

/-- The method without `count` instructions from `first` on, and with every index
moved by `f`. Handlers whose range becomes empty are dropped. -/
def Method.cut (m : Method) (first count : Nat) (f : Nat → Nat) : Method :=
  { m with
    code := (m.code.take first ++ m.code.drop (first + count)).map (·.mapTargets f)
    handlers := (m.handlers.map (·.move f)).filter fun h => h.start < h.stop }

namespace CodeStream

variable {s s' : CodeStream} {m template : Method} {n t id first last : Nat}

/-! ### Ranks across a gap -/

/-- Where index `t` lies when those from `low` up to `high` are gone. -/
def closeUp (low high t : Nat) : Nat :=
  if t < low then t else if t < high then low else t - (high - low)

/-- Closing a gap keeps the order of positions. -/
theorem closeUp_mono {low high u : Nat} (hle : low ≤ high) (h : t ≤ u) :
    closeUp low high t ≤ closeUp low high u := by
  unfold closeUp
  split_ifs <;> omega

/-- The second stream has the live nodes of the first but those from `first` to
`last`. -/
structure Gap (s s' : CodeStream) (first last : Nat) : Prop where
  le : first ≤ last
  lt : last < s.nodes.size
  size : s'.nodes.size = s.nodes.size
  isLive : ∀ n, s'.isLive n ↔ s.isLive n ∧ ¬ (first ≤ n ∧ n ≤ last)

namespace Gap

variable (h : s.Gap s' first last)

include h

theorem rank_of_le (ht : t ≤ first) : s'.rank t = s.rank t := by
  rw [rank, rank]
  refine List.countP_congr fun k hk => ?_
  have := List.mem_range.1 hk
  rw [h.isLive]
  exact and_iff_left (by omega)

/-- Everything in the gap falls onto the place where it starts. -/
theorem rank_of_mem (h₁ : first ≤ t) (h₂ : t ≤ last + 1) : s'.rank t = s.rank first := by
  rw [← h.rank_of_le le_rfl]
  refine (rank_eq_of_dead h₁ fun k hk₁ hk₂ hl => ?_).symm
  have := ((h.isLive k).1 hl).2
  omega

/-- Everything behind the gap moves up by the number of live nodes in it. -/
theorem rank_of_gt (ht : last + 1 ≤ t) :
    s'.rank t + s.rank (last + 1) = s.rank first + s.rank t := by
  have hle := h.le
  induction ht with
  | refl => rw [h.rank_of_mem (by omega) le_rfl]
  | @step t ht ih =>
      have hiff : s'.isLive t ↔ s.isLive t := by
        rw [h.isLive]
        exact and_iff_left (by have := Nat.succ_le_iff.1 ht; omega)
      have h₁ := rank_succ s' t
      have h₂ := rank_succ s t
      simp only [hiff] at h₁
      change s'.rank (t + 1) + _ = _ + s.rank (t + 1)
      omega

/-- **A deletion moves ranks** as taking out instructions moves indices. -/
theorem rank_eq (t : Nat) :
    s'.rank t = closeUp (s.rank first) (s.rank (last + 1)) (s.rank t) := by
  have hle := h.le
  have hlow : s.rank first ≤ s.rank (last + 1) := rank_mono (by omega)
  rcases Nat.le_total t first with ht | ht
  · have := rank_mono (s := s) ht
    rw [h.rank_of_le ht]
    unfold closeUp
    split_ifs <;> omega
  rcases Nat.le_total t (last + 1) with ht' | ht'
  · have := rank_mono (s := s) ht
    have := rank_mono (s := s) ht'
    rw [h.rank_of_mem ht ht']
    unfold closeUp
    split_ifs <;> omega
  · have := rank_mono (s := s) ht'
    have := h.rank_of_gt ht'
    unfold closeUp
    split_ifs <;> omega

/-- The end of the code is a position too, and it moves like the others. -/
theorem length_eq :
    s'.length = closeUp (s.rank first) (s.rank (last + 1)) s.length := by
  rw [length_eq_rank, h.rank_eq, h.size, length_eq_rank]

/-! ### Instructions and handlers across a gap -/

/-- The live nodes are those in front of the gap, those in it and those behind. -/
theorem ids_eq : ∃ front gap back, s.ids = front ++ gap ++ back ∧ s'.ids = front ++ back ∧
    front.length = s.rank first ∧ front.length + gap.length = s.rank (last + 1) := by
  have hle := h.le
  have hlt := h.lt
  -- The names in front of the gap, in it and behind it.
  obtain ⟨inside, hinside⟩ : ∃ inside, last + 1 = first + inside := ⟨last + 1 - first, by omega⟩
  obtain ⟨behind, hbehind⟩ : ∃ behind, s.nodes.size = last + 1 + behind :=
    ⟨s.nodes.size - (last + 1), by omega⟩
  have hrange : List.range s.nodes.size = List.range first ++
      (List.range inside).map (first + ·) ++ (List.range behind).map (last + 1 + ·) := by
    rw [hbehind, List.range_add, hinside, List.range_add]
  have hsame : ∀ names : List Nat, (∀ n ∈ names, ¬ (first ≤ n ∧ n ≤ last)) →
      names.filter s'.isLive = names.filter s.isLive := by
    intro names hnames
    refine List.filter_congr fun n hn => ?_
    rw [Bool.eq_iff_iff, h.isLive]
    exact and_iff_left (hnames n hn)
  have hnone : ((List.range inside).map (first + ·)).filter s'.isLive = [] := by
    rw [List.filter_eq_nil_iff]
    simp only [List.mem_map, List.mem_range, forall_exists_index, and_imp, h.isLive]
    rintro n k hk rfl ⟨-, hout⟩
    omega
  have hcount : ∀ t, ((List.range t).filter s.isLive).length = s.rank t := by
    intro t
    rw [rank, List.countP_eq_length_filter]
  refine ⟨(List.range first).filter s.isLive, ((List.range inside).map (first + ·)).filter s.isLive,
    ((List.range behind).map (last + 1 + ·)).filter s.isLive, ?_, ?_, hcount first, ?_⟩
  · rw [ids, hrange, List.filter_append, List.filter_append]
  · rw [ids, h.size, hrange, List.filter_append, List.filter_append, hnone, List.append_nil,
      hsame, hsame]
    · simp only [List.mem_map, List.mem_range]
      rintro n ⟨k, hk, rfl⟩
      omega
    · simp only [List.mem_range]
      omega
  · rw [← hcount (last + 1), hinside, List.range_add, List.filter_append, List.length_append]

/-- Where the deletion hands targets over to nodes of the same rank, the code of
the method is cut. -/
theorem code_flat (hinsn : ∀ n, s'.isLive n → (s'.instruction? n).map (·.mapTargets s'.rank) =
      (s.instruction? n).map (·.mapTargets s'.rank)) :
    (s'.flat template).code = ((s.flat template).cut (s.rank first)
      (s.rank (last + 1) - s.rank first) (closeUp (s.rank first) (s.rank (last + 1)))).code := by
  obtain ⟨front, gap, back, hids, hids', hfront, hgap⟩ := h.ids_eq
  have hlength : ∀ names : List Nat, (∀ n ∈ names, n ∈ s.ids) →
      (names.filterMap s.instruction?).length = names.length := by
    intro names hnames
    rw [List.length_filterMap_eq_countP, List.countP_eq_length]
    exact fun n hn => isSome_instruction? (hnames n hn)
  -- The code falls into what is before the gap, the gap, and what is behind it. Only ranks
  -- matter for where one ends and the next begins.
  have hcode : (s.flat template).code =
      ((front.filterMap s.instruction?).map (·.mapTargets s.rank) ++
        (gap.filterMap s.instruction?).map (·.mapTargets s.rank)) ++
      (back.filterMap s.instruction?).map (·.mapTargets s.rank) := by
    rw [flat, hids]
    simp only [List.filterMap_append, List.map_append]
  have hfront' : ((front.filterMap s.instruction?).map (·.mapTargets s.rank)).length =
      s.rank first := by
    rw [List.length_map, hlength _ fun n hn => hids ▸ by simp [hn], hfront]
  have hgap' : ((front.filterMap s.instruction?).map (·.mapTargets s.rank) ++
      (gap.filterMap s.instruction?).map (·.mapTargets s.rank)).length = s.rank (last + 1) := by
    rw [List.length_append, List.length_map, List.length_map,
      hlength _ fun n hn => hids ▸ by simp [hn], hlength _ fun n hn => hids ▸ by simp [hn], hgap]
  have hrank : s'.rank = closeUp (s.rank first) (s.rank (last + 1)) ∘ s.rank := funext h.rank_eq
  have hmono : s.rank first ≤ s.rank (last + 1) := rank_mono (by have := h.le; omega)
  -- The new code is the front and the back with the new ranks, and these are the old ones
  -- after closing the gap.
  calc (s'.flat template).code
    _ = (front ++ back).filterMap fun n => (s.instruction? n).map (·.mapTargets s'.rank) := by
        rw [flat, hids', List.map_filterMap]
        refine List.filterMap_congr fun n hn => hinsn n ?_
        rwa [← mem_ids, hids']
    _ = ((front.filterMap s.instruction?).map (·.mapTargets s.rank) ++
          (back.filterMap s.instruction?).map (·.mapTargets s.rank)).map
            (·.mapTargets (closeUp (s.rank first) (s.rank (last + 1)))) := by
        rw [← List.map_filterMap, List.filterMap_append, ← List.map_append, List.map_map, hrank]
        refine List.map_congr_left fun insn _ => ?_
        exact (Instruction.mapTargets_mapTargets _ _ insn).symm
    _ = _ := by
        rw [Method.cut, hcode, Nat.add_sub_of_le hmono, List.drop_left' hgap', List.append_assoc,
          List.take_left' hfront']

/-- A range yields the handler that it yielded before, moved. -/
theorem handlerOf?_eq (r : HandlerRange) : s'.handlerOf? r =
    ((s.handlerOf? r).map (·.move (closeUp (s.rank first) (s.rank (last + 1))))).filter
      fun h => h.start < h.stop := by
  have hmono : s.rank first ≤ s.rank (last + 1) := rank_mono (by have := h.le; omega)
  have hstop : (r.stop.map s'.rank).getD s'.length =
      closeUp (s.rank first) (s.rank (last + 1)) ((r.stop.map s.rank).getD s.length) := by
    cases r.stop with
    | none => exact h.length_eq
    | some k => exact h.rank_eq k
  simp only [handlerOf?, hstop, h.rank_eq]
  generalize (r.stop.map s.rank).getD s.length = stop
  by_cases hlt : s.rank r.start < stop
  · simp [hlt, Handler.move, Option.filter_some]
  · have := closeUp_mono hmono (Nat.le_of_not_lt hlt)
    simp [hlt, this]

/-- What a deletion does to the ranges does not show if each of them yields the
same handler behind it. -/
theorem handlers_flat {f : HandlerRange → Option HandlerRange}
    (hhandlers : s'.handlers = s.handlers.filterMap f)
    (hf : ∀ r, (f r).bind s'.handlerOf? = s'.handlerOf? r) :
    (s'.flat template).handlers = ((s.flat template).cut (s.rank first)
      (s.rank (last + 1) - s.rank first)
      (closeUp (s.rank first) (s.rank (last + 1)))).handlers := by
  calc (s'.flat template).handlers
    _ = s.handlers.filterMap s'.handlerOf? := by
        rw [flat, hhandlers, List.filterMap_filterMap]
        exact List.filterMap_congr fun r _ => hf r
    _ = _ := by
        change _ = ((s.handlers.filterMap s.handlerOf?).map _).filter _
        rw [List.map_filterMap, List.filter_filterMap]
        exact List.filterMap_congr fun r _ => h.handlerOf?_eq r

/-- If instructions and handlers follow the gap, so does the whole body. -/
theorem flat_eq {f : HandlerRange → Option HandlerRange}
    (hinsn : ∀ n, s'.isLive n → (s'.instruction? n).map (·.mapTargets s'.rank) =
      (s.instruction? n).map (·.mapTargets s'.rank))
    (hhandlers : s'.handlers = s.handlers.filterMap f)
    (hf : ∀ r, (f r).bind s'.handlerOf? = s'.handlerOf? r) :
    s'.flat template = (s.flat template).cut (s.rank first)
      (s.rank (last + 1) - s.rank first)
      (closeUp (s.rank first) (s.rank (last + 1))) := by
  have hcode : (s'.flat template).code = _ := h.code_flat hinsn
  have hranges : (s'.flat template).handlers = _ := h.handlers_flat hhandlers hf
  rw [flat, Method.cut, Method.mk.injEq]
  exact ⟨hcode, hranges, rfl, rfl, rfl⟩

/-- The node behind the gap has the rank of the nodes in it. -/
theorem rank_ahead (h₁ : first ≤ t) (h₂ : t ≤ last) :
    s'.rank (s.ahead (last + 1)) = s'.rank t := by
  have hlt := h.lt
  have hahead : last + 1 ≤ s.ahead (last + 1) := le_ahead (by omega)
  refine (rank_eq_of_dead (by omega) fun k hk₁ hk₂ hl => ?_).symm
  obtain ⟨hl, hout⟩ := (h.isLive k).1 hl
  exact not_isLive_of_lt_ahead (by omega) hk₂ hl

/-- With no node behind the gap, its nodes have the rank of the end. -/
theorem rank_next? (hlast : s.isLive last) (h₁ : first ≤ t) (h₂ : t ≤ last) :
    ((s.next? last).map s'.rank).getD s'.length = s'.rank t := by
  rw [next?_eq hlast, firstFrom_eq_ahead, length_eq_rank, h.size, ← h.rank_ahead h₁ h₂]
  split
  · rfl
  · rename_i hle
    rw [Nat.le_antisymm (s.ahead_le_size _) (Nat.le_of_not_lt hle)]
    rfl

end Gap

/-! ### Deletions -/

/-- The handler of a range depends on ranks only. -/
theorem handlerOf?_congr {r r' : HandlerRange} (hstart : s.rank r.start = s.rank r'.start)
    (hstop : (r.stop.map s.rank).getD s.length = (r'.stop.map s.rank).getD s.length)
    (hentry : s.rank r.entry = s.rank r'.entry) (htype : r.catchType = r'.catchType) :
    s.handlerOf? r = s.handlerOf? r' := by
  simp only [handlerOf?, hstart, hstop, hentry, htype]

/-- A range that starts where it stops protects nothing and has no handler. -/
theorem handlerOf?_of_not_isProper {r : HandlerRange} (h : ¬ r.isProper) :
    s.handlerOf? r = none := by
  have hstop : r.stop = some r.start := by simpa [HandlerRange.isProper] using h
  simp [handlerOf?, hstop]

/-- Ranges that are known to be empty yield no handlers anyway. -/
theorem bind_filter_isProper (r : HandlerRange) :
    ((some r).filter HandlerRange.isProper).bind s.handlerOf? = s.handlerOf? r := by
  by_cases h : r.isProper
  · simp [Option.filter_some, h]
  · simp [Option.filter_some, h, handlerOf?_of_not_isProper h]

/-- A range that starts at the end yields no handler. -/
theorem handlerOf?_of_start {r : HandlerRange} (h : s.rank r.start = s.length) :
    s.handlerOf? r = none := by
  have hle : (r.stop.map s.rank).getD s.length ≤ s.length := by
    cases r.stop with
    | none => exact le_rfl
    | some k => exact rank_le_length k
  simp only [handlerOf?, h]
  exact if_neg hle.not_gt

/-- Deleting one node leaves a gap of this node alone. -/
theorem gap_deleteOne (hd : s.deleteOne id = .ok s') (hid : s.isLive id) : s.Gap s' id id where
  le := le_rfl
  lt := lt_size_of_isLive hid
  size := size_deleteOne hd hid
  isLive n := by
    rw [isLive_deleteOne hd hid, Bool.and_eq_true, bne_iff_ne]
    exact and_congr_right fun _ => by omega

theorem gap_deleteRange {count : Nat} (hd : s.deleteRange first last = .ok (count, s')) :
    s.Gap s' first last where
  le := (isLive_of_deleteRange hd).2.2
  lt := lt_size_of_isLive (isLive_of_deleteRange hd).2.1
  size := size_deleteRange hd
  isLive _ := isLive_deleteRange hd

section DeleteOne

variable (hd : s.deleteOne id = .ok s') (hid : s.isLive id)

include hd hid

/-- What is handed over keeps its rank. -/
theorem rank_moved (t : Nat) : s'.rank (moved id (s.ahead (id + 1)) t) = s'.rank t := by
  by_cases ht : t = id
  · rw [ht, moved_self, (gap_deleteOne hd hid).rank_ahead le_rfl le_rfl]
  · rw [moved_of_ne ht]

/-- What deleting a node does to handlers cannot be seen in the body: a bound that
was moved or a range that was dropped has the same handler as before. -/
theorem exists_handlers_deleteOne : ∃ f, s'.handlers = s.handlers.filterMap f ∧
    ∀ r, (f r).bind s'.handlerOf? = s'.handlerOf? r := by
  have hgap := gap_deleteOne hd hid
  -- Where there is a next node, bounds are moved to it. Behind the last node there is
  -- none, so a range that starts there goes and one that stops there is left open.
  rcases (deleteOne_eq_ok_iff hid).1 hd with ⟨hnext, hs⟩ | ⟨hend, -, hs⟩
  · refine ⟨fun r => (some (r.redirect id (s.ahead (id + 1)))).filter HandlerRange.isProper,
      ?_, fun r => ?_⟩
    · rw [hs, handlers_unlink, redirect, ← List.filterMap_eq_map, List.filter_filterMap]
      rfl
    · have hsame : s'.handlerOf? (r.redirect id (s.ahead (id + 1))) = s'.handlerOf? r := by
        refine handlerOf?_congr (rank_moved hd hid r.start) ?_ (rank_moved hd hid r.entry) rfl
        cases hstop : r.stop with
        | none => simp [HandlerRange.redirect, hstop]
        | some k =>
            simp only [HandlerRange.redirect, hstop, Option.map_some, Option.getD_some]
            exact rank_moved hd hid k
      rw [bind_filter_isProper, hsame]
  · have hrank : s'.rank id = s'.length := by
      rw [length_eq_rank, hgap.size, ← hend, hgap.rank_ahead le_rfl le_rfl]
    refine ⟨fun r => if r.start ≠ id then
        some (if r.stop = some id then { r with stop := none } else r) else none, ?_, fun r => ?_⟩
    · rw [hs, handlers_unlink]
      change s.handlersWithoutLast id = _
      rw [handlersWithoutLast, ← List.filterMap_eq_filter, List.map_filterMap]
      refine List.filterMap_congr fun r _ => ?_
      by_cases hr : r.start = id <;> simp [hr, Option.guard]
    · beta_reduce
      by_cases hstart : r.start = id
      · rw [if_neg (not_not_intro hstart), handlerOf?_of_start (hstart ▸ hrank)]
        rfl
      · rw [if_pos hstart, Option.bind_some]
        split
        · rename_i hstop
          refine handlerOf?_congr rfl ?_ rfl rfl
          rw [hstop]
          exact hrank.symm
        · rfl

/-- **Deleting a node** cuts its instruction out of the method. -/
theorem flat_deleteOne : s'.flat template = (s.flat template).cut (s.rank id) 1
    (closeUp (s.rank id) (s.rank id + 1)) := by
  have hrank : s.rank (id + 1) = s.rank id + 1 := by rw [rank_succ, if_pos hid]
  obtain ⟨f, hhandlers, hf⟩ := exists_handlers_deleteOne hd hid
  have hflat : s'.flat template = _ := (gap_deleteOne hd hid).flat_eq ?_ hhandlers hf
  · rwa [hrank, Nat.add_sub_cancel_left] at hflat
  · intro n hn
    obtain ⟨hn, hne⟩ := isLive_of_deleteOne hd hid hn
    rw [instruction?_deleteOne hd hid hn hne, Option.map_map]
    refine congrArg (Option.map · (s.instruction? n)) (funext fun insn => ?_)
    exact (Instruction.mapTargets_mapTargets _ _ insn).trans
      (Instruction.mapTargets_congr fun t _ => rank_moved hd hid t)

end DeleteOne

section DeleteRange

variable {count : Nat} (hd : s.deleteRange first last = .ok (count, s'))

include hd

/-- The same for a run of nodes: bounds in it move to the node behind. -/
theorem exists_handlers_deleteRange : ∃ f, s'.handlers = s.handlers.filterMap f ∧
    ∀ r, (f r).bind s'.handlerOf? = s'.handlerOf? r := by
  have hgap := gap_deleteRange hd
  have hrank : ∀ {t}, s.isLive t ∧ first ≤ t ∧ t ≤ last →
      ((s.next? last).map s'.rank).getD s'.length = s'.rank t :=
    fun ht => hgap.rank_next? (isLive_of_deleteRange hd).2.1 ht.2.1 ht.2.2
  refine ⟨_, handlers_deleteRange hd, fun r => ?_⟩
  -- Where the range stops in the run, it stops behind the run at the same rank.
  have hstop : ((if r.stop.any fun k => s.isLive k ∧ first ≤ k ∧ k ≤ last then
      s.next? last else r.stop).map s'.rank).getD s'.length =
        (r.stop.map s'.rank).getD s'.length := by
    split
    · rename_i hany
      obtain ⟨k, hk, hin⟩ := (Option.any_eq_true _ _).1 hany
      rw [hk, hrank (of_decide_eq_true hin)]
      rfl
    · rfl
  dsimp only
  by_cases hstart : s.isLive r.start ∧ first ≤ r.start ∧ r.start ≤ last
  · cases hnext : s.next? last with
    | none =>
        have hend := hrank hstart
        rw [hnext] at hend
        rw [if_pos hstart, Option.map_none, handlerOf?_of_start hend.symm]
        rfl
    | some start =>
        have hsame := hrank hstart
        rw [hnext, Option.map_some, Option.getD_some] at hsame
        rw [hnext] at hstop
        rw [if_pos hstart, Option.map_some, bind_filter_isProper]
        exact handlerOf?_congr hsame hstop rfl rfl
  · rw [if_neg hstart, bind_filter_isProper]
    exact handlerOf?_congr rfl hstop rfl rfl

/-- The run takes up as many ranks as it has nodes. -/
theorem rank_succ_last : s.rank (last + 1) = s.rank first + count := by
  have hgap := gap_deleteRange hd
  have hle := hgap.le
  have hmono : s.rank first ≤ s.rank (last + 1) := rank_mono (by omega)
  have hlength := length_deleteRange hd
  have hmax : s.rank (last + 1) ≤ s.length := rank_le_length (last + 1)
  rw [hgap.length_eq, closeUp] at hlength
  split_ifs at hlength <;> omega

/-- **Deleting a run** cuts its instructions out of the method. -/
theorem flat_deleteRange : s'.flat template = (s.flat template).cut (s.rank first) count
    (closeUp (s.rank first) (s.rank first + count)) := by
  obtain ⟨f, hhandlers, hf⟩ := exists_handlers_deleteRange hd
  have hflat : s'.flat template = _ := (gap_deleteRange hd).flat_eq ?_ hhandlers hf
  · rwa [rank_succ_last hd, Nat.add_sub_cancel_left] at hflat
  · intro n _
    rw [instruction?_deleteRange hd]

end DeleteRange

/-! ### Streams as methods -/

/-- The gap of a single position, as an index is usually adjusted for it. -/
theorem closeUp_succ (k : Nat) : closeUp k (k + 1) = fun t => if t ≤ k then t else t - 1 := by
  funext t
  unfold closeUp
  split_ifs <;> omega

theorem closeUp_add {i j : Nat} (h : i ≤ j) : closeUp i (i + (j - i + 1)) =
    fun t => if t < i then t else if t ≤ j then i else t - (j - i + 1) := by
  funext t
  unfold closeUp
  split_ifs <;> omega

/-- A node stands at its rank. -/
theorem rank_of_getElem?_ids {k : Nat} (h : s.ids[k]? = some id) :
    s.isLive id ∧ s.rank id = k := by
  have hid : s.isLive id := mem_ids.1 (List.mem_of_getElem? h)
  refine ⟨hid, ?_⟩
  obtain ⟨hlt, hget⟩ := List.getElem?_eq_some_iff.1 h
  obtain ⟨hlt', hget'⟩ := List.getElem?_eq_some_iff.1 (getElem?_ids hid)
  exact (nodup_ids.getElem_inj_iff).1 (hget'.trans hget.symm)

/-- While nothing was deleted, each node stands at its own rank. -/
theorem rank_whole (h : t ≤ m.code.length) : (whole m).rank t = t := by
  rw [rank, List.countP_eq_length_filter, List.filter_eq_self.2, List.length_range]
  intro k hk
  have := List.mem_range.1 hk
  exact isLive_whole.2 (by omega)

/-- Nothing is lost on the way to a stream and back but what an empty range
protects. -/
theorem flat_whole (h : m.IsClosed) : (whole m).flat template = { template with
    code := m.code
    handlers := (m.handlers.map fun r => { r with stop := min r.stop m.code.length }).filter
      fun r => r.start < r.stop } := by
  rw [flat, Method.mk.injEq]
  refine ⟨List.ext_getElem? fun k => ?_, ?_, rfl, rfl, rfl⟩
  -- Instructions first: ranks are positions, so no target moves.
  · by_cases hk : k < m.code.length
    · have hget := getElem?_flat (m := template) (isLive_whole.2 hk)
      rw [rank_whole hk.le, instruction?_whole] at hget
      refine hget.trans ?_
      rw [List.getElem?_eq_getElem hk, Option.map_some, Instruction.mapTargets_eq_self]
      exact fun t ht => rank_whole (h.target (List.getElem_mem hk) ht).le
    · rw [List.getElem?_eq_none (Nat.le_of_not_lt hk)]
      refine List.getElem?_eq_none ?_
      have hlength := length_flat (s := whole m) (m := template)
      rw [length_whole] at hlength
      exact hlength.le.trans (Nat.le_of_not_lt hk)
  -- Handlers next: one that ends behind the code is cut there, and one without anything to
  -- protect is left out.
  · rw [whole, List.filterMap_map, ← List.filterMap_eq_filter, List.filterMap_map]
    refine List.filterMap_congr fun r hr => ?_
    obtain ⟨hstart, hentry⟩ := h.handler hr
    have hstop : ((if r.stop < m.code.length then some r.stop else none).map (whole m).rank).getD
        (whole m).length = min r.stop m.code.length := by
      split
      · rename_i hlt
        rw [Option.map_some, Option.getD_some, rank_whole hlt.le, Nat.min_eq_left hlt.le]
      · rename_i hle
        rw [Option.map_none, Option.getD_none, length_whole,
          Nat.min_eq_right (Nat.le_of_not_lt hle)]
    change (whole m).handlerOf? _ = _
    simp only [handlerOf?, hstop, rank_whole hstart.le, rank_whole hentry.le]
    simp [Option.guard]

/-- **Streams are methods edited by index.** A method comes back from its stream,
with the ends of its ranges cut to its length and without empty ranges. Deleting
the node at some place takes that instruction out and moves every index behind
it; deleting the nodes between two places takes the instructions between them
out, says how many they were, and moves every index into them to where they
were. Handlers whose range becomes empty go, and the others keep their order. -/
theorem toMethod_edits (m template : Method) :
    (∀ s, ofMethod m = .ok s → s.toMethod template = .ok { template with
      code := m.code
      handlers := (m.handlers.map fun r => { r with stop := min r.stop m.code.length }).filter
        fun r => r.start < r.stop }) ∧
    ∀ s, Reached m s → ∃ flat, s.toMethod template = .ok flat ∧
      (∀ k id s', s.ids[k]? = some id → s.deleteOne id = .ok s' →
        s'.toMethod template = .ok (flat.cut k 1 fun t => if t ≤ k then t else t - 1)) ∧
      ∀ i j first last count s', s.ids[i]? = some first → s.ids[j]? = some last →
        s.deleteRange first last = .ok (count, s') → count = j - i + 1 ∧
          s'.toMethod template = .ok (flat.cut i (j - i + 1) fun t =>
            if t < i then t else if t ≤ j then i else t - (j - i + 1)) := by
  refine ⟨fun s hs => ?_, fun s hs => ⟨_, hs.isClosed.toMethod template, ?_, ?_⟩⟩
  · obtain ⟨hm, rfl⟩ := ofMethod_eq_ok_iff.1 hs
    rw [(Reached.ofMethod hs).isClosed.toMethod, flat_whole hm]
  · intro k id s' hk hd
    obtain ⟨hid, rfl⟩ := rank_of_getElem?_ids hk
    rw [(hs.isClosed.deleteOne hd).toMethod, flat_deleteOne hd hid, closeUp_succ]
  -- The positions of the two ends are their ranks, and the number of nodes between is the
  -- difference of these.
  · intro i j first last count s' hi hj hd
    obtain ⟨-, rfl⟩ := rank_of_getElem?_ids hi
    obtain ⟨hlast, rfl⟩ := rank_of_getElem?_ids hj
    have hle : s.rank first ≤ s.rank last := rank_mono (gap_deleteRange hd).le
    have hcount : count = s.rank last - s.rank first + 1 := by
      have hrank := rank_succ_last hd
      rw [rank_succ, if_pos hlast] at hrank
      omega
    subst hcount
    rw [(hs.isClosed.deleteRange hd).toMethod, flat_deleteRange hd, closeUp_add hle]
    exact ⟨rfl, rfl⟩

/-- A loop whose second instruction has a handler of its own. -/
def guardedLoop : Method where
  code := [.jump 2, .verbatim 0x00 [], .jump 1, .verbatim 0xbf []]
  handlers := [⟨1, 2, 3, 0⟩, ⟨0, 9, 3, 0⟩]

/-- Without the second instruction the loop jumps to itself and the first handler
protects nothing. -/
theorem toMethod_edits_guardedLoop : ∃ s s', ofMethod guardedLoop = .ok s ∧
    s.deleteOne 1 = .ok s' ∧ s'.toMethod guardedLoop = .ok {
      code := [.jump 1, .jump 1, .verbatim 0xbf []]
      handlers := [⟨0, 3, 2, 0⟩] } := by
  have hclosed : guardedLoop.IsClosed := by
    have htargets : ∀ insn ∈ guardedLoop.code, ∀ t ∈ insn.targets, t < guardedLoop.code.length := by
      decide
    have hhandlers : ∀ r ∈ guardedLoop.handlers,
        r.start < guardedLoop.code.length ∧ r.entry < guardedLoop.code.length := by decide
    exact ⟨fun hinsn ht => htargets _ hinsn _ ht, fun hr => hhandlers _ hr⟩
  have hs : ofMethod guardedLoop = .ok (whole guardedLoop) := ofMethod_eq_ok_iff.2 ⟨hclosed, rfl⟩
  have hok : ((whole guardedLoop).deleteOne 1).isOk := by decide +kernel
  cases hd : (whole guardedLoop).deleteOne 1 with
  | error e =>
      rw [hd] at hok
      cases hok
  | ok s' =>
      obtain ⟨hfresh, hedits⟩ := toMethod_edits guardedLoop guardedLoop
      obtain ⟨flat, hflat, hone, -⟩ := hedits _ (.ofMethod hs)
      rw [hfresh _ hs] at hflat
      cases hflat
      exact ⟨_, s', hs, hd, hone 1 1 s' (by decide +kernel) hd⟩

end CodeStream

end JvmOptimizer
