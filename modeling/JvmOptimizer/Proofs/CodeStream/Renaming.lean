import JvmOptimizer.Proofs.CodeStream.Exchange
import JvmOptimizer.Proofs.Verifier.Stream

/-!
# Streams that differ in the names of their nodes

A stream that goes through its method and back loses its dead nodes: what is
left has new names, namely places, and is otherwise as it was. `Renames` says
that, so that whatever looks only at live nodes and their positions can be
carried over.
-/

namespace JvmOptimizer

/-- The range with its nodes renamed. -/
def HandlerRange.rename (f : Nat → Nat) (r : HandlerRange) : HandlerRange :=
  ⟨f r.start, r.stop.map f, f r.entry, r.catchType⟩

namespace CodeStream

variable {f : Nat → Nat} {s t : CodeStream} {m : Method} {n k : Nat}

/-- The live nodes of `t` are those of `s`, with names given by `f`. -/
structure Renames (f : Nat → Nat) (s t : CodeStream) : Prop where
  closed : s.IsClosed
  injective : ∀ {n k}, s.isLive n → s.isLive k → f n = f k → n = k
  ids : t.ids = s.ids.map f
  instruction : ∀ {n}, s.isLive n →
    t.instruction? (f n) = (s.instruction? n).map (·.mapTargets f)
  position : ∀ {n}, s.isLive n → t.position (f n) = s.position n
  prev : ∀ {n}, s.isLive n → t.prev? (f n) = (s.prev? n).map f
  handlers : t.handlers = s.handlers.map (·.rename f)

namespace Renames

/-- Renaming goes through the targets of every live node. -/
theorem targets (h : Renames f s t) (hn : s.isLive n) :
    t.targets (f n) = (s.targets n).map f := by
  rw [CodeStream.targets, CodeStream.targets, h.instruction hn]
  cases s.instruction? n with
  | none => rfl
  | some insn => exact Instruction.targets_mapTargets f insn

/-- All live nodes of the second stream are named after one of the first. -/
theorem isLive_iff (h : Renames f s t) : t.isLive k ↔ ∃ n, s.isLive n ∧ f n = k := by
  rw [← mem_ids, h.ids, List.mem_map]
  simp only [mem_ids]

theorem isHandlerEntry (h : Renames f s t) (hn : s.isLive n) :
    t.isHandlerEntry (f n) ↔ s.isHandlerEntry n := by
  rw [isHandlerEntry_iff, isHandlerEntry_iff, h.handlers]
  constructor
  · rintro ⟨r, hr, heq⟩
    obtain ⟨q, hq, rfl⟩ := List.mem_map.1 hr
    exact ⟨q, hq, h.injective (h.closed.entry hq) hn heq⟩
  · rintro ⟨r, hr, rfl⟩
    exact ⟨_, List.mem_map_of_mem hr, rfl⟩

/-- Whether something leads to a node does not depend on its name. -/
theorem isTargeted (h : Renames f s t) (hn : s.isLive n) :
    t.isTargeted (f n) = s.isTargeted n := by
  rw [Bool.eq_iff_iff, isTargeted_iff, isTargeted_iff, h.isHandlerEntry hn]
  refine or_congr_right ?_
  constructor
  · rintro ⟨_, hlive, hne, hmem⟩
    obtain ⟨k, hk, rfl⟩ := h.isLive_iff.1 hlive
    rw [h.targets hk] at hmem
    obtain ⟨u, hu, heq⟩ := List.mem_map.1 hmem
    obtain rfl := h.injective (h.closed.target hk hu) hn heq
    exact ⟨k, hk, fun heq => hne (congrArg f heq), hu⟩
  · rintro ⟨k, hk, hne, hmem⟩
    refine ⟨f k, h.isLive_iff.2 ⟨k, hk, rfl⟩, fun heq => hne (h.injective hk hn heq), ?_⟩
    rw [h.targets hk]
    exact List.mem_map_of_mem hmem

/-- A backward transfer stays one. -/
theorem exists_loop_iff (h : Renames f s t) {x : Nat} {P : Nat → Prop} :
    (∃ e ∈ t.loops, P (t.position e.tail) ∧ t.position e.head = x) ↔
      ∃ e ∈ s.loops, P (s.position e.tail) ∧ s.position e.head = x := by
  -- What a loop is, in terms of live nodes and positions only, which renaming keeps.
  have hloops : ∀ u : CodeStream, (∃ e ∈ u.loops, P (u.position e.tail) ∧ u.position e.head = x) ↔
      ∃ n, u.isLive n ∧ ∃ head ∈ u.targets n,
        u.position head ≤ u.position n ∧ P (u.position n) ∧ u.position head = x := by
    intro u
    constructor
    · rintro ⟨_, he, hP, hx⟩
      obtain ⟨head, n, hn, hhead, hle, rfl⟩ := mem_loops_iff.1 he
      exact ⟨n, hn, head, hhead, hle, hP, hx⟩
    · rintro ⟨n, hn, head, hhead, hle, hP, hx⟩
      exact ⟨_, mem_loops_iff.2 ⟨head, n, hn, hhead, hle, rfl⟩, hP, hx⟩
  rw [hloops, hloops]
  constructor
  · rintro ⟨k, hk, head, hhead, hrest⟩
    obtain ⟨n, hn, rfl⟩ := h.isLive_iff.1 hk
    rw [h.targets hn] at hhead
    obtain ⟨u, hu, rfl⟩ := List.mem_map.1 hhead
    rw [h.position hn, h.position (h.closed.target hn hu)] at hrest
    exact ⟨n, hn, u, hu, hrest⟩
  · rintro ⟨n, hn, u, hu, hrest⟩
    refine ⟨f n, h.isLive_iff.2 ⟨n, hn, rfl⟩, f u, ?_, ?_⟩
    · rw [h.targets hn]
      exact List.mem_map_of_mem hu
    · rw [h.position hn, h.position (h.closed.target hn hu)]
      exact hrest

end Renames

/-! ### The stream of the method of a stream -/

/-- Ranks number the live nodes without gaps. -/
theorem map_rank_ids : s.ids.map s.rank = List.range s.length := by
  refine List.ext_getElem? fun k => ?_
  by_cases hk : k < s.length
  · obtain ⟨n, hn, rfl⟩ := Verifier.exists_rank_eq hk
    rw [List.getElem?_map, getElem?_ids hn, List.getElem?_range hk]
    rfl
  · rw [List.getElem?_eq_none (by simpa [length] using hk),
      List.getElem?_eq_none (by simpa using hk)]

theorem rank_injective (hn : s.isLive n) (hk : s.isLive k) (h : s.rank n = s.rank k) : n = k := by
  rcases Nat.lt_trichotomy n k with hlt | heq | hlt
  · have := rank_lt_rank hn hlt
    omega
  · exact heq
  · have := rank_lt_rank hk hlt
    omega

/-- The node in front stands one place before. -/
theorem prev?_whole_rank {template : Method} (hn : s.isLive n) :
    (whole (s.flat template)).prev? (s.rank n) = (s.prev? n).map s.rank := by
  have hlive : ∀ {j}, (whole (s.flat template)).isLive j ↔ j < s.length := by
    intro j
    rw [isLive_whole, length_flat]
  have hrank := Verifier.rank_lt_length hn
  refine Option.ext fun j => ?_
  rw [Option.map_eq_some_iff, prev?_eq_some_iff]
  constructor
  · rintro ⟨-, hjn, hj, hbetween⟩
    obtain ⟨p, hp, rfl⟩ := Verifier.exists_rank_eq (hlive.1 hj)
    refine ⟨p, prev?_eq_some_iff.2 ⟨hn, (lt_iff_rank_lt hp).2 hjn, hp, ?_⟩, rfl⟩
    intro q hpq hqn hq
    exact hbetween _ (rank_lt_rank hp hpq) (rank_lt_rank hq hqn)
      (hlive.2 (Verifier.rank_lt_length hq))
  · rintro ⟨p, hprev, rfl⟩
    obtain ⟨-, hlt, hp, hbetween⟩ := prev?_eq_some_iff.1 hprev
    refine ⟨hlive.2 hrank, rank_lt_rank hp hlt, hlive.2 (Verifier.rank_lt_length hp), ?_⟩
    intro j hpj hjn hj
    obtain ⟨q, hq, rfl⟩ := Verifier.exists_rank_eq (hlive.1 hj)
    exact hbetween q ((lt_iff_rank_lt hp).2 hpj) ((lt_iff_rank_lt hq).2 hjn) hq

/-- In a stream that was renumbered the two ways to count agree. -/
theorem position_of_renumber (hs : s.renumber = s) (hn : s.isLive n) : s.position n = s.rank n := by
  conv => lhs; rw [← hs]
  exact position_renumber hn

/-- A range that is not empty has a handler in the method. -/
theorem Thins.handlerOf?_eq_some {r : HandlerRange} (h : s.Thins m)
    (htidy : ∀ h ∈ m.handlers, h.start < h.stop) (hr : r ∈ s.handlers) (hproper : r.isProper) :
    s.handlerOf? r =
      some ⟨s.rank r.start, (r.stop.map s.rank).getD s.length, s.rank r.entry, r.catchType⟩ := by
  have hlt : s.rank r.start < (r.stop.map s.rank).getD s.length := by
    cases hstop : r.stop with
    | none => exact Verifier.rank_lt_length (h.isClosed.start hr)
    | some k =>
        -- The range starts in front of its end, as the handler does.
        obtain ⟨keep, heq, -⟩ := h.handlers
        rw [heq] at hr
        obtain ⟨handler, hmem, rfl⟩ := List.mem_map.1 hr
        have hlt := htidy handler (List.mem_filter.1 hmem).1
        obtain ⟨hle, hk, -⟩ := firstFrom_eq_some_iff.1 hstop
        have hstart : s.ahead handler.start ≤ k := ahead_le_of_isLive (by omega) hk
        have hne : k ≠ s.ahead handler.start := by
          intro heq
          exact isProper_iff.1 hproper (hstop.trans (congrArg some heq))
        have hlive : s.isLive (s.ahead handler.start) :=
          h.isClosed.start (heq ▸ List.mem_map_of_mem hmem)
        have hlt' : s.ahead handler.start < k := by omega
        exact rank_lt_rank hlive hlt'
  rw [handlerOf?]
  exact if_pos hlt

/-- **A stream and the stream of its method differ in names only**, once
positions are counted. -/
theorem Thins.renames_flat (h : s.Thins m) (hf : s.Faithful m)
    (htidy : ∀ h ∈ m.handlers, h.start < h.stop) (hs : s.renumber = s) :
    Renames s.rank s (whole (s.flat m)) where
  closed := h.isClosed
  injective := rank_injective
  ids := by rw [ids_whole, length_flat, map_rank_ids]
  instruction := by
    intro n hn
    rw [instruction?_whole, getElem?_flat hn]
  position := by
    intro n hn
    rw [position_whole (length_flat.symm ▸ Verifier.rank_lt_length hn), position_of_renumber hs hn]
  prev := prev?_whole_rank
  handlers := by
    have hflat : (s.flat m).handlers = s.handlers.map fun r =>
        ⟨s.rank r.start, (r.stop.map s.rank).getD s.length, s.rank r.entry, r.catchType⟩ := by
      rw [← List.filterMap_eq_map]
      exact List.filterMap_congr fun r hr => h.handlerOf?_eq_some htidy hr (hf.proper htidy r hr)
    rw [whole, hflat, List.map_map]
    refine List.map_congr_left fun r hr => ?_
    simp only [Function.comp_apply, HandlerRange.rename, length_flat]
    cases hstop : r.stop with
    | none => simp
    | some k => simp [Verifier.rank_lt_length (h.isClosed.stop hr hstop)]

end CodeStream

end JvmOptimizer
