import JvmOptimizer.Proofs.DeadStore.Counters
import JvmOptimizer.Proofs.Fold.Counters
import JvmOptimizer.Proofs.Verifier.Optimize

/-!
# The edits of an optimization

Whatever the passes do, the method they leave is the given one with instructions
taken out and some of the rest exchanged. Which ones are kept says everything
else: a place that something refers to moves to the first kept instruction at or
behind it, and an exception handler goes if it has nothing left to protect.
-/

namespace JvmOptimizer

/-! ### Edited methods -/

/-- Where `kept` are the old places of `length` instructions, `place` is the new
place for an old one: that of the first instruction kept at or behind it. -/
structure Lands (kept : Nat → Nat) (length old place : Nat) : Prop where
  /-- The end of the method, if no instruction is kept there. -/
  le : place ≤ length
  before : ∀ k < place, kept k < old
  behind : ∀ k, place ≤ k → k < length → old ≤ kept k

namespace Handler

/-- Is one of the instructions kept that the handler protects? -/
def Protects (kept : Nat → Nat) (length : Nat) (h : Handler) : Prop :=
  ∃ k < length, h.start ≤ kept k ∧ kept k < h.stop

instance (kept : Nat → Nat) (length : Nat) (h : Handler) : Decidable (h.Protects kept length) :=
  inferInstanceAs (Decidable (∃ k < length, h.start ≤ kept k ∧ kept k < h.stop))

end Handler

/-- The method `new` is `old` with instructions taken out and others exchanged.
Its instruction at `k` stood at `kept k`, and `place` says where old places
went. -/
structure Edited (old new : Method) (kept place : Nat → Nat) : Prop where
  increasing : ∀ j k, j < k → k < new.code.length → kept j < kept k
  within : ∀ k < new.code.length, kept k < old.code.length
  lands : ∀ t, Lands kept new.code.length t (place t)
  instruction : ∀ k < new.code.length, ∃ x y, old.code[kept k]? = some x ∧
    new.code[k]? = some y ∧ (y = x.mapTargets place ∨ y.Replaces x)
  /-- No target leads over the end. -/
  target : ∀ insn ∈ new.code, ∀ t ∈ insn.targets, t < new.code.length
  handlers : new.handlers =
    (old.handlers.filter (·.Protects kept new.code.length)).map (·.move place)
  /-- No handler is over the end. -/
  entry : ∀ h ∈ new.handlers, h.entry < new.code.length

namespace CodeStream

variable {s : CodeStream} {m : Method} {n t k : Nat}

/-! ### The method of a stream -/

/-- The node that comes to stand at a place. -/
def kept (s : CodeStream) (k : Nat) : Nat := s.ids[k]?.getD 0

theorem isLive_kept (h : k < s.length) : s.isLive (s.kept k) ∧ s.rank (s.kept k) = k := by
  obtain ⟨n, hn, rfl⟩ := Verifier.exists_rank_eq h
  rw [kept, getElem?_ids hn]
  exact ⟨hn, rfl⟩

/-- Old places come to stand at their rank. -/
theorem lands_rank (t : Nat) : Lands s.kept s.length t (s.rank t) where
  le := rank_le_length t
  before := by
    intro k hk
    obtain ⟨hlive, hrank⟩ := isLive_kept (hk.trans_le (rank_le_length t))
    rwa [lt_iff_rank_lt hlive, hrank]
  behind := by
    intro k hle hk
    obtain ⟨hlive, hrank⟩ := isLive_kept hk
    rw [← Nat.not_lt, lt_iff_rank_lt hlive, hrank]
    omega

/-- A handler protects something as long as its range is not empty. -/
theorem protects_iff {h : Handler} :
    h.Protects s.kept s.length ↔ s.rank h.start < s.rank h.stop := by
  constructor
  · intro hp
    obtain ⟨k, hk, hstart, hstop⟩ := hp
    obtain ⟨hlive, -⟩ := isLive_kept hk
    exact (rank_mono hstart).trans_lt (rank_lt_rank hlive hstop)
  · intro hlt
    have hk : s.rank h.start < s.length := hlt.trans_le (rank_le_length _)
    exact ⟨s.rank h.start, hk, (lands_rank h.start).behind _ le_rfl hk,
      (lands_rank h.stop).before _ hlt⟩

theorem rank_firstFrom (t : Nat) : ((s.firstFrom t).map s.rank).getD s.length = s.rank t := by
  cases hf : s.firstFrom t with
  | none =>
      refine Nat.le_antisymm ?_ (rank_le_length t)
      rw [length_eq_rank]
      rcases Nat.le_total t s.nodes.size with hle | hle
      · exact (rank_eq_of_dead hle fun k hk _ => firstFrom_eq_none_iff.1 hf k hk).ge
      · exact rank_mono hle
  | some k =>
      obtain ⟨hle, -, hdead⟩ := firstFrom_eq_some_iff.1 hf
      exact (rank_eq_of_dead hle fun j hj => hdead j hj).symm

theorem handlerOf?_range {h : Handler} (hh : s.Holds h) : s.handlerOf? (s.range h) =
    if h.Protects s.kept s.length then some (h.move s.rank) else none := by
  have hstart : s.rank (s.range h).start = s.rank h.start :=
    rank_ahead (lt_size_of_ahead_lt hh.1).le
  have hentry : s.rank (s.range h).entry = s.rank h.entry :=
    rank_ahead (lt_size_of_ahead_lt hh.2).le
  simp only [handlerOf?, protects_iff, hstart, hentry]
  rw [show ((s.range h).stop.map s.rank).getD s.length = s.rank h.stop from rank_firstFrom h.stop]
  rfl

theorem not_protects_of_idle {h : Handler} (hi : s.Idle h) : ¬ h.Protects s.kept s.length := by
  intro hp
  obtain ⟨k, hk, hstart, hstop⟩ := hp
  exact hi _ hstart hstop (isLive_kept hk).1

theorem Thins.handlers_flat (h : s.Thins m) : (s.flat m).handlers =
    (m.handlers.filter (·.Protects s.kept s.length)).map (·.move s.rank) := by
  obtain ⟨keep, heq, hkeep⟩ := h.handlers
  have hmap : (m.handlers.filter (·.Protects s.kept s.length)).map (·.move s.rank) =
      m.handlers.filterMap fun r =>
        if r.Protects s.kept s.length then some (r.move s.rank) else none := by
    rw [← List.filterMap_eq_map, List.filterMap_filter]
    simp
  rw [flat, heq, List.filterMap_map, List.filterMap_filter, hmap]
  refine List.filterMap_congr fun r hr => ?_
  have hk := hkeep r hr
  split at hk
  · rename_i hkr
    rw [if_pos hkr, Function.comp_apply, handlerOf?_range hk]
  · rename_i hkr
    rw [if_neg hkr, if_neg (not_protects_of_idle hk)]

/-- Where the stream leads, its method leads, by places. -/
theorem Thins.mapTargets_rank {insn : Instruction Nat} (h : s.Thins m) (hn : s.isLive n)
    (hi : m.code[n]? = some insn) :
    (insn.mapTargets s.ahead).mapTargets s.rank = insn.mapTargets s.rank := by
  rw [Instruction.mapTargets_mapTargets]
  refine Instruction.mapTargets_congr fun t ht => ?_
  exact rank_ahead (lt_size_of_ahead_lt (h.target hn hi ht)).le

/-- **The method of a stream is an edited one.** -/
theorem Thins.edited (h : s.Thins m) (hf : s.Faithful m) :
    Edited m (s.flat m) s.kept s.rank := by
  have hlength : (s.flat m).code.length = s.length := length_flat
  refine ⟨?_, ?_, ?_, ?_, ?_, ?_, ?_⟩ <;> rw [hlength]
  · intro j k hjk hk
    obtain ⟨hlive, hrank⟩ := isLive_kept (hjk.trans hk)
    obtain ⟨-, hrank'⟩ := isLive_kept hk
    rw [lt_iff_rank_lt hlive, hrank, hrank']
    exact hjk
  -- Each node that is left stands at its rank, with the instruction it had or one that
  -- replaces it.
  · intro k hk
    rw [← h.size]
    exact lt_size_of_isLive (isLive_kept hk).1
  · exact lands_rank
  · intro k hk
    obtain ⟨hlive, hrank⟩ := isLive_kept hk
    obtain ⟨x, hx⟩ := h.exists_code hlive
    obtain ⟨y, hy, hor⟩ := hf.instruction h hlive hx
    refine ⟨x, y.mapTargets s.rank, hx, ?_, ?_⟩
    · conv => lhs; rw [← hrank]
      rw [getElem?_flat hlive, hy]
      rfl
    · rcases hor with rfl | hr
      · exact .inl (h.mapTargets_rank hlive hx)
      · rw [Instruction.mapTargets_of_targets_eq_nil hr.targets_eq_nil]
        exact .inr hr
  · intro insn hmem t ht
    obtain ⟨k, hk⟩ := List.getElem?_of_mem hmem
    obtain ⟨n, x, hn, -, hx, rfl⟩ := Verifier.exists_of_getElem?_flat hk
    rw [Instruction.targets_mapTargets] at ht
    obtain ⟨u, hu, rfl⟩ := List.mem_map.1 ht
    rw [← targets_of_instruction? hx] at hu
    exact Verifier.rank_lt_length (h.isClosed.target hn hu)
  · exact h.handlers_flat
  · intro r hr
    obtain ⟨range, hrange, hsome⟩ := List.mem_filterMap.1 hr
    have hentry := Verifier.rank_lt_length (h.isClosed.entry hrange)
    unfold handlerOf? at hsome
    dsimp only at hsome
    split at hsome
    · cases hsome
      exact hentry
    · cases hsome

end CodeStream

/-! ### Passes -/

namespace Method

open CodeStream

variable {π : Type} [Pool π] {pool : π} {m : Method} {s s' : CodeStream} {settings : Settings}
  {stats : OptimizeStats} {o : Optimized}

theorem sameBody_iff {a b : Method} :
    a.sameBody b ↔ a.code = b.code ∧ a.handlers = b.handlers := by
  simp [sameBody]

/-- The first pass, if it is asked for. -/
def foldPass (settings : Settings) (s : CodeStream) :
    Except OptimizeError Fold.Stats × CodeStream :=
  if settings.foldConstants then s.fold s.loops else (.ok {}, s)

/-- The second pass, if it is asked for. -/
def deadStorePass (settings : Settings) (s : CodeStream) :
    Except OptimizeError DeadStore.Stats × CodeStream :=
  if settings.removeDeadStores then s.removeDeadStores settings.deadStoreRounds else (.ok {}, s)

theorem runPasses_eq : runPasses settings s =
    (foldPass settings s).1 >>= fun fold =>
      (deadStorePass settings (foldPass settings s).2).1 >>= fun deadStores =>
        .ok (⟨fold, deadStores⟩, (deadStorePass settings (foldPass settings s).2).2) := by
  unfold runPasses foldPass deadStorePass
  cases settings.foldConstants <;> cases settings.removeDeadStores <;> rfl

/-- The passes succeed if each does. -/
theorem runPasses_eq_ok : runPasses settings s = .ok (stats, s') ↔ ∃ mid,
    foldPass settings s = (.ok stats.fold, mid) ∧
      deadStorePass settings mid = (.ok stats.deadStores, s') := by
  obtain ⟨fold, deadStores⟩ := stats
  rw [runPasses_eq]
  rcases foldPass settings s with ⟨_ | fold', mid⟩
  · constructor
    · intro h
      cases h
    · rintro ⟨mid, h, -⟩
      cases h
  · rcases hd : deadStorePass settings mid with ⟨_ | deadStores', s''⟩
    · constructor
      · intro h
        cases h
      · rintro ⟨mid, h, h'⟩
        cases h
        rw [hd] at h'
        cases h'
    · constructor
      · intro h
        cases h
        exact ⟨mid, rfl, hd⟩
      · rintro ⟨mid, h, h'⟩
        cases h
        rw [hd] at h'
        cases h'
        rfl

/-- What the first pass leaves of a method, with what it counts. -/
theorem thins_foldPass {fold : Fold.Stats} (hm : m.IsClosed)
    (h : foldPass settings (whole m) = (.ok fold, s)) :
    s.Thins m ∧ s.Faithful m ∧ s.length + fold.deleted = m.code.length := by
  have hof : ofMethod m = .ok (whole m) := ofMethod_eq_ok_iff.2 ⟨hm, rfl⟩
  unfold foldPass at h
  split at h
  · obtain ⟨R, hR⟩ := Fold.exists_run hof h
    refine ⟨?_, Fold.faithful_fold hof h, Fold.length_fold hof h⟩
    rw [hR]
    exact (R.sound le_rfl).trimmed.thins.renumber
  · cases h
    exact ⟨thins_whole hm, faithful_whole, length_whole⟩

/-- What the passes leave of a method, with what they count. -/
theorem thins_runPasses (hm : m.IsClosed) (h : runPasses settings (whole m) = .ok (stats, s)) :
    s.Thins m ∧ s.Faithful m ∧
      s.length + stats.fold.deleted + 2 * (stats.deadStores.removed + stats.deadStores.pairs) =
        m.code.length := by
  obtain ⟨mid, hfold, hstores⟩ := runPasses_eq_ok.1 h
  obtain ⟨fold, deadStores⟩ := stats
  obtain ⟨hthins, hfaithful, hlength⟩ := thins_foldPass hm hfold
  unfold deadStorePass at hstores
  split at hstores
  · obtain ⟨hthins', hfaithful'⟩ :=
      DeadStore.faithful_removeDeadStores hthins hfaithful hstores
    have hremoved := DeadStore.length_removeDeadStores hstores
    refine ⟨hthins', hfaithful', ?_⟩
    dsimp only at hlength hremoved ⊢
    omega
  · cases hstores
    exact ⟨hthins, hfaithful, hlength⟩

/-- Optimization fails if a pass does. -/
theorem optimize_eq_error {e : OptimizeError} (hm : m.IsClosed)
    (hp : runPasses settings (whole m) = .error e) : m.optimize pool settings = .error e := by
  have hof : ofMethod m = .ok (whole m) := ofMethod_eq_ok_iff.2 ⟨hm, rfl⟩
  unfold optimize
  simp only [hof, orDangling, Except.mapError, bind, Except.bind, hp]

/-- Optimization succeeds if the method is closed and the passes succeed. -/
theorem optimize_eq_ok : m.optimize pool settings = .ok o ↔
    m.IsClosed ∧ ∃ s, runPasses settings (whole m) = .ok (o.stats, s) ∧
      o.changed = !(s.flat m).sameBody m ∧
      o.method = if o.changed then (s.flat m).resize pool else s.flat m := by
  have hresult : ∀ {stats s}, m.IsClosed → runPasses settings (whole m) = .ok (stats, s) →
      m.optimize pool settings = .ok ⟨if !(s.flat m).sameBody m then (s.flat m).resize pool
        else s.flat m, !(s.flat m).sameBody m, stats⟩ := by
    intro stats s hm hp
    exact Verifier.optimize_eq_ok hm hp (thins_runPasses hm hp).1.isClosed
  obtain ⟨method, changed, stats⟩ := o
  constructor
  · intro h
    cases hs : ofMethod m with
    | error e =>
        unfold optimize at h
        rw [hs] at h
        cases h
    | ok s₀ =>
        obtain ⟨hm, rfl⟩ := ofMethod_eq_ok_iff.1 hs
        cases hp : runPasses settings (whole m) with
        | error e =>
            rw [optimize_eq_error hm hp] at h
            cases h
        | ok p =>
            obtain ⟨stats', s⟩ := p
            rw [hresult hm hp] at h
            cases h
            exact ⟨hm, s, rfl, rfl, rfl⟩
  · rintro ⟨hm, s, hp, hchanged, hmethod⟩
    dsimp only at hp hchanged hmethod
    rw [hchanged] at hmethod
    rw [hresult hm hp, hmethod, hchanged]

/-- Limits are of no concern to the edits. -/
theorem edited_resize {kept place : Nat → Nat} {new : Method} (h : Edited m new kept place) :
    Edited m (new.resize pool) kept place :=
  ⟨h.increasing, h.within, h.lands, h.instruction, h.target, h.handlers, h.entry⟩

/-- The result of an optimization is the method of the stream that the passes
leave, up to its limits. -/
theorem exists_passes (h : m.optimize pool settings = .ok o) :
    ∃ s, m.IsClosed ∧ runPasses settings (whole m) = .ok (o.stats, s) ∧
      o.method.code.length = s.length ∧ Edited m o.method s.kept s.rank := by
  obtain ⟨hm, s, hp, -, hmethod⟩ := optimize_eq_ok.1 h
  obtain ⟨hthins, hfaithful, -⟩ := thins_runPasses hm hp
  have hedited := hthins.edited hfaithful
  have hlength : (s.flat m).code.length = s.length := length_flat
  refine ⟨s, hm, hp, ?_⟩
  rw [hmethod]
  split
  · exact ⟨hlength, edited_resize hedited⟩
  · exact ⟨hlength, hedited⟩

/-- **The law of all edits.** Where an optimization succeeds, its result is the
given method with instructions taken out. Each of the rest is what it was, up to
targets, or a constant of the kind that it pushed, or the discard of a value that
it stored. Targets and handlers lead to what is left at or behind the old place,
and the counters say how many instructions are missing. -/
theorem optimize_edited (h : m.optimize pool settings = .ok o) :
    ∃ kept place, Edited m o.method kept place ∧
      o.method.code.length + o.stats.fold.deleted +
        2 * (o.stats.deadStores.removed + o.stats.deadStores.pairs) = m.code.length := by
  obtain ⟨s, hm, hp, hlength, hedited⟩ := exists_passes h
  refine ⟨s.kept, s.rank, hedited, ?_⟩
  rw [hlength]
  exact (thins_runPasses hm hp).2.2

/-- A folded sum that nobody reads, a computed value that nobody reads, and a
branch that is always taken, over an instruction with a handler of its own. -/
def idleSums : Method where
  code := [
    .const (.int 2), .const (.int 3), .arith .add .int, .store (.number .int) 1,
    .load (.number .int) 0, .const (.int 1), .arith .add .int, .store (.number .int) 2,
    .const (.int 0), .branch (.zero .eq) 11, .verbatim 0x00 [], .verbatim 0xb1 [],
    .verbatim 0xbf []]
  handlers := [⟨10, 11, 12, 0⟩, ⟨4, 8, 12, 0⟩]
  parameterSlots := 1

theorem optimize_edited_idleSums : ∃ o, idleSums.optimize ({} : LiteralPool) {} = .ok o ∧
    o.method.code = [.load (.number .int) 0, .const (.int 1), .arith .add .int,
      .verbatim Opcode.pop [], .verbatim 0xb1 [], .verbatim 0xbf []] ∧
    o.method.handlers = [⟨0, 4, 5, 0⟩] ∧
    ∃ kept place, Edited idleSums o.method kept place ∧
      o.method.code.length + o.stats.fold.deleted +
        2 * (o.stats.deadStores.removed + o.stats.deadStores.pairs) = idleSums.code.length := by
  have h : (idleSums.optimize ({} : LiteralPool) {}).toOption.map
      (fun o => (o.method.code, o.method.handlers)) =
        some ([.load (.number .int) 0, .const (.int 1), .arith .add .int,
          .verbatim Opcode.pop [], .verbatim 0xb1 [], .verbatim 0xbf []], [⟨0, 4, 5, 0⟩]) := by cbv
  cases hr : idleSums.optimize ({} : LiteralPool) {} with
  | error e =>
      rw [hr] at h
      cases h
  | ok o =>
      rw [hr] at h
      obtain ⟨hcode, hhandlers⟩ := Prod.mk.inj (Option.some.inj h)
      exact ⟨o, rfl, hcode, hhandlers, optimize_edited hr⟩

end Method

end JvmOptimizer
