import JvmOptimizer.Proofs.DeadStore.Quiet
import JvmOptimizer.Proofs.Optimize.Edits

/-!
# Optimizing again

A method is `Settled` if an optimization leaves it as it is. The result of an
optimization need not be settled: folding comes first, and what dead store
elimination takes out may have been in its way.

That is the only reason, though. Dead store elimination leaves nothing to do for
another run of itself, as long as it has come to an end before its limit, and the
way through the method and back does not give it new opportunities.
-/

namespace JvmOptimizer

namespace CodeStream

variable {s s' : CodeStream} {m : Method} {n t : Nat}

/-- A method is counted to begin with. -/
@[simp]
theorem renumber_whole : (whole m).renumber = whole m := by
  have hnumber : ∀ (l : List (Instruction Nat)) (k : Nat),
      numberFrom k ((l.zipIdx k).map fun p => ⟨p.1, p.2, true⟩) =
        (l.zipIdx k).map fun p => ⟨p.1, p.2, true⟩ := by
    intro l
    induction l with
    | nil => exact fun k => rfl
    | cons insn l ih =>
        intro k
        simp [List.zipIdx_cons, numberFrom, ih]
  simp only [renumber, whole, hnumber]

/-- Where nothing is deleted, every node is live. -/
theorem isLive_iff_of_length (h : s.length = s.nodes.size) : s.isLive n ↔ n < s.nodes.size := by
  refine ⟨lt_size_of_isLive, fun hn => ?_⟩
  have hall := List.length_filter_eq_length_iff.1 (h.trans List.length_range.symm)
  exact hall n (List.mem_range.2 hn)

theorem rank_congr (h : ∀ n, s'.isLive n = s.isLive n) : s'.rank = s.rank := by
  funext t
  exact List.countP_congr fun n _ => by rw [h]

theorem rank_eq_self (h : s.length = s.nodes.size) (ht : t ≤ s.nodes.size) : s.rank t = t := by
  rw [rank, List.countP_eq_length.2 fun n hn => ?_, List.length_range]
  exact (isLive_iff_of_length h).2 ((List.mem_range.1 hn).trans_le ht)

/-- A stream that lacks nothing and exchanges nothing has the method's code. -/
theorem Thins.code_flat (h : s.Thins m) (hlength : s.length = s.nodes.size)
    (hsame : ∀ {n insn}, m.code[n]? = some insn → insn.targets = [] →
      s.instruction? n = some insn) : (s.flat m).code = m.code := by
  have hlength' : (s.flat m).code.length = m.code.length := by
    rw [length_flat, hlength, h.size]
  refine List.ext_getElem? fun n => ?_
  by_cases hn : n < m.code.length
  · have hlive : s.isLive n := (isLive_iff_of_length hlength).2 (h.size.symm ▸ hn)
    obtain ⟨insn, hi⟩ := h.exists_code hlive
    have hnow : s.instruction? n = some (insn.mapTargets s.ahead) := by
      by_cases ht : insn.targets = []
      · rw [hsame hi ht, Instruction.mapTargets_of_targets_eq_nil ht]
      · exact h.instruction_of_targets hlive hi ht
    have hget := getElem?_flat (m := m) hlive
    rw [rank_eq_self hlength (h.size.symm ▸ hn.le), hnow, Option.map_some,
      h.mapTargets_rank hlive hi, Instruction.mapTargets_eq_self] at hget
    · rw [hget, hi]
    · intro t ht
      exact rank_eq_self hlength (lt_size_of_ahead_lt (h.target hlive hi ht)).le
  · rw [List.getElem?_eq_none (by omega), List.getElem?_eq_none (by omega)]

theorem start_lt_stop_flat : ∀ h ∈ (s.flat m).handlers, h.start < h.stop := by
  intro h hmem
  obtain ⟨r, -, hr⟩ := List.mem_filterMap.1 hmem
  unfold handlerOf? at hr
  dsimp only at hr
  split at hr
  · cases hr
    assumption
  · cases hr

end CodeStream

namespace Method

open CodeStream DeadStore

variable {π : Type} [Pool π] {pool : π} {m : Method} {s mid : CodeStream} {settings : Settings}
  {stats : OptimizeStats} {o : Optimized}

/-! ### Settled methods -/

/-- An optimization succeeds and leaves the body as it is. -/
def Settled (pool : π) (settings : Settings) (m : Method) : Prop :=
  ∃ o, m.optimize pool settings = .ok o ∧ o.changed = false ∧ o.method.sameBody m

theorem settled_iff : m.Settled pool settings ↔
    m.IsClosed ∧ ∃ stats s, runPasses settings (whole m) = .ok (stats, s) ∧
      (s.flat m).sameBody m := by
  constructor
  · rintro ⟨o, ho, hchanged, -⟩
    obtain ⟨hm, s, hp, heq, -⟩ := optimize_eq_ok.1 ho
    rw [hchanged] at heq
    exact ⟨hm, o.stats, s, hp, by simpa using heq.symm⟩
  · rintro ⟨hm, stats, s, hp, hsame⟩
    have ho : m.optimize pool settings = _ :=
      Verifier.optimize_eq_ok hm hp (thins_runPasses hm hp).1.isClosed
    rw [hsame] at ho
    exact ⟨_, ho, rfl, hsame⟩

/-- The stream of a method is that of its body. -/
theorem whole_congr {a b : Method} (h : a.sameBody b) : whole a = whole b := by
  obtain ⟨hcode, hhandlers⟩ := sameBody_iff.1 h
  rw [whole, whole, hcode, hhandlers]

/-- Folding alone. -/
abbrev foldingOnly (settings : Settings) : Settings := { settings with removeDeadStores := false }

theorem runPasses_foldingOnly {fold : Fold.Stats} (h : foldPass settings s = (.ok fold, mid)) :
    runPasses (foldingOnly settings) s = .ok (⟨fold, {}⟩, mid) :=
  runPasses_eq_ok.2 ⟨mid, h, rfl⟩

theorem foldPass_of_foldingOnly (h : runPasses (foldingOnly settings) s = .ok (stats, mid)) :
    foldPass settings s = (.ok stats.fold, mid) := by
  obtain ⟨other, hf, hd⟩ := runPasses_eq_ok.1 h
  obtain rfl : other = mid := congrArg Prod.snd hd
  exact hf

theorem renumber_foldPass {fold : Fold.Stats}
    (h : foldPass settings (whole m) = (.ok fold, mid)) : mid.renumber = mid := by
  unfold foldPass at h
  split at h
  · rw [CodeStream.fold] at h
    split at h
    · cases h
      exact renumber_renumber
    · cases h
  · cases h
    exact renumber_whole

theorem instruction?_deadStorePass {stats : DeadStore.Stats} {n : Nat} {insn : Instruction Nat}
    (ht : mid.Thins m) (h : deadStorePass settings mid = (.ok stats, s))
    (hi : mid.instruction? n = some insn) (htargets : insn.targets = [])
    (hstore : ∀ kind index, insn ≠ .store kind index) : s.instruction? n = some insn := by
  unfold deadStorePass at h
  split at h
  · exact instruction?_removeDeadStores ht h hi htargets hstore
  · cases h
    exact hi

/-- Folding has nothing to do in a settled method. -/
theorem Settled.foldingOnly (h : m.Settled pool settings) :
    m.Settled pool (foldingOnly settings) := by
  rw [settled_iff] at h ⊢
  obtain ⟨hm, stats, s, hp, hsame⟩ := h
  obtain ⟨mid, hfold, hstores⟩ := runPasses_eq_ok.1 hp
  have hp' := runPasses_foldingOnly hfold
  refine ⟨hm, _, mid, hp', ?_⟩
  obtain ⟨hcode, hhandlers⟩ := sameBody_iff.1 hsame
  obtain ⟨hthins, hfaithful, hcount⟩ := thins_runPasses hm hp
  obtain ⟨hthins', hfaithful', hcount'⟩ := thins_runPasses hm hp'
  -- Nothing is deleted, neither in the end nor in between.
  have hlength : s.length = s.nodes.size := by
    rw [hthins.size, ← hcode, length_flat]
  have hlength' : mid.length = mid.nodes.size := by
    rw [hthins.size] at hlength
    rw [hthins'.size]
    dsimp only at hcount'
    omega
  have hlive : ∀ n, mid.isLive n = s.isLive n := by
    intro n
    rw [Bool.eq_iff_iff, isLive_iff_of_length hlength, isLive_iff_of_length hlength', hthins.size,
      hthins'.size]
  have hids : mid.ids = s.ids := ids_congr (hthins'.size.trans hthins.size.symm) hlive
  have hkept : mid.kept = s.kept := by
    funext k
    rw [kept, kept, hids]
  rw [sameBody_iff]
  refine ⟨hthins'.code_flat hlength' fun {n insn} hi ht => ?_, ?_⟩
  · obtain ⟨x, hx, rfl | hr⟩ := hfaithful'.exchanged hi ht
    · exact hx
    · -- What folding has exchanged is not brought back.
      have hn : n < m.code.length := (List.getElem?_eq_some_iff.1 hi).1
      have hnow := instruction?_deadStorePass hthins' hstores hx hr.targets_eq_nil hr.ne_store
      have hget := getElem?_flat (m := m) ((isLive_iff_of_length hlength).2 (hthins.size.symm ▸ hn))
      rw [rank_eq_self hlength (hthins.size.symm ▸ hn.le), hnow, Option.map_some, hcode, hi,
        Instruction.mapTargets_of_targets_eq_nil hr.targets_eq_nil] at hget
      exact absurd (Option.some.inj hget).symm hr.ne
  · rw [hthins'.handlers_flat, hkept, rank_congr hlive, show mid.length = s.length by
      rw [hlength', hlength, hthins.size, hthins'.size], ← hthins.handlers_flat]
    exact hhandlers

/-- Where dead store elimination has nothing to do, folding decides. -/
theorem Settled.of_foldingOnly (h : m.Settled pool (Method.foldingOnly settings))
    (htidy : ∀ h ∈ m.handlers, h.start < h.stop)
    (hquiet : settings.removeDeadStores → Quiet (whole m)) : m.Settled pool settings := by
  rw [settled_iff] at h ⊢
  obtain ⟨hm, stats, mid, hp, hsame⟩ := h
  obtain ⟨hthins, hfaithful, -⟩ := thins_runPasses hm hp
  have hfold := foldPass_of_foldingOnly hp
  obtain ⟨deadStores, hstores⟩ : ∃ deadStores,
      deadStorePass settings mid = (.ok deadStores, mid) := by
    unfold deadStorePass
    split
    · rename_i hd
      have hs := renumber_foldPass hfold
      have hmid : Quiet mid := by
        rw [← quiet_rename_iff (hthins.renames_flat hfaithful htidy hs), whole_congr hsame]
        exact hquiet hd
      exact hmid.removeDeadStores hs _
    · exact ⟨{}, rfl⟩
  exact ⟨hm, ⟨stats.fold, deadStores⟩, mid, runPasses_eq_ok.2 ⟨mid, hfold, hstores⟩, hsame⟩

/-! ### The result of an optimization -/

/-- Dead store elimination has nothing to do in the result, unless it ran into its
limit. -/
theorem quiet_optimize (htidy : ∀ h ∈ m.handlers, h.start < h.stop)
    (h : m.optimize pool settings = .ok o) (hd : settings.removeDeadStores)
    (hrounds : o.stats.deadStores.rounds < settings.deadStoreRounds) :
    Quiet (whole o.method) := by
  obtain ⟨hm, s, hp, -, hmethod⟩ := optimize_eq_ok.1 h
  obtain ⟨hthins, hfaithful, -⟩ := thins_runPasses hm hp
  obtain ⟨mid, -, hstores⟩ := runPasses_eq_ok.1 hp
  unfold deadStorePass at hstores
  rw [if_pos hd] at hstores
  obtain ⟨hquiet, hs⟩ := quiet_removeDeadStores hstores hrounds
  have hbody : o.method.sameBody (s.flat m) := by
    rw [hmethod, sameBody_iff]
    split <;> exact ⟨rfl, rfl⟩
  rw [whole_congr hbody, quiet_rename_iff (hthins.renames_flat hfaithful htidy hs)]
  exact hquiet

theorem start_lt_stop_optimize (h : m.optimize pool settings = .ok o) :
    ∀ r ∈ o.method.handlers, r.start < r.stop := by
  obtain ⟨-, s, -, -, hmethod⟩ := optimize_eq_ok.1 h
  have hhandlers : o.method.handlers = (s.flat m).handlers := by
    rw [hmethod]
    split <;> rfl
  rw [hhandlers]
  exact start_lt_stop_flat

/-- **When a second run finds nothing to do.** Let a method have no empty protected
ranges, and let dead store elimination come to its end before the limit of rounds.
Then a second optimization of the result succeeds and leaves it as it is if, and
only if, folding alone does. -/
theorem optimize_settled_iff (htidy : ∀ h ∈ m.handlers, h.start < h.stop)
    (h : m.optimize pool settings = .ok o)
    (hrounds : settings.removeDeadStores →
      o.stats.deadStores.rounds < settings.deadStoreRounds) :
    o.method.Settled pool settings ↔
      o.method.Settled pool { settings with removeDeadStores := false } := by
  constructor
  · exact Settled.foldingOnly
  · intro hfold
    exact hfold.of_foldingOnly (start_lt_stop_optimize h) fun hd =>
      quiet_optimize htidy h hd (hrounds hd)

/-- The result for the idle sums is settled, since folding has nothing to do in
it. -/
theorem optimize_settled_iff_idleSums : (∀ h ∈ idleSums.handlers, h.start < h.stop) ∧
    ∃ o, idleSums.optimize ({} : LiteralPool) {} = .ok o ∧ o.stats.deadStores.rounds < 64 ∧
      o.changed = true ∧ o.method.Settled ({} : LiteralPool) {} := by
  have htidy : ∀ h ∈ idleSums.handlers, h.start < h.stop := by decide
  have h : (idleSums.optimize ({} : LiteralPool) {}).toOption.bind (fun o =>
      (o.method.optimize ({} : LiteralPool) { removeDeadStores := false }).toOption.map fun o' =>
        (o.changed, o.stats.deadStores.rounds, o'.changed, o'.method.sameBody o.method)) =
      some (true, 2, false, true) := by cbv
  refine ⟨htidy, ?_⟩
  cases ho : idleSums.optimize ({} : LiteralPool) {} with
  | error e =>
      rw [ho] at h
      cases h
  | ok o =>
      rw [ho] at h
      change Option.map _ _ = _ at h
      cases ho' : o.method.optimize ({} : LiteralPool) { removeDeadStores := false } with
      | error e =>
          rw [ho'] at h
          cases h
      | ok o' =>
          rw [ho'] at h
          simp only [Except.toOption, Option.map_some, Option.some.injEq, Prod.mk.injEq] at h
          obtain ⟨hchanged, hrounds, hchanged', hsame⟩ := h
          have hlt : o.stats.deadStores.rounds < 64 := by omega
          exact ⟨o, rfl, hlt, hchanged,
            (optimize_settled_iff htidy ho fun _ => hlt).2 ⟨o', ho', hchanged', hsame⟩⟩

/-- A sum whose operands are pushed around a push that is discarded. Folding
forgets the operands at the discard, and then the discard goes. -/
def shieldedSum : Method where
  code := [.const (.int 1), .const (.int 7), .verbatim Opcode.pop [], .const (.int 2),
    .arith .add .int, .verbatim 0xac []]
  maxStack := 2

/-- **A second run may find something to do.** -/
theorem optimize_not_settled_shieldedSum :
    ∃ o, shieldedSum.optimize ({} : LiteralPool) {} = .ok o ∧
      o.method.code = [.const (.int 1), .const (.int 2), .arith .add .int, .verbatim 0xac []] ∧
      ¬ o.method.Settled ({} : LiteralPool) {} := by
  have h : (shieldedSum.optimize ({} : LiteralPool) {}).toOption.bind (fun o =>
      (o.method.optimize ({} : LiteralPool) {}).toOption.map fun o' =>
        (o.method.code, o'.changed)) =
      some ([.const (.int 1), .const (.int 2), .arith .add .int, .verbatim 0xac []], true) := by
    cbv
  cases ho : shieldedSum.optimize ({} : LiteralPool) {} with
  | error e =>
      rw [ho] at h
      cases h
  | ok o =>
      rw [ho] at h
      change Option.map _ _ = _ at h
      cases ho' : o.method.optimize ({} : LiteralPool) {} with
      | error e =>
          rw [ho'] at h
          cases h
      | ok o' =>
          rw [ho'] at h
          obtain ⟨hcode, hchanged⟩ := Prod.mk.inj (Option.some.inj h)
          refine ⟨o, rfl, hcode, fun hsettled => ?_⟩
          obtain ⟨other, hother, hunchanged, -⟩ := hsettled
          rw [ho'] at hother
          cases hother
          rw [hchanged] at hunchanged
          cases hunchanged

end Method

end JvmOptimizer
