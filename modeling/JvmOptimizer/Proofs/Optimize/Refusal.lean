import JvmOptimizer.Proofs.Fold.Failure
import JvmOptimizer.Proofs.Optimize.WellFormed

/-!
# Why an optimization is refused

A deletion fails if it would leave a reference behind the end of the stream. If
control cannot run over the end of a method, that never happens: the last
instruction stays, and whatever is deleted lies in front of it. What is left to fail
is the simulation of the operand stack by the folding pass, which has its reasons
whether the method could be verified or not (`Method.Refuses`).
-/

namespace JvmOptimizer

open CodeStream

namespace DeadStore

variable {m : Method} {s : CodeStream} {n : Nat} {insn : Instruction Nat}

/-- In front of an instruction that stays, every pair that is of no use can go. -/
theorem not_stuck_of_ending (ht : s.Thins m) (hf : s.Faithful m) (hlast : n + 1 = m.code.length)
    (hx : m.code[n]? = some insn) (hends : insn.fallsThrough = false) (hn : s.isLive n) :
    ¬ Stuck s := by
  refine not_stuck_of_behind fun {push take} hspare => ⟨n, hn, ?_⟩
  obtain ⟨y, hy, hfalls⟩ := exists_ending ht hf hx hends hn
  have hlt : take < m.code.length := ht.size ▸ lt_size_of_isLive hspare.behind.isLive.2.1
  have hne : take ≠ n := by
    intro heq
    have hthrough := hspare.fallsThrough (List.mem_pair.2 (.inr heq.symm)) hy
    rw [hfalls] at hthrough
    cases hthrough
  omega

theorem exists_removeDeadStores_of_ending (ht : s.Thins m) (hf : s.Faithful m)
    (hlast : n + 1 = m.code.length) (hx : m.code[n]? = some insn)
    (hends : insn.fallsThrough = false) (hn : s.isLive n) (limit : Nat) :
    ∃ stats s', s.removeDeadStores limit = (.ok stats, s') := by
  have hleads := leads_removeDeadStores ht limit
  rcases hr : s.removeDeadStores limit with ⟨e | stats, s'⟩
  · rw [hr] at hleads
    obtain ⟨t, hedits, hstuck⟩ := hleads
    obtain ⟨ht', hf', hn'⟩ := isLive_of_edits hedits ht hf hx hends hn
    exact absurd hstuck (not_stuck_of_ending ht' hf' hlast hx hends hn')
  · exact ⟨stats, s', rfl⟩

end DeadStore

namespace Method

variable {π : Type} [Pool π] {pool : π} {m : Method} {s : CodeStream} {settings : Settings}
  {e : OptimizeError} {n : Nat} {insn : Instruction Nat}

/-- The errors that tell why a method is not optimized. Both point to an instruction
of the method. -/
inductive Refuses (m : Method) : OptimizeError → Prop
  /-- There is an instruction of a subroutine. -/
  | unsupported {n : Nat} {opcode : Opcode} {bytes : Bytes}
      (hi : m.code[n]? = some (.verbatim opcode bytes)) (hs : opcode.isSubroutine) :
      Refuses m (.unsupportedInstruction opcode n)
  /-- The simulated stack does not serve an instruction. -/
  | inconsistent {n : Nat} (hn : n < m.code.length) : Refuses m (.inconsistentStack n)

theorem refuses_of_fold (hm : m.IsClosed) (hends : m.endsFlow)
    (h : (whole m).fold (whole m).loops = (.error e, s)) : m.Refuses e := by
  obtain ⟨n, last, hlast, hx, hfalls⟩ := endsFlow_iff.1 hends
  refine Fold.error_of_fold hm (fun {i σ} hσ hlive => ?_) h
  obtain ⟨insn, hi⟩ := hσ.trimmed.thins.exists_code hlive
  have hlt := hσ.trimmed.lt_length hlive
  have hnext : insn.fallsThrough → i + 1 < m.code.length := by
    intro hthrough
    by_contra hge
    obtain rfl : i = n := by omega
    rw [hi] at hx
    cases hx
    rw [hfalls] at hthrough
    cases hthrough
  refine Fold.failsWith_visit _ hσ hm hlive hi hnext (fun _ => .inconsistent hlt) ?_
  intro opcode bytes heq hs
  exact .unsupported (heq ▸ hi) hs

/-- The second pass does not fail behind the first one. -/
theorem exists_deadStorePass {fold : Fold.Stats} (hm : m.IsClosed) (hends : m.endsFlow)
    (h : foldPass settings (whole m) = (.ok fold, s)) :
    ∃ stats s', deadStorePass settings s = (.ok stats, s') := by
  obtain ⟨n, last, hlast, hx, hfalls⟩ := endsFlow_iff.1 hends
  obtain ⟨hthins, hfaithful, -⟩ := thins_foldPass hm h
  unfold deadStorePass
  split
  · exact DeadStore.exists_removeDeadStores_of_ending hthins hfaithful hlast hx hfalls
      (isLive_foldPass hm h hlast hx hfalls) _
  · exact ⟨_, _, rfl⟩

/-- The method of a stream ends with the last instruction, if that one stays. -/
theorem endsFlow_flat (ht : s.Thins m) (hf : s.Faithful m) (hlast : n + 1 = m.code.length)
    (hx : m.code[n]? = some insn) (hends : insn.fallsThrough = false) (hn : s.isLive n) :
    (s.flat m).endsFlow := by
  obtain ⟨y, hy, hfalls⟩ := DeadStore.exists_ending ht hf hx hends hn
  refine endsFlow_iff.2 ⟨s.rank n, y.mapTargets s.rank, ?_, ?_, ?_⟩
  · rw [length_flat, length_eq_rank, ht.size, ← hlast, rank_succ, if_pos hn]
  · rw [getElem?_flat hn, hy]
    rfl
  · rw [Instruction.fallsThrough_mapTargets]
    exact hfalls

/-- **Optimization leaves nothing dangling.** A method that can be turned into a
stream and over whose end control cannot run, verified or not, is optimized to one of
the same kind, or else folding refuses it for one of two reasons: it has a subroutine,
or an instruction that the simulated stack does not serve. -/
theorem optimize_endsFlow_or_refuses (hs : ofMethod m = .ok s) (hends : m.endsFlow) (pool : π)
    (settings : Settings) :
    (∃ o, m.optimize pool settings = .ok o ∧ o.method.endsFlow) ∨
      settings.foldConstants ∧ ∃ e, m.optimize pool settings = .error e ∧ m.Refuses e := by
  obtain ⟨hm, rfl⟩ := ofMethod_eq_ok_iff.1 hs
  obtain ⟨n, last, hlast, hx, hfalls⟩ := endsFlow_iff.1 hends
  rcases hfold : foldPass settings (whole m) with ⟨e | fold, mid⟩
  · right
    have hpasses : runPasses settings (whole m) = .error e := by
      rw [runPasses_eq, hfold]
      rfl
    unfold foldPass at hfold
    split at hfold
    · rename_i hasked
      exact ⟨hasked, e, optimize_eq_error hm hpasses, refuses_of_fold hm hends hfold⟩
    · cases hfold
  · left
    obtain ⟨stores, s, hstores⟩ := exists_deadStorePass hm hends hfold
    have hpasses : runPasses settings (whole m) = .ok (⟨fold, stores⟩, s) :=
      runPasses_eq_ok.2 ⟨mid, hfold, hstores⟩
    obtain ⟨hthins, hfaithful, -⟩ := thins_runPasses hm hpasses
    have hlive := isLive_runPasses hm hpasses hlast hx hfalls
    have hflat := endsFlow_flat hthins hfaithful hlast hx hfalls hlive
    refine ⟨_, Verifier.optimize_eq_ok hm hpasses hthins.isClosed, ?_⟩
    dsimp only
    split
    · exact hflat
    · exact hflat

/-- A sum that lacks an operand, so that it cannot be verified. -/
def halfSum : Method where
  code := [.const (.int 1), .arith .add .int, .verbatim 0xac []]

theorem optimize_endsFlow_or_refuses_halfSum :
    halfSum.endsFlow ∧
      halfSum.optimize ({} : LiteralPool) {} = .error (.inconsistentStack 1) ∧
      halfSum.Refuses (.inconsistentStack 1) := by
  have herror : halfSum.optimize ({} : LiteralPool) {} = .error (.inconsistentStack 1) := by cbv
  refine ⟨by decide, herror, ?_⟩
  rcases optimize_endsFlow_or_refuses (m := halfSum) rfl (by decide) ({} : LiteralPool) {} with
    ⟨o, hok, -⟩ | ⟨-, e, he, hrefuses⟩
  · rw [herror] at hok
    cases hok
  · rw [herror] at he
    cases he
    exact hrefuses

end Method

end JvmOptimizer
