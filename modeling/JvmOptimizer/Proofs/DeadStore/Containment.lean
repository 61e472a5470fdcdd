import JvmOptimizer.Proofs.CodeStream.Reached
import JvmOptimizer.Proofs.DeadStore.Reentry
import Mathlib.Logic.Function.Iterate
import Mathlib.Logic.Relation
import Mathlib.Order.Bounds.Defs

/-!
# Where control stays

A position shuts a stream if control that is behind it does not come in front
of it again: no backward transfer and no handler leads there. The place of
reentry is found by steps that each go further back. It shuts the stream, and
no later position in front of the start does, so the steps go as far as they
have to and no further.
-/

namespace JvmOptimizer.DeadStore

open CodeStream

variable {m : Method} {s : CodeStream} {n k p q : Nat}

/-- The nodes that control may pass to from a node: the next one, whether or not
the node falls through, a target of the node, and the entry of a handler that
protects it. -/
inductive Passes (s : CodeStream) : Nat → Nat → Prop
  | next {n k : Nat} : s.next? n = some k → Passes s n k
  | target {n t : Nat} : s.isLive n → t ∈ s.targets n → Passes s n t
  | throws {n : Nat} {r : HandlerRange} :
      s.isLive n → r ∈ s.handlers → Covers r n → Passes s n r.entry

/-- No backward transfer at `q` or behind it and no handler whose range ends
behind `q` leads in front of `q`. -/
structure Shuts (s : CodeStream) (q : Nat) : Prop where
  transfer : ∀ {n t}, s.isLive n → t ∈ s.targets n → s.position t ≤ s.position n →
    q ≤ s.position n → q ≤ s.position t
  handler : ∀ {r}, r ∈ s.handlers → (∀ k, r.stop = some k → q < s.position k) →
    q ≤ s.position r.entry

/-! ### Control stays behind a position that shuts the stream -/

theorem Passes.isLive (hs : s.IsClosed) (h : Passes s n k) : s.isLive k := by
  cases h with
  | next hk =>
      obtain ⟨-, rfl, hlt⟩ := next?_eq_some_iff.1 hk
      exact isLive_ahead hlt
  | target hn hk => exact hs.target hn hk
  | throws hn hr hc => exact hs.entry hr

/-- One step of control. -/
theorem Shuts.le_of_passes (hq : Shuts s q) (hs : s.IsClosed) (ha : s.IsAscending)
    (h : Passes s n k) (hn : q ≤ s.position n) : q ≤ s.position k := by
  cases h with
  | next hk =>
      obtain ⟨hlive, rfl, hlt⟩ := next?_eq_some_iff.1 hk
      have hle : n + 1 ≤ s.ahead (n + 1) := le_ahead (lt_size_of_isLive hlive)
      exact hn.trans (ha hlive (isLive_ahead hlt) hle).le
  | target hlive hk =>
      by_cases hback : s.position k ≤ s.position n
      · exact hq.transfer hlive hk hback hn
      · omega
  | throws hlive hr hc =>
      refine hq.handler hr fun stop hstop => ?_
      have hlt : n < stop := by simpa [hstop] using hc.2
      exact hn.trans_lt (ha hlive (hs.stop hr hstop) hlt)

/-- Every path of control. -/
theorem Shuts.le_of_path (hq : Shuts s q) (hs : s.IsClosed) (ha : s.IsAscending)
    (h : Relation.ReflTransGen (Passes s) n k) (hn : q ≤ s.position n) : q ≤ s.position k := by
  induction h with
  | refl => exact hn
  | tail _ hstep ih => exact hq.le_of_passes hs ha hstep ih

/-! ### The place of reentry -/

/-- Where re-entry has come to rest nothing leads in front of it: the loops are
the backward transfers, and the iteration has looked at every handler. -/
theorem shuts_reentry : Shuts s (reentry s s.loops p) where
  transfer hn ht hback hle :=
    reentry_le_head (mem_loops_iff.2 ⟨_, _, hn, ht, hback, rfl⟩) hle
  handler hr hstop := reentry_le_entry hr hstop

/-- A step does not go in front of a position that shuts the stream. -/
theorem Shuts.le_reentryStep (hq : Shuts s q) (hp : q ≤ p) :
    q ≤ reentryStep s s.loops p := by
  refine le_reentryStep_iff.2 ⟨hp, ?_, fun r hr hstop => ?_⟩
  · rintro _ ⟨_, he, hle, rfl⟩
    obtain ⟨head, tail, hlive, hmem, hback, rfl⟩ := mem_loops_iff.1 he
    exact hq.transfer hlive hmem hback (hp.trans hle)
  · refine hq.handler hr fun k hk => ?_
    rw [hk] at hstop
    exact hp.trans_lt (of_decide_eq_true hstop)

/-- A position that shuts the stream stops the iteration, so the result is not in
front of it. -/
theorem Shuts.le_reentry (hq : Shuts s q) (hp : q ≤ p) : q ≤ reentry s s.loops p := by
  fun_induction reentry s s.loops p with
  | case1 p lowest _ ih => exact ih (hq.le_reentryStep hp)
  | case2 p lowest _ => exact hp

/-- Each step that is taken goes back by one position at least. -/
theorem exists_iterate_reentryStep (s : CodeStream) (loops : List LoopExtent) (p : Nat) :
    ∃ rounds, rounds + reentry s loops p ≤ p ∧
      (reentryStep s loops)^[rounds] p = reentry s loops p := by
  fun_induction reentry s loops p with
  | case1 p lowest hlt ih =>
      obtain ⟨rounds, hle, heq⟩ := ih
      exact ⟨rounds + 1, by omega, heq⟩
  | case2 p lowest _ => exact ⟨0, by omega, rfl⟩

/-- **The place of reentry**, in a stream whose positions were just counted. It
is found after at most as many steps as there are positions in front of the
start. Control that starts there does not come in front of it. It is the last
position up to the start that shuts the stream. -/
theorem reentry_isGreatest (h : Reached m s) (p : Nat) :
    (∃ rounds ≤ p, (reentryStep s.renumber s.renumber.loops)^[rounds] p =
        reentry s.renumber s.renumber.loops p ∧
      reentryStep s.renumber s.renumber.loops (reentry s.renumber s.renumber.loops p) =
        reentry s.renumber s.renumber.loops p) ∧
    (∀ n k, s.renumber.isLive n → s.renumber.position n = p →
      Relation.ReflTransGen (Passes s.renumber) n k →
      s.renumber.isLive k ∧ reentry s.renumber s.renumber.loops p ≤ s.renumber.position k) ∧
    IsGreatest {q | q ≤ p ∧ Shuts s.renumber q} (reentry s.renumber s.renumber.loops p) := by
  have hclosed := h.isClosed.renumber
  refine ⟨?_, ?_, ⟨reentry_le, shuts_reentry⟩, fun q hq => hq.2.le_reentry hq.1⟩
  · obtain ⟨rounds, hle, heq⟩ := exists_iterate_reentryStep s.renumber s.renumber.loops p
    exact ⟨rounds, by omega, heq, reentryStep_reentry⟩
  · rintro n k hn rfl hpath
    refine ⟨?_, shuts_reentry.le_of_path hclosed (isAscending_renumber s) hpath reentry_le⟩
    cases hpath with
    | refl => exact hn
    | tail _ hstep => exact hstep.isLive hclosed

/-- A loop at the end whose handler stands in front of it, as the last node of
another loop. -/
def retryLoop : Method where
  code := [.verbatim 0x00 [], .load .reference 0, .branch (.null true) 1, .verbatim 0x00 [],
    .load (.number .int) 1, .branch (.zero .eq) 4, .verbatim 0xb1 []]
  handlers := [⟨4, 6, 2, 0⟩]

/-- From the end of the last loop control comes back to the head of the first,
through the handler. -/
theorem reentry_isGreatest_retryLoop :
    Reached retryLoop (whole retryLoop) ∧
    reentry (whole retryLoop).renumber (whole retryLoop).renumber.loops 5 = 1 ∧
    (∀ k, Relation.ReflTransGen (Passes (whole retryLoop).renumber) 5 k →
      1 ≤ (whole retryLoop).renumber.position k) ∧
    IsGreatest {q | q ≤ 5 ∧ Shuts (whole retryLoop).renumber q} 1 := by
  have hclosed : retryLoop.IsClosed := by
    have htargets : ∀ insn ∈ retryLoop.code, ∀ t ∈ insn.targets, t < retryLoop.code.length := by
      decide
    have hhandlers : ∀ r ∈ retryLoop.handlers,
        r.start < retryLoop.code.length ∧ r.entry < retryLoop.code.length := by
      decide
    exact ⟨fun hinsn ht => htargets _ hinsn _ ht, fun hr => hhandlers _ hr⟩
  have hreached : Reached retryLoop (whole retryLoop) :=
    .ofMethod (ofMethod_eq_ok_iff.2 ⟨hclosed, rfl⟩)
  have heq : reentry (whole retryLoop).renumber (whole retryLoop).renumber.loops 5 = 1 := by
    decide +kernel
  obtain ⟨-, hpaths, hgreatest⟩ := reentry_isGreatest hreached 5
  rw [heq] at hpaths hgreatest
  have hlive : (whole retryLoop).renumber.isLive 5 := by decide +kernel
  have hposition : (whole retryLoop).renumber.position 5 = 5 := by decide +kernel
  exact ⟨hreached, heq, fun k hk => (hpaths 5 k hlive hposition hk).2, hgreatest⟩

end JvmOptimizer.DeadStore
