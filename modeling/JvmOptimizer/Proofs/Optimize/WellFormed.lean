import JvmOptimizer.Proofs.Code.Decoded
import JvmOptimizer.Proofs.Optimize.Edits

/-!
# What an optimization leaves can be written

The edits of an optimization keep a method well-formed: instructions are kept or
exchanged for others that have a form, and a handler goes with the last
instruction that it protects. They also leave something. If control cannot pass
over the end of the method, its last instruction stays: folding takes out what a
transfer skips, which ends in front of the target, and dead store elimination
takes out pairs that control passes through.
-/

open Relation (ReflTransGen)

namespace JvmOptimizer

open CodeStream

/-- Does the last instruction keep control from passing over the end? -/
def Method.endsFlow (m : Method) : Bool := m.code.getLast?.any (!·.fallsThrough)

theorem Method.endsFlow_iff {m : Method} : m.endsFlow ↔
    ∃ n insn, n + 1 = m.code.length ∧ m.code[n]? = some insn ∧ insn.fallsThrough = false := by
  rw [endsFlow, List.getLast?_eq_getElem?, Option.any_eq_true]
  constructor
  · rintro ⟨insn, hget, hends⟩
    have := (List.getElem?_eq_some_iff.1 hget).1
    exact ⟨m.code.length - 1, insn, by omega, hget, by simpa using hends⟩
  · rintro ⟨n, insn, hlast, hget, hends⟩
    refine ⟨insn, ?_, by simpa using hends⟩
    rwa [← hlast, Nat.add_sub_cancel]

/-! ### The last instruction -/

namespace Fold

variable {m : Method} {i n : Nat} {σ σ' : State} {insn : Instruction Nat}

/-- A visit takes out the last node only if control passes over it. -/
theorem Visit.isLive_last (hv : Visit σ i insn σ') (hs : Sound m i σ)
    (hlast : n + 1 = m.code.length) (hn : σ.stream.isLive n) (hin : i ≤ n)
    (hends : i = n → insn.fallsThrough = false) : σ'.stream.isLive n := by
  by_contra hn'
  rcases hv.deletes hn hn' with hk | ⟨heq, hfalls⟩ | ⟨target, last, hp, -, hle⟩
  · have := (hs.held.live hk).1
    omega
  · rw [hends heq.symm] at hfalls
    cases hfalls
  · -- What stands in front of a target is not the last node.
    obtain ⟨htarget, hlt, -, -⟩ := prev?_eq_some_iff.1 hp
    have := hs.trimmed.lt_length htarget
    omega

/-- The walk never deletes an instruction at the end that control does not pass:
no run reaches it, and it is no operand. -/
theorem Run.isLive_last (R : Run m) (hlast : n + 1 = m.code.length)
    (hx : m.code[n]? = some insn) (hends : insn.fallsThrough = false) (hi : i ≤ m.code.length) :
    (R.before i).stream.isLive n := by
  induction i with
  | zero =>
      rw [R.start]
      exact isLive_whole.2 (by omega)
  | succ i ih =>
      have hn := ih (by omega)
      by_cases hlive : (R.before i).stream.isLive i
      · have hsound : Sound m i (R.arrival i) := (R.sound (by omega)).enter
        have hstream : (R.arrival i).stream = (R.before i).stream := stream_enter
        obtain ⟨x, hm⟩ := hsound.trimmed.thins.exists_code (hstream ▸ hlive)
        have hnow := hsound.trimmed.instruction le_rfl (hstream ▸ hlive) hm
        rw [hstream] at hnow
        refine (R.visit hi hlive hnow).isLive_last hsound hlast (hstream ▸ hn) (by omega) ?_
        rintro rfl
        rw [hx] at hm
        cases hm
        rw [Instruction.fallsThrough_mapTargets]
        exact hends
      · rw [R.pass hlive]
        exact hn

end Fold

theorem Instruction.Replaces.fallsThrough {new old : Instruction Nat} (h : new.Replaces old) :
    old.fallsThrough := by
  cases h with
  | const h => cases old <;> simp_all [Instruction.resultKind?, Instruction.fallsThrough]
  | discard => rfl

theorem Instruction.fallsThrough_of_pushedSlots? {insn : Instruction Nat} {k : Nat}
    (h : insn.pushedSlots? = some k) : insn.fallsThrough := by
  cases insn with
  | const v => rfl
  | load kind index => rfl
  | _ => cases h

namespace DeadStore

variable {m : Method} {s s' : CodeStream} {n push take : Nat} {insn x : Instruction Nat}

/-- Control passes through a pair that is of no use. -/
theorem Spare.fallsThrough (h : Spare s push take) (hn : n ∈ [push, take])
    (hx : s.instruction? n = some x) : x.fallsThrough := by
  rw [List.mem_pair] at hn
  cases h with
  | store hb hp hpure ht hd =>
      rcases hn with rfl | rfl
      · rw [hp] at hx
        cases hx
        obtain ⟨k, hk⟩ := Option.isSome_iff_exists.1 hpure
        exact Instruction.fallsThrough_of_pushedSlots? hk
      · rw [ht] at hx
        cases hx
        rfl
  | discard hb hp hk ht hop =>
      rcases hn with rfl | rfl
      · rw [hp] at hx
        cases hx
        exact Instruction.fallsThrough_of_pushedSlots? hk
      · rw [ht] at hx
        cases hx
        rcases hop with ⟨rfl, -⟩ | ⟨rfl, -⟩ <;> rfl

/-- What control did not pass through, it does not pass through now. -/
theorem exists_ending (ht : s.Thins m) (hf : s.Faithful m) (hx : m.code[n]? = some insn)
    (hends : insn.fallsThrough = false) (hn : s.isLive n) :
    ∃ y, s.instruction? n = some y ∧ y.fallsThrough = false := by
  obtain ⟨y, hy, hor⟩ := hf.instruction ht hn hx
  refine ⟨y, hy, ?_⟩
  rcases hor with rfl | hr
  · rw [Instruction.fallsThrough_mapTargets]
    exact hends
  · rw [hr.fallsThrough] at hends
    cases hends

/-- An edit takes out no instruction that control does not pass through. -/
theorem Edit.isLive (h : Edit s s') (ht : s.Thins m) (hf : s.Faithful m)
    (hx : m.code[n]? = some insn) (hends : insn.fallsThrough = false) (hn : s.isLive n) :
    s'.isLive n := by
  cases h with
  | renumber =>
      rw [isLive_renumber]
      exact hn
  | discard hl hi hd =>
      rw [isLive_replace]
      exact hn
  | pair hs hd =>
      refine (isLive_deleteAll hd).2 ⟨hn, fun hmem => ?_⟩
      obtain ⟨y, hy, hfalls⟩ := exists_ending ht hf hx hends hn
      rw [hs.fallsThrough hmem hy] at hfalls
      cases hfalls

/-- By induction on the edits, an instruction that control does not pass stays
where it was. -/
theorem isLive_of_edits (h : ReflTransGen Edit s s') (ht : s.Thins m) (hf : s.Faithful m)
    (hx : m.code[n]? = some insn) (hends : insn.fallsThrough = false) (hn : s.isLive n) :
    s'.Thins m ∧ s'.Faithful m ∧ s'.isLive n := by
  induction h with
  | refl => exact ⟨ht, hf, hn⟩
  | tail _ hedit ih =>
      obtain ⟨ht, hf, hn⟩ := ih
      exact ⟨hedit.thins ht, hedit.faithful ht hf, hedit.isLive ht hf hx hends hn⟩

end DeadStore

namespace Method

variable {π : Type} [Pool π] {pool : π} {m : Method} {s : CodeStream} {settings : Settings}
  {stats : OptimizeStats} {o : Optimized} {n : Nat} {insn : Instruction Nat}

theorem isLive_foldPass {fold : Fold.Stats} (hm : m.IsClosed)
    (h : foldPass settings (whole m) = (.ok fold, s)) (hlast : n + 1 = m.code.length)
    (hx : m.code[n]? = some insn) (hends : insn.fallsThrough = false) : s.isLive n := by
  unfold foldPass at h
  split at h
  · obtain ⟨R, rfl⟩ := Fold.exists_run (ofMethod_eq_ok_iff.2 ⟨hm, rfl⟩) h
    rw [isLive_renumber]
    exact R.isLive_last hlast hx hends le_rfl
  · cases h
    exact isLive_whole.2 (by omega)

/-- The passes keep the last instruction of a method that ends with it. -/
theorem isLive_runPasses (hm : m.IsClosed) (h : runPasses settings (whole m) = .ok (stats, s))
    (hlast : n + 1 = m.code.length) (hx : m.code[n]? = some insn)
    (hends : insn.fallsThrough = false) : s.isLive n := by
  obtain ⟨mid, hfold, hstores⟩ := runPasses_eq_ok.1 h
  obtain ⟨fold, deadStores⟩ := stats
  obtain ⟨hthins, hfaithful, -⟩ := thins_foldPass hm hfold
  have hmid := isLive_foldPass hm hfold hlast hx hends
  unfold deadStorePass at hstores
  split at hstores
  · have hedits := DeadStore.edits_removeDeadStores hthins hstores
    exact (DeadStore.isLive_of_edits hedits hthins hfaithful hx hends hmid).2.2
  · cases hstores
    exact hmid

/-- **Something is left** of a method that ends with its last instruction. -/
theorem code_ne_nil_of_optimize (h : m.optimize pool settings = .ok o) (hm : m.endsFlow) :
    o.method.code ≠ [] := by
  obtain ⟨n, insn, hlast, hx, hends⟩ := endsFlow_iff.1 hm
  obtain ⟨s, hclosed, hp, hlength, -⟩ := exists_passes h
  have hrank := Verifier.rank_lt_length (isLive_runPasses hclosed hp hlast hx hends)
  intro hnil
  rw [hnil, List.length_nil] at hlength
  omega

end Method

/-! ### Forms -/

namespace Edited

open Code

variable {π : Type} [Pool π] {pool : π} {old new : Method} {kept place : Nat → Nat}

theorem exists_old (h : Edited old new kept place) {y : Instruction Nat} (hy : y ∈ new.code) :
    ∃ x ∈ old.code, y = x.mapTargets place ∨ y.Replaces x := by
  obtain ⟨k, hk⟩ := List.getElem?_of_mem hy
  obtain ⟨x, y', hx, hy', hor⟩ := h.instruction k (List.getElem?_eq_some_iff.1 hk).1
  rw [hk] at hy'
  cases hy'
  exact ⟨x, List.mem_of_getElem? hx, hor⟩

/-- A handler that protects something has a range. -/
theorem move_lt (h : Edited old new kept place) {hd : Handler}
    (hp : hd.Protects kept new.code.length) : place hd.start < place hd.stop := by
  obtain ⟨k, hk, hstart, hstop⟩ := hp
  have hle : place hd.start ≤ k := by
    by_contra hlt
    have := (h.lands hd.start).before k (by omega)
    omega
  have hlt : k < place hd.stop := by
    by_contra hge
    have := (h.lands hd.stop).behind k (by omega) hk
    omega
  omega

theorem ofOpcode_discard (kind : LocalKind) :
    Form.ofOpcode (if kind.slots = 2 then Opcode.pop2 else Opcode.pop) = .verbatim 0 := by
  split <;> rfl

/-- **Edits keep a method well-formed.** -/
theorem wellFormed (h : Edited old new kept place) (hold : WellFormed pool old) :
    WellFormed pool new where
  target := h.target
  form := by
    intro y hy
    obtain ⟨x, hx, rfl | hr⟩ := h.exists_old hy
    · exact hasForm_mapTargets.2 (hold.form x hx)
    · cases hr with
      | const _ => trivial
      | discard => exact .inl (ofOpcode_discard _)
  handler := by
    intro hd hmem
    rw [h.handlers] at hmem
    obtain ⟨r, hr, rfl⟩ := List.mem_map.1 hmem
    have hprotects := (List.mem_filter.1 hr).2
    exact ⟨h.move_lt (by simpa using hprotects), (h.lands r.stop).le, h.entry _ (h.handlers ▸ hmem)⟩

theorem hasKeys (h : Edited old new kept place) (hold : ∀ insn ∈ old.code, HasKeys insn) :
    ∀ insn ∈ new.code, HasKeys insn := by
  intro y hy
  obtain ⟨x, hx, rfl | hr⟩ := h.exists_old hy
  · exact hasKeys_mapTargets.2 (hold x hx)
  · cases hr <;> trivial

/-- Loads from the pool still name slots in use: the edits bring constants and
discards, and no such load. -/
theorem loadsInUse [LawfulPool π] (h : Edited old new kept place) (hold : LoadsInUse pool old) :
    LoadsInUse pool new := by
  intro y hy
  obtain ⟨x, hx, rfl | hr⟩ := h.exists_old hy
  · rw [loadIndex?_mapTargets]
    exact hold x hx
  · cases hr with
    | const _ => rfl
    | @discard kind index =>
        have hnone : loadIndex? (DeadStore.discard kind) = none := by
          simp [DeadStore.discard, loadIndex?, ofOpcode_discard kind]
        rw [hnone]
        rfl

end Edited

end JvmOptimizer
