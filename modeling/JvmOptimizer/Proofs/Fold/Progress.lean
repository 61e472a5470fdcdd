import JvmOptimizer.Proofs.Fold.Failure
import JvmOptimizer.Proofs.Fold.History
import JvmOptimizer.Proofs.Fold.Stack
import JvmOptimizer.Proofs.Verifier.Basic

/-!
# Folding a verified method succeeds

In front of every node the simulated stack is the top of the shape that control
brings there. So there is always something to pop, and known operands are of the
kinds that their consumer takes: the stack serves every instruction, and so the pass
has no reason to fail.
-/

namespace JvmOptimizer.Fold

open Machine CodeStream Verifier

variable {π : Type} [Pool π] {pool : π} {m : Method} {shape : Nat → Shape}
  {stack : List Slot} {floor : Bool} {popped pushed rest before after : Shape}
  {σ σ' : State} {i t : Nat} {insn : Instruction Nat}

/-! ### Simulated stacks and shapes -/

/-- What the slot knows is of the kind. -/
def Slot.Suits (slot : Slot) (kind : LocalKind) : Prop :=
  ∀ v, slot.value = some v → .number v.kind = kind

/-- The simulated stack is the top of the shape, or all of it if nothing is
below. -/
structure Matches (stack : List Slot) (floor : Bool) (shape : Shape) : Prop where
  describes : Describes Slot.Suits stack shape
  length : floor = false → stack.length = shape.length

namespace Matches

/-- Where nothing is known of the stack, every shape matches. -/
theorem unknown : Matches [] true before := ⟨trivial, nofun⟩

theorem push {slot : Slot} {kind : LocalKind} (h : Matches stack floor before)
    (hs : slot.Suits kind) : Matches (slot :: stack) floor (kind :: before) where
  describes := ⟨hs, h.describes⟩
  length := by
    intro hf
    simp [h.length hf]

theorem drop (h : Matches stack floor (popped ++ rest)) :
    Matches (stack.drop popped.length) floor rest where
  describes := by
    have hd := h.describes.drop popped.length
    rwa [List.drop_left] at hd
  length := by
    intro hf
    rw [List.length_drop, h.length hf, List.length_append, Nat.add_sub_cancel_left]

theorem keep (h : Matches stack floor before) : Matches (stack.map Slot.keep) floor before where
  describes := h.describes.map fun _ _ hs => hs
  length := by
    intro hf
    rw [List.length_map, h.length hf]

/-- A stack that matches has the operands, or there may be more below what is
known. -/
theorem enough (h : Matches σ.stack σ.floor (popped ++ rest)) : Suffices σ popped.length := by
  cases hf : σ.floor with
  | true => exact .inr hf
  | false =>
      left
      rw [h.length hf, List.length_append]
      exact Nat.le_add_right _ _

/-- Known operands are of the kinds that the shape says. -/
theorem known (h : Matches stack floor (popped ++ rest)) {values : List Value} {sites : List Nat}
    (hk : known? (operands popped.length stack) = some (values, sites)) :
    values.map (LocalKind.number ·.kind) = popped.reverse := by
  obtain ⟨hle, hv, -⟩ := known_operands hk
  have htake : (popped ++ rest).take popped.length =
      values.reverse.map (LocalKind.number ·.kind) := by
    refine h.describes.take_eq (fun slot kind v hs hv => (hs v hv).symm) hle ?_
    rw [List.map_reverse] at hv
    rw [List.map_reverse, ← hv, List.reverse_reverse]
  rw [List.take_left, List.map_reverse] at htake
  rw [htake, List.reverse_reverse]

end Matches

theorem length_conditionKinds (condition : Condition) :
    (conditionKinds condition).length = condition.operands := by
  cases condition <;> rfl

/-- **A visit follows the shapes.** -/
theorem Visit.matches (h : Visit σ i insn σ') (hm : Matches σ.stack σ.floor before)
    (he : Effect pool insn before after) (hr : σ'.reachable) :
    Matches σ'.stack σ'.floor after := by
  obtain ⟨popped, pushed, rest, hx, rfl, rfl⟩ := he
  -- A known value suits its own kind; all other slots suit any.
  have hknown : ∀ {v kind} {site : Option Nat}, LocalKind.number (Value.kind v) = kind →
      (⟨some v, site⟩ : Slot).Suits kind := by
    rintro v kind site rfl w hw
    rw [Option.some.inj hw]
  cases h with
  | const =>
      obtain ⟨rfl, rfl⟩ := hx
      exact hm.push (hknown rfl)
  | load =>
      obtain ⟨rfl, rfl⟩ := hx
      exact hm.push fun v hv => (Option.filter_eq_some_iff.1 hv).2 |> of_decide_eq_true
  | propagate hv =>
      obtain ⟨rfl, rfl⟩ := hx
      exact hm.push (hknown (of_decide_eq_true (Option.filter_eq_some_iff.1 hv).2))
  | store hs =>
      obtain ⟨rfl, rfl⟩ := hx
      exact hm.drop
  | increment =>
      obtain ⟨rfl, rfl⟩ := hx
      exact hm
  | compute hc hs =>
      obtain ⟨hlength, kind, rfl, -⟩ := hx.computation hc
      rw [← hlength]
      exact hm.drop.push nofun
  | condense hc hk he hd =>
      obtain ⟨hlength, kind, rfl, hkind⟩ := hx.computation hc
      rw [← hlength]
      exact hm.drop.push (hknown (congrArg LocalKind.number (hkind he)))
  | branch hs =>
      obtain ⟨rfl, rfl⟩ := hx
      rw [← length_conditionKinds]
      exact hm.drop.keep
  | pass hk he hd | take hk he hp hr hd =>
      obtain ⟨rfl, rfl⟩ := hx
      rw [← length_conditionKinds]
      exact hm.drop
  | skip hp hr =>
      obtain ⟨rfl, rfl⟩ := hx
      exact hm
  -- Control does not go on from here.
  | jump | switch => cases hr
  | verbatim hs => exact .unknown

/-! ### Where control goes next -/

/-- The next node behind `i` is `t`. -/
structure Lands (s : CodeStream) (i t : Nat) : Prop where
  lt : i < t
  live : s.isLive t
  dead : ∀ k, i < k → k < t → ¬ s.isLive k

theorem Lands.unique {s : CodeStream} {f : Nat} (ht : Lands s i t) (hf : Lands s i f) : t = f := by
  rcases Nat.lt_trichotomy t f with hlt | heq | hlt
  · exact absurd ht.live (hf.dead t ht.lt hlt)
  · exact heq
  · exact absurd hf.live (ht.dead f hf.lt hlt)

theorem exists_lands_next {s : CodeStream} (hf : insn.fallsThrough)
    (hlive : ∀ k, i < k → k < m.code.length → s.isLive k) :
    ∃ t, Onward insn i t ∧ (t < m.code.length → Lands s i t) := by
  refine ⟨i + 1, .inl ⟨hf, rfl⟩, fun hlt => ⟨Nat.lt_succ_self i,
    hlive _ (Nat.lt_succ_self i) hlt, fun k hk₁ hk₂ => ?_⟩⟩
  omega

/-- Where a run up to the target is gone, control goes to the target. -/
theorem exists_lands_target {s cut : CodeStream} {last count : Nat} (hσ : Sound m i σ)
    (hlive : σ.stream.isLive i) (hm : m.IsClosed) (hi : m.code[i]? = some insn)
    (hmem : t ∈ insn.targets)
    (hp : σ.stream.prev? (σ.stream.ahead t) = some last)
    (hr : σ.stream.deleteRange i last = .ok (count, cut))
    (hcut : ∀ k, i < k → (s.isLive k ↔ cut.isLive k)) :
    ∃ t, Onward insn i t ∧ (t < m.code.length → Lands s i t) := by
  have ht := hm.target (List.mem_of_getElem? hi) hmem
  obtain ⟨hit, hlast⟩ := hσ.succ_last_eq hlive ht hp hr
  refine ⟨t, .inr hmem, fun _ => ⟨hit, ?_, fun k hik hkt hk => ?_⟩⟩
  · rw [hcut t hit, isLive_deleteRange hr]
    exact ⟨hσ.isLive_of_le hlive hit.le ht, by omega⟩
  · rw [hcut k hik, isLive_deleteRange hr] at hk
    exact hk.2 (by omega)

/-- A visit goes on to the node that control goes to. -/
theorem Visit.lands (hσ : Sound m i σ) (hlive : σ.stream.isLive i) (hm : m.IsClosed)
    (hi : m.code[i]? = some insn) (h : Visit σ i (insn.mapTargets σ.stream.ahead) σ')
    (hr : σ'.reachable) :
    ∃ t, Onward insn i t ∧ (t < m.code.length → Lands σ'.stream i t) := by
  have hall : ∀ k, i < k → k < m.code.length → σ.stream.isLive k :=
    fun k hik => hσ.isLive_of_le hlive hik.le
  have hsite : ∀ {count values sites k},
      known? (operands count σ.stack) = some (values, sites) → i < k → k ∉ sites := by
    intro count values sites k hk hik hmem
    have := (hσ.held.isLive_of_mem_sites hk k hmem).1
    omega
  have hfalls := Instruction.fallsThrough_mapTargets σ.stream.ahead insn
  generalize hx : insn.mapTargets σ.stream.ahead = x at h hfalls
  -- Most visits leave everything behind the node as it is.
  cases h with
  | propagate hv =>
      refine exists_lands_next hfalls.symm fun k hk hlt => ?_
      rw [isLive_replace]
      exact hall k hk hlt
  | compute hc hs =>
      exact exists_lands_next (hfalls ▸ fallsThrough_of_computation? hc) hall
  | condense hc hk he hd =>
      refine exists_lands_next (hfalls ▸ fallsThrough_of_computation? hc) fun k hik hlt => ?_
      rw [isLive_replace, isLive_deleteAll hd]
      exact ⟨hall k hik hlt, hsite hk hik⟩
  | pass hk he hd =>
      refine exists_lands_next hfalls.symm fun k hik hlt => ?_
      rw [isLive_deleteAll hd, List.mem_append, not_or, List.mem_singleton]
      exact ⟨hall k hik hlt, hsite hk hik, by omega⟩
  | take hk he hp hrange hd =>
      obtain ⟨target, rfl, rfl⟩ := Instruction.exists_of_mapTargets_eq_branch hx
      refine exists_lands_target hσ hlive hm hi List.mem_cons_self hp hrange fun k hik => ?_
      rw [isLive_deleteAll hd]
      exact and_iff_left (hsite hk hik)
  | skip hp hrange =>
      obtain ⟨target, rfl, rfl⟩ := Instruction.exists_of_mapTargets_eq_jump hx
      exact exists_lands_target hσ hlive hm hi List.mem_cons_self hp hrange fun _ _ => Iff.rfl
  | jump | switch => cases hr
  | verbatim hs =>
      refine exists_lands_next ?_ hall
      rw [← hfalls]
      simp only [Bool.and_eq_true] at hr
      exact hr.2
  | _ => exact exists_lands_next hfalls.symm hall

/-- In front of `i`, the simulated stack is that of the shape at the next node,
if control gets there. -/
def Awaits (shape : Nat → Shape) (i : Nat) (σ : State) : Prop :=
  ∀ f, i ≤ f → σ.stream.isLive f → (∀ k, i ≤ k → k < f → ¬ σ.stream.isLive k) → σ.reachable →
    Matches σ.stack σ.floor (shape f)

/-- The walk enters a node with the stack that its shape says, whether it merges
there or comes from the node before. -/
theorem Awaits.enter (h : Awaits shape i σ) (loops : List LoopExtent)
    (hlive : σ.stream.isLive i) :
    Matches (σ.enter loops i).stack (σ.enter loops i).floor (shape i) := by
  unfold State.enter
  split
  · exact .unknown
  · rename_i hmerge
    simp only [State.isMerge, Bool.or_eq_true, Bool.not_eq_true', not_or] at hmerge
    refine h i le_rfl hlive (fun k hk₁ hk₂ => ?_) (by simpa using hmerge.2)
    omega

theorem Awaits.pass (h : Awaits shape i σ) (hi : ¬ σ.stream.isLive i) :
    Awaits shape (i + 1) σ := by
  intro f hf hlive hdead
  refine h f (by omega) hlive fun k hk₁ hk₂ => ?_
  rcases Nat.eq_or_lt_of_le hk₁ with rfl | hlt
  · exact hi
  · exact hdead k hlt hk₂

/-- A visit leaves the stack that is expected at the next node that is left. -/
theorem awaits_visit (hv : Verified pool m shape) (hσ : Sound m i σ)
    (hlive : σ.stream.isLive i) (hi : m.code[i]? = some insn)
    (hm : Matches σ.stack σ.floor (shape i))
    (h : Visit σ i (insn.mapTargets σ.stream.ahead) σ') : Awaits shape (i + 1) σ' := by
  intro f hf hfl hdead hr
  obtain ⟨after, heffect, honward⟩ := hv.exists_after hi
  obtain ⟨t, ht, hlands⟩ := h.lands hσ hlive hv.isClosed hi hr
  obtain ⟨hlt, rfl⟩ := honward ht
  obtain rfl : t = f := (hlands hlt).unique ⟨hf, hfl, hdead⟩
  exact h.matches hm ((effect_mapTargets _).2 heffect) hr

/-! ### Visits that succeed -/

/-- A stack of the right shape serves the instruction. -/
theorem Matches.serves (hm : Matches σ.stack σ.floor before) (he : Effect pool insn before after)
    (hregular : Verifier.IsRegular insn) : Serves σ insn := by
  obtain ⟨popped, pushed, rest, hx, rfl, -⟩ := he
  have hcompute : ∀ c, computation? insn = some c →
      Accepts σ c.arity (c.eval · ≠ .error .typeMismatch) := by
    intro c hc
    rw [← (hx.computation hc).1]
    exact ⟨hm.enough, fun values sites hk => eval_ne_typeMismatch hx hregular hc (hm.known hk)⟩
  cases insn with
  | store kind index =>
      obtain ⟨rfl, rfl⟩ := hx
      exact hm.enough
  | switch fallback cases =>
      obtain ⟨rfl, rfl⟩ := hx
      exact hm.enough
  | branch condition target =>
      obtain ⟨rfl, rfl⟩ := hx
      rw [Serves, ← length_conditionKinds]
      exact ⟨hm.enough, fun values sites hk e => branchTaken_ne_error (hm.known hk)⟩
  | _ => exact hcompute

section Steps

open Steps

variable (loops : List LoopExtent)

/-- **A visit of a verified method succeeds.** -/
theorem exists_visit (hv : Verified pool m shape) (hσ : Sound m i σ)
    (hlive : σ.stream.isLive i) (hi : m.code[i]? = some insn)
    (hm : Matches σ.stack σ.floor (shape i)) :
    ∃ τ, Fold.visit loops i σ = (.ok (), τ) := by
  have hregular := hv.regular (List.mem_of_getElem? hi)
  obtain ⟨after, heffect, honward⟩ := hv.exists_after hi
  have hvisit : FailsWith (fun _ => False) (Fold.visit loops i) σ := by
    refine failsWith_visit loops hσ hv.isClosed hlive hi (fun hf => ?_) (fun hnot => ?_) ?_
    · exact (honward (.inl ⟨hf, rfl⟩)).1
    · exact hnot (hm.serves heffect hregular)
    · intro opcode bytes heq hs
      rw [heq] at hregular
      simp [Verifier.IsRegular, hs] at hregular
  obtain ⟨⟨⟩, τ, hok⟩ := hvisit.exists_ok
  exact ⟨τ, hok⟩

/-- The walk succeeds, and all along it the stack is that of the shapes. -/
theorem walk_verified (hv : Verified pool m shape) (hi : i ≤ m.code.length) :
    walk (whole m).loops (List.range i) { stream := whole m } = (.ok (), states m i) ∧
      Sound m i (states m i) ∧ Awaits shape i (states m i) := by
  induction i with
  | zero =>
      refine ⟨rfl, sound_start hv.isClosed, fun f _ hf hdead _ => ?_⟩
      obtain rfl : f = 0 := by
        by_contra hne
        have hlt : f < m.code.length := isLive_whole.1 hf
        exact hdead 0 le_rfl (by omega) (isLive_whole.2 (by omega))
      rw [hv.start]
      exact ⟨trivial, fun _ => rfl⟩
  | succ i ih =>
      -- One more node: it is visited, with success as its stack serves it, or it is gone.
      obtain ⟨hw, hσ, hawaits⟩ := ih (by omega)
      rw [walk] at hw
      rw [walk, List.range_succ, forM_append, bind_apply, hw]
      dsimp only
      rw [forM_cons, forM_nil, bind_apply, bind_apply, get_apply, states]
      dsimp only
      by_cases hlive : (states m i).stream.isLive i
      · have hstream : ((states m i).enter (whole m).loops i).stream = (states m i).stream :=
          Run.stream_enter
        have hlive' : ((states m i).enter (whole m).loops i).stream.isLive i := hstream ▸ hlive
        have hcode : m.code[i]? = some m.code[i] := List.getElem?_eq_getElem hi
        have henter : Sound m i ((states m i).enter (whole m).loops i) := hσ.enter
        have hmatches := hawaits.enter (whole m).loops hlive
        obtain ⟨τ, hτ⟩ := exists_visit (whole m).loops hv henter hlive' hcode hmatches
        have hx := henter.trimmed.instruction le_rfl hlive' hcode
        have hvisit := visit_eq_ok hx hτ
        rw [if_pos hlive, if_pos hlive, bind_apply, modify_apply]
        dsimp only
        rw [hτ]
        exact ⟨rfl, henter.visit Sound.reachable_enter hlive' hx hvisit,
          awaits_visit hv henter hlive' hcode hmatches hvisit⟩
      · rw [if_neg hlive, if_neg hlive]
        exact ⟨rfl, hσ.pass hlive hi, hawaits.pass hlive⟩

/-- **Folding a verified method succeeds**, by a run whose stacks are those of the
shapes. -/
theorem exists_verified_run (hv : Verified pool m shape) :
    ∃ R : Run m, (∃ stats, (whole m).fold (whole m).loops = (.ok stats, R.final.renumber)) ∧
      ∀ n, R.Visited n → n < m.code.length →
        Matches (R.arrival n).stack (R.arrival n).floor (shape n) := by
  obtain ⟨hw, -, -⟩ := walk_verified hv le_rfl
  have hall := (walk_range hw).2
  refine ⟨.ofStates hv.isClosed hall, ⟨(states m m.code.length).stats, ?_⟩, fun n hn hlt => ?_⟩
  · rw [CodeStream.fold, ids_whole, hw]
    rfl
  · exact (walk_verified hv hlt.le).2.2.enter _ hn

end Steps

end JvmOptimizer.Fold
