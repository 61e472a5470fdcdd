import JvmOptimizer.Proofs.CodeStream.Exchange
import JvmOptimizer.Proofs.Fold.Run
import JvmOptimizer.Proofs.Verifier.Basic

/-!
# What folding counts and what it exchanges

Every node that folding takes out is counted once: the length of the stream and
the counter of deleted nodes add up to the length of the method all along. That
needs the invariant of the run, since a node that two stack values claimed, or
one that was gone already, would be counted twice.

What stays is an instruction of the method or a constant in its place.
-/

namespace JvmOptimizer.Fold

open Machine CodeStream

variable {m : Method} {i id : Nat} {s s' : CodeStream} {σ σ' : State}
  {loops : List LoopExtent} {insn : Instruction Nat}

/-! ### The nodes that pushed the operands -/

section Sites

variable {stack : List Slot} {count : Nat} {values : List Value} {sites : List Nat}

theorem Held.nodup_sites (h : Held s i stack)
    (hk : known? (operands count stack) = some (values, sites)) : sites.Nodup := by
  obtain ⟨-, -, hsites⟩ := known_operands hk
  have hpair : ((stack.take count).reverse.map (·.site)).Pairwise
      fun a b => ∀ k, a = some k → b ≠ some k := by
    rw [List.pairwise_map, List.pairwise_reverse]
    refine (h.apart.sublist (List.take_sublist _ _)).imp ?_
    intro a b hab k hb ha
    exact hab k ha hb
  rw [hsites, List.pairwise_map] at hpair
  exact hpair.imp fun hab heq => hab _ rfl (congrArg some heq.symm)

/-- The operands go, and nothing else. -/
theorem Held.length_deleteAll (h : Held s i stack)
    (hk : known? (operands count stack) = some (values, sites))
    (hd : s.deleteAll sites = .ok s') : s'.length + sites.length = s.length :=
  CodeStream.length_deleteAll hd (h.nodup_sites hk) fun k hmem => (h.isLive_of_mem_sites hk k hmem).2

end Sites

/-! ### Deleted nodes -/

/-- The nodes that are there and those that were deleted. -/
def State.total (σ : State) : Nat := σ.stream.length + σ.stats.deleted

section Total

open Steps

theorem total_load {kind : LocalKind} {slot : Nat}
    (h : load loops id kind slot σ = (.ok (), σ')) : σ'.total = σ.total := by
  obtain ⟨blocked, rfl⟩ | ⟨v, stats, -, rfl, hn⟩ := load_eq_ok h
  · rfl
  · simp only [State.total, length_replace, hn]

/-- A computation that is folded takes the nodes of its operands with it, one for
each. -/
theorem total_compute {arity : Nat} {eval : List Value → Except EvalError Value}
    (hheld : Held σ.stream id σ.stack) (h : compute id arity eval σ = (.ok (), σ')) :
    σ'.total = σ.total := by
  obtain ⟨-, ⟨blocked, stats, rfl, hn⟩ |
    ⟨values, sites, v, stream, blocked, stats, hk, -, hd, rfl, hn⟩⟩ := compute_eq_ok h
  · simp only [State.total, hn]
  · have hlength := hheld.length_deleteAll hk hd
    simp only [State.total, length_replace, hn]
    omega

/-- A decided branch is counted with what it takes along. -/
theorem total_branch {condition : Condition} {target : Nat} (hid : σ.stream.isLive id)
    (hheld : Held σ.stream id σ.stack) (h : branch loops id condition target σ = (.ok (), σ')) :
    σ'.total = σ.total := by
  obtain ⟨-, stats, rfl, hn⟩ | ⟨values, sites, stream, stats, hk, hdone⟩ := branch_eq_ok h
  · simp only [State.total, hn]
  have hnodup := hheld.nodup_sites hk
  have hsites := hheld.isLive_of_mem_sites hk
  obtain ⟨-, hd, ⟨armed, rfl⟩, hn⟩ | ⟨-, last, count, cut, -, hr, hd, rfl, hn⟩ := hdone
  · -- the branch goes with its operands
    have happend : (sites ++ [id]).Nodup :=
      hnodup.append (List.nodup_singleton id) fun k hmem hk =>
        absurd (hsites k hmem).1 (List.mem_singleton.1 hk ▸ lt_irrefl id)
    have hlength := length_deleteAll hd happend fun k hmem =>
      (List.mem_append.1 hmem).elim (fun h => (hsites k h).2) fun h => List.mem_singleton.1 h ▸ hid
    simp only [State.total, hn]
    omega
  · -- the run from the branch on goes, and then the operands, which stand before it
    have hcut := length_deleteRange hr
    have hlength := length_deleteAll hd hnodup fun k hmem => by
      obtain ⟨hlt, hlive⟩ := hsites k hmem
      exact (isLive_deleteRange hr).2 ⟨hlive, by omega⟩
    simp only [State.total, hn]
    omega

theorem total_jump {target : Nat} (h : jump id target σ = (.ok (), σ')) :
    σ'.total = σ.total := by
  obtain ⟨stats, armed, rfl, hn⟩ | ⟨last, count, stream, stats, armed, -, hr, rfl, hn⟩ :=
    jump_eq_ok h
  · simp only [State.total, hn]
  · have hlength := length_deleteRange hr
    simp only [State.total, hn]
    omega

theorem total_execute (hid : σ.stream.isLive id) (hheld : Held σ.stream id σ.stack)
    (h : execute loops id insn σ = (.ok (), σ')) : σ'.total = σ.total := by
  cases insn with
  | load kind index => exact total_load h
  | arith op kind => exact total_compute hheld h
  | compare c => exact total_compute hheld h
  | convert source target => exact total_compute hheld h
  | branch condition target => exact total_branch hid hheld h
  | jump target => exact total_jump h
  | const =>
      cases visit_execute h with
      | const => rfl
      | compute hc | condense hc => cases hc
  | store =>
      cases visit_execute h with
      | store => rfl
      | compute hc | condense hc => cases hc
  | increment =>
      cases visit_execute h with
      | increment => rfl
      | compute hc | condense hc => cases hc
  | switch =>
      cases visit_execute h with
      | switch => rfl
      | compute hc | condense hc => cases hc
  | verbatim =>
      cases visit_execute h with
      | verbatim => rfl
      | compute hc | condense hc => cases hc

/-- A visit counts the nodes that it deletes, so the sum of those there are and of
those that were deleted stays. -/
theorem total_visit (hid : σ.stream.isLive id) (hheld : Held σ.stream id σ.stack)
    (h : visit loops id σ = (.ok (), σ')) : σ'.total = σ.total := by
  obtain ⟨insn, hi⟩ := exists_instruction_of_lt (lt_size_of_isLive hid)
  simp only [visit, bind_apply, get_apply, hi] at h
  rcases he : execute loops id insn σ with ⟨_ | ⟨⟩, τ⟩
  · simp [he] at h
  · have htotal := total_execute hid hheld he
    by_cases hp : insn.isPurePush
    · simp only [he, hp, Bool.not_true, Bool.false_eq_true, if_false] at h
      cases h
      exact htotal
    · simp only [he, hp, Bool.not_false, if_true] at h
      cases h
      exact htotal

/-- **Every deleted node is counted once.** -/
theorem length_fold {stats : Stats} (hs : ofMethod m = .ok s)
    (hf : s.fold s.loops = (.ok stats, s')) : s'.length + stats.deleted = m.code.length := by
  obtain ⟨hclosed, hall, rfl, rfl⟩ := fold_eq_ok hs hf
  obtain ⟨-, htotal⟩ := states_induction (P := fun _ σ => σ.total = m.code.length) hclosed
    le_rfl hall length_whole (fun _ _ h => h) fun {i σ _ _} hσ hi _ hv h => by
      have hstream : (σ.enter (whole m).loops i).stream = σ.stream := Run.stream_enter
      have henter : (σ.enter (whole m).loops i).total = σ.total := by
        unfold State.enter
        split <;> rfl
      exact (total_visit (hstream ▸ hi) hσ.enter.held hv).trans (henter.trans h)
  rw [length_renumber]
  exact htotal

end Total

/-! ### Exchanged instructions -/

/-- The constant that a computation becomes is of the kind that it pushes. -/
theorem replaces_of_eval {c : Computation} {values : List Value} {v : Value}
    (hc : computation? insn = some c) (he : c.eval values = .ok v) :
    Instruction.Replaces (.const v) insn := by
  refine .const ?_
  cases insn with
  | arith op kind =>
      cases hc
      rw [Eval.kind_arithmetic he]
      rfl
  | compare comparison =>
      cases hc
      dsimp only at he
      split at he
      · rw [Verifier.kind_compare he]
        rfl
      · cases he
  | convert source target =>
      cases hc
      dsimp only at he
      split at he
      · rw [Verifier.kind_convert he]
        rfl
      · cases he
  | _ => cases hc

/-- A visit puts constants where the body has loads and computations, and nothing
else. -/
theorem Visit.faithful (hv : Visit σ i (insn.mapTargets σ.stream.ahead) σ')
    (hf : σ.stream.Faithful m) (hi : σ.stream.isLive i) (hx : m.code[i]? = some insn) :
    σ'.stream.Faithful m := by
  have hlt : i < σ.stream.nodes.size := lt_size_of_isLive hi
  generalize hy : insn.mapTargets σ.stream.ahead = y at hv
  -- What is replaced is still the instruction of the method.
  have hsame : ∀ {v}, Instruction.Replaces (.const v) y → Instruction.Replaces (.const v) insn := by
    intro v hr
    have ht := hr.old_targets_eq_nil
    rw [← hy, Instruction.targets_mapTargets, List.map_eq_nil_iff] at ht
    rwa [← hy, Instruction.mapTargets_of_targets_eq_nil ht] at hr
  cases hv with
  | propagate hv =>
      refine hf.replace hlt hx (hsame (.const ?_))
      rw [(Locals.mem_of_ofKind? hv).2]
      rfl
  | condense hc hk he hd =>
      exact (hf.deleteAll hd).replace (size_deleteAll hd ▸ hlt) hx (hsame (replaces_of_eval hc he))
  | pass hk he hd => exact hf.deleteAll hd
  | take hk he hp hr hd => exact (hf.deleteRange hr).deleteAll hd
  | skip hp hr => exact hf.deleteRange hr
  | _ => exact hf

theorem Run.faithful (R : Run m) (h : i ≤ m.code.length) : (R.before i).stream.Faithful m := by
  induction i with
  | zero =>
      rw [R.start]
      exact faithful_whole
  | succ i ih =>
      have hf := ih (by omega)
      by_cases hi : (R.before i).stream.isLive i
      · have hsound : Sound m i (R.arrival i) := (R.sound (by omega)).enter
        have hstream : (R.arrival i).stream = (R.before i).stream := stream_enter
        obtain ⟨insn, hx⟩ := hsound.trimmed.thins.exists_code (hstream ▸ hi)
        have hnow := hsound.trimmed.instruction le_rfl (hstream ▸ hi) hx
        rw [hstream] at hnow
        have hv := R.visit h hi hnow
        rw [← hstream] at hv
        exact hv.faithful (hstream ▸ hf) (hstream ▸ hi) hx
      · rw [R.pass hi]
        exact hf

/-- **Folding exchanges instructions for constants only.** -/
theorem faithful_fold {stats : Stats} (hs : ofMethod m = .ok s)
    (hf : s.fold s.loops = (.ok stats, s')) : s'.Faithful m := by
  obtain ⟨R, rfl⟩ := exists_run hs hf
  exact (R.faithful le_rfl).renumber

end JvmOptimizer.Fold
