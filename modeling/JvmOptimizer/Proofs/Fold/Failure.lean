import JvmOptimizer.Proofs.Fold.Run

/-!
# What folding can fail with

A visit pops what the instruction takes from the simulated stack, and fails if that
is not there or of the wrong kind. It gives up at subroutines. It also deletes nodes,
but only nodes in front of one that stays, and so no deletion fails.

Each step is looked at once, for any kind of error that the places where it throws
are known to be of. So what is proved here says both which errors there can be and,
if nothing can be wrong with the stack, that there are none.
-/

namespace JvmOptimizer.Fold

open Machine CodeStream Steps

variable {α β : Type} {P : OptimizeError → Prop} {m : Method} {σ τ : State} {i t : Nat}
  {sites : List Nat} {stream : CodeStream} {insn : Instruction Nat} (loops : List LoopExtent)

/-- If the step fails, the error is one with `P`. -/
def FailsWith (P : OptimizeError → Prop) (x : Step α) (σ : State) : Prop :=
  ∀ e τ, x σ = (.error e, τ) → P e

namespace FailsWith

theorem of_ok {x : Step α} {a : α} (h : x σ = (.ok a, τ)) : FailsWith P x σ := by
  intro e τ herror
  rw [h] at herror
  cases herror

theorem throw {e : OptimizeError} (h : P e) : FailsWith P (throw e : Step α) σ := by
  intro e τ herror
  cases herror
  exact h

/-- A step that is followed by another fails as one of the two does. -/
theorem bind {x : Step α} {f : α → Step β} (hx : FailsWith P x σ)
    (hf : ∀ a τ, x σ = (.ok a, τ) → FailsWith P (f a) τ) : FailsWith P (x >>= f) σ := by
  intro e τ herror
  rcases bind_eq_error.1 herror with herror | ⟨a, ρ, hok, herror⟩
  · exact hx e τ herror
  · exact hf a ρ hok e τ herror

theorem bind_ok {x : Step α} {f : α → Step β} {a : α} (hx : x σ = (.ok a, τ))
    (hf : FailsWith P (f a) τ) : FailsWith P (x >>= f) σ := by
  refine .bind (.of_ok hx) fun a' τ' hok => ?_
  rw [hx] at hok
  cases hok
  exact hf

/-- A step that cannot fail has a result. -/
theorem exists_ok {x : Step α} (h : FailsWith (fun _ => False) x σ) : ∃ a τ, x σ = (.ok a, τ) := by
  rcases hx : x σ with ⟨e | a, τ⟩
  · exact absurd hx (h e τ)
  · exact ⟨a, τ, rfl⟩

end FailsWith

/-! ### Single steps -/

/-- Popping fails only where the stack is known to be too short. -/
theorem failsWith_popMany {count : Nat} (h : ¬ Suffices σ count → P (.inconsistentStack i)) :
    FailsWith P (popMany i count) σ := by
  intro e τ herror
  rw [popMany_apply] at herror
  split at herror
  · cases herror
  · rename_i hs
    cases herror
    exact h hs

theorem failsWith_pop (h : ¬ Suffices σ 1 → P (.inconsistentStack i)) :
    FailsWith P (pop i) σ := by
  by_cases hs : Suffices σ 1
  · exact .of_ok (pop_eq_ok.2 ⟨hs, rfl, rfl⟩)
  · intro e τ herror
    obtain ⟨hlength, hfloor⟩ := not_or.1 hs
    have hempty : σ.stack = [] := List.length_eq_zero_iff.1 (by omega)
    simp only [pop, bind_apply, get_apply, hempty, hfloor] at herror
    cases herror
    exact h hs

theorem failsWith_load {kind : LocalKind} {slot : Nat} :
    FailsWith P (load loops i kind slot) σ := by
  refine .bind_ok rfl ?_
  cases σ.locals.ofKind? kind slot with
  | none => exact .of_ok rfl
  | some v =>
      dsimp only
      split
      · exact .of_ok rfl
      · exact .of_ok rfl

theorem failsWith_condense {v : Value} (hd : σ.stream.deleteAll sites = .ok stream) :
    FailsWith P (condense i sites v) σ :=
  .bind_ok (forM_delete_eq_ok.2 ⟨stream, hd, rfl⟩) (.of_ok rfl)

/-- A computation that finds its operands, of the right kinds if they are known. -/
def Accepts (σ : State) (arity : Nat) (fits : List Value → Prop) : Prop :=
  Suffices σ arity ∧
    ∀ values sites, known? (operands arity σ.stack) = some (values, sites) → fits values

/-- A computation fails on its operands only: its deletions succeed, by `hd`. -/
theorem failsWith_compute {arity : Nat} {eval : List Value → Except EvalError Value}
    (hstack : ¬ Accepts σ arity (eval · ≠ .error .typeMismatch) → P (.inconsistentStack i))
    (hd : ∀ {values sites}, known? (operands arity σ.stack) = some (values, sites) →
      ∃ stream, σ.stream.deleteAll sites = .ok stream) :
    FailsWith P (compute i arity eval) σ := by
  refine .bind (failsWith_popMany fun hs => hstack fun h => hs h.1) fun slots τ hpop => ?_
  obtain ⟨hs, rfl, rfl⟩ := popMany_eq_ok.1 hpop
  refine .bind_ok rfl (.bind_ok rfl ?_)
  dsimp only
  cases σ.blocked with
  | true => exact .of_ok rfl
  | false =>
      cases hk : known? (operands arity σ.stack) with
      | none => exact .of_ok rfl
      | some p =>
          obtain ⟨values, sites⟩ := p
          obtain ⟨stream, hd⟩ := hd hk
          dsimp only
          cases hv : eval values with
          | ok v => exact failsWith_condense hd
          | error e =>
              cases e with
              | divisionByZero op => exact .of_ok rfl
              | typeMismatch => exact .throw (hstack fun h => h.2 values sites hk hv)

theorem failsWith_pruneNotTaken (hd : σ.stream.deleteAll (sites ++ [i]) = .ok stream) :
    FailsWith P (pruneNotTaken i t sites) σ := by
  rw [deleteAll, List.foldlM_append] at hd
  cases hm : σ.stream.deleteAll sites with
  | error e =>
      rw [deleteAll] at hm
      rw [hm] at hd
      cases hd
  | ok mid =>
      have hone : mid.deleteOne i = .ok stream := by
        rw [deleteAll] at hm
        rw [hm] at hd
        change (mid.deleteOne i >>= fun s => pure s) = _ at hd
        rwa [bind_pure] at hd
      refine .bind_ok rfl (.bind_ok (forM_delete_eq_ok.2 ⟨mid, hm, rfl⟩) ?_)
      exact .bind_ok (delete_eq_ok.2 ⟨stream, hone, rfl⟩) (.of_ok rfl)

theorem deleteRun?_of_ok {first last count : Nat} {cut : CodeStream}
    (h : σ.stream.deleteRange first last = .ok (count, cut)) :
    deleteRun? first last σ = (.ok (some count), { σ with stream := cut }) := by
  simp only [deleteRun?, bind_apply, get_apply, h]
  rfl

/-- A run that cannot go is counted as skipped and is no error. -/
theorem deleteRun?_of_error {first last : Nat} {e : DanglingTarget}
    (h : σ.stream.deleteRange first last = .error e) :
    deleteRun? first last σ =
      (.ok none, { σ with stats := { σ.stats with skipped := σ.stats.skipped + 1 } }) := by
  simp only [deleteRun?, bind_apply, get_apply, h]
  rfl

theorem failsWith_pruneTaken
    (hd : ∀ {last count cut}, σ.stream.prev? t = some last →
      σ.stream.deleteRange i last = .ok (count, cut) → ∃ stream, cut.deleteAll sites = .ok stream) :
    FailsWith P (pruneTaken i t sites) σ := by
  refine .bind_ok rfl ?_
  cases hp : σ.stream.prev? t with
  | none => exact .of_ok rfl
  | some last =>
      cases hr : σ.stream.deleteRange i last with
      | error e => exact .bind_ok (deleteRun?_of_error hr) (.of_ok rfl)
      | ok r =>
          obtain ⟨removed, cut⟩ := r
          obtain ⟨stream, hs⟩ := hd hp hr
          refine .bind_ok (deleteRun?_of_ok hr) ?_
          exact .bind_ok (forM_delete_eq_ok.2 ⟨stream, hs, rfl⟩) (.of_ok rfl)

theorem failsWith_fork : FailsWith P (fork i t) σ := .of_ok rfl

/-- A branch fails on its operands only. A run that cannot be deleted makes it
stay. -/
theorem failsWith_branch {condition : Condition}
    (hstack : ¬ Accepts σ condition.operands (∀ e, Eval.branchTaken condition · ≠ .error e) →
      P (.inconsistentStack i))
    (hd : ∀ {values sites},
      known? (operands condition.operands σ.stack) = some (values, sites) →
      (∃ stream, σ.stream.deleteAll (sites ++ [i]) = .ok stream) ∧
      ∀ {last count cut}, σ.stream.prev? t = some last →
        σ.stream.deleteRange i last = .ok (count, cut) →
        ∃ stream, cut.deleteAll sites = .ok stream) :
    FailsWith P (branch loops i condition t) σ := by
  refine .bind (failsWith_popMany fun hs => hstack fun h => hs h.1) fun slots τ hpop => ?_
  obtain ⟨hs, rfl, rfl⟩ := popMany_eq_ok.1 hpop
  refine .bind_ok rfl ?_
  dsimp only
  -- Whether the branch may be decided does not matter here, as a fork never fails.
  generalize (!σ.blocked && σ.stream.isForward i t && !Loops.isInside loops σ.stream i
    && !Loops.isInside loops σ.stream t) = decidable
  cases decidable with
  | false => exact failsWith_fork
  | true =>
      cases hk : known? (operands condition.operands σ.stack) with
      | none => exact failsWith_fork
      | some p =>
          obtain ⟨values, sites⟩ := p
          obtain ⟨⟨stream, hd⟩, hcut⟩ := hd hk
          dsimp only
          cases ht : Eval.branchTaken condition values with
          | error e => exact .throw (hstack fun h => h.2 values sites hk e ht)
          | ok taken =>
              rcases taken with _ | (_ | _)
              · exact failsWith_fork
              · exact failsWith_pruneNotTaken hd
              · refine .bind (failsWith_pruneTaken hcut) fun pruned τ _ => ?_
                cases pruned with
                | true => exact .of_ok rfl
                | false => exact failsWith_fork

theorem failsWith_jump : FailsWith P (jump i t) σ := by
  refine .bind_ok rfl ?_
  by_cases ha : σ.armed.contains i
  · simp only [ha, if_true]
    refine .bind_ok rfl ?_
    cases hp : σ.stream.prev? t with
    | none => exact .of_ok rfl
    | some last =>
        cases hr : σ.stream.deleteRange i last with
        | error e => exact .bind_ok (deleteRun?_of_error hr) (.of_ok rfl)
        | ok r => exact .bind_ok (deleteRun?_of_ok hr) (.of_ok rfl)
  · simp only [ha, Bool.false_eq_true, if_false]
    exact .of_ok rfl

theorem failsWith_verbatim {opcode : Opcode}
    (h : opcode.isSubroutine → P (.unsupportedInstruction opcode (σ.stream.position i))) :
    FailsWith P (verbatim i opcode) σ := by
  intro e τ herror
  by_cases hs : opcode.isSubroutine
  · simp only [verbatim, hs, if_true, bind_apply, get_apply, throw_apply] at herror
    cases herror
    exact h hs
  · simp only [verbatim, hs, Bool.false_eq_true, if_false, bind_apply, resetStack,
      modify_apply] at herror
    split at herror <;> cases herror

/-! ### Visits -/

/-- The simulated stack holds what an instruction takes, as far as is known. -/
def Serves (σ : State) : Instruction Nat → Prop
  | .store .. => Suffices σ 1
  | .switch .. => Suffices σ 1
  | .branch condition _ =>
      Accepts σ condition.operands (∀ e, Eval.branchTaken condition · ≠ .error e)
  | insn => ∀ c, computation? insn = some c → Accepts σ c.arity (c.eval · ≠ .error .typeMismatch)

/-- **A visit fails for two reasons only**: the stack does not serve the instruction,
or it is one of a subroutine. Deletions do not fail as long as control does not run
over the end of the method. -/
theorem failsWith_execute (hσ : Sound m i σ) (hm : m.IsClosed) (hlive : σ.stream.isLive i)
    (hi : m.code[i]? = some insn) (hnext : insn.fallsThrough → i + 1 < m.code.length)
    (hstack : ¬ Serves σ insn → P (.inconsistentStack i))
    (hsub : ∀ {opcode bytes}, insn = .verbatim opcode bytes → opcode.isSubroutine →
      P (.unsupportedInstruction opcode i)) :
    FailsWith P (execute loops i (insn.mapTargets σ.stream.ahead)) σ := by
  -- The nodes of known operands lie in front of the visited node, which stays, so their
  -- deletion finds a successor.
  have hsites : ∀ {count values sites},
      known? (operands count σ.stack) = some (values, sites) → ∀ k ∈ sites, k < i := by
    intro count values sites hk k hmem
    exact (hσ.held.isLive_of_mem_sites hk k hmem).1
  have hcompute : ∀ {c : Computation},
      (¬ Accepts σ c.arity (c.eval · ≠ .error .typeMismatch) → ¬ Serves σ insn) →
      FailsWith P (compute i c.arity c.eval) σ := by
    intro c hc
    exact failsWith_compute (fun h => hstack (hc h)) fun hk => exists_deleteAll hlive (hsites hk)
  cases insn with
  | const v => exact .of_ok rfl
  | load kind index => exact failsWith_load loops
  | store kind index => exact .bind (failsWith_pop hstack) fun _ _ _ => .of_ok rfl
  | increment index delta => exact .of_ok rfl
  | arith op kind => exact hcompute fun h hs => h (hs _ rfl)
  | compare comparison =>
      exact hcompute (c := ⟨2, evalCompare comparison⟩) fun h hs => h (hs _ (computation?_compare _))
  | convert source target =>
      exact hcompute (c := ⟨1, evalConvert source target⟩) fun h hs =>
        h (hs _ (computation?_convert _ _))
  | branch condition target =>
      have htarget : target < m.code.length :=
        hm.target (List.mem_of_getElem? hi) List.mem_cons_self
      refine failsWith_branch loops hstack fun {values sites} hk =>
        ⟨?_, fun {last count cut} hp hr => ?_⟩
      · -- The node behind a branch stays, and what goes lies in front of it.
        refine exists_deleteAll (hσ.isLive_of_le hlive (Nat.le_succ i) (hnext rfl)) fun k hmem => ?_
        rcases List.mem_append.1 hmem with hmem | hmem
        · exact (hsites hk k hmem).trans (Nat.lt_succ_self i)
        · rw [List.mem_singleton.1 hmem]
          exact Nat.lt_succ_self i
      · obtain ⟨hit, hlast⟩ := hσ.succ_last_eq hlive htarget hp hr
        have hstays : cut.isLive target :=
          (isLive_deleteRange hr).2 ⟨hσ.isLive_of_le hlive hit.le htarget, by omega⟩
        exact exists_deleteAll hstays fun k hmem => (hsites hk k hmem).trans hit
  | jump target => exact failsWith_jump
  | switch fallback cases =>
      exact .bind (failsWith_pop hstack) fun _ _ _ => .bind_ok forM_recordEdge (.of_ok rfl)
  | verbatim opcode bytes =>
      have hposition : σ.stream.position i = i := hσ.trimmed.position (hσ.trimmed.lt_length hlive)
      refine failsWith_verbatim fun hs => ?_
      rw [hposition]
      exact hsub rfl hs

theorem failsWith_visit (hσ : Sound m i σ) (hm : m.IsClosed) (hlive : σ.stream.isLive i)
    (hi : m.code[i]? = some insn) (hnext : insn.fallsThrough → i + 1 < m.code.length)
    (hstack : ¬ Serves σ insn → P (.inconsistentStack i))
    (hsub : ∀ {opcode bytes}, insn = .verbatim opcode bytes → opcode.isSubroutine →
      P (.unsupportedInstruction opcode i)) :
    FailsWith P (Fold.visit loops i) σ := by
  refine .bind_ok rfl ?_
  rw [hσ.trimmed.instruction le_rfl hlive hi]
  refine .bind (failsWith_execute loops hσ hm hlive hi hnext hstack hsub) fun _ _ _ => ?_
  split
  · exact .of_ok rfl
  · exact .of_ok rfl

/-! ### Walks -/

/-- A walk fails with the error of a visit. -/
theorem failsWith_walk {count : Nat}
    (hvisit : ∀ {i σ}, Sound m i σ → σ.stream.isLive i → FailsWith P (Fold.visit loops i) σ)
    (hσ : Sound m i σ) (hcount : i + count = m.code.length) :
    FailsWith P (walk loops (List.range' i count)) σ := by
  induction count generalizing i σ with
  | zero => exact .of_ok rfl
  | succ count ih =>
      rw [walk, List.range'_succ, forM_cons]
      by_cases hlive : σ.stream.isLive i
      · have henter : Sound m i (σ.enter loops i) := hσ.enter
        have hlive' : (σ.enter loops i).stream.isLive i := by rwa [Run.stream_enter]
        obtain ⟨insn, hi⟩ := henter.trimmed.thins.exists_code hlive'
        have hx := henter.trimmed.instruction le_rfl hlive' hi
        have hstep : (do
            if (← get).stream.isLive i then
              modify fun s => s.enter loops i
              Fold.visit loops i : Step Unit) σ = Fold.visit loops i (σ.enter loops i) := by
          rw [bind_apply, get_apply]
          simp only [hlive, if_true, bind_apply, modify_apply]
        refine .bind ?_ fun _ τ hok => ?_
        · intro e τ herror
          exact hvisit henter hlive' e τ (hstep ▸ herror)
        · have hv := visit_eq_ok hx (hstep ▸ hok)
          exact ih (henter.visit Sound.reachable_enter hlive' hx hv) (by omega)
      · refine .bind_ok (a := ()) (τ := σ) ?_ (ih (hσ.pass hlive (by omega)) (by omega))
        rw [bind_apply, get_apply]
        simp only [hlive, Bool.false_eq_true, if_false]
        rfl

/-- A pass over a method fails with the error of a visit. -/
theorem error_of_fold {e : OptimizeError} {s : CodeStream} (hm : m.IsClosed)
    (hvisit : ∀ {i σ}, Sound m i σ → σ.stream.isLive i →
      FailsWith P (Fold.visit (whole m).loops i) σ)
    (h : (whole m).fold (whole m).loops = (.error e, s)) : P e := by
  have hwalk := failsWith_walk (whole m).loops hvisit (sound_start hm) (Nat.zero_add _)
  rw [CodeStream.fold, ids_whole, List.range_eq_range'] at h
  rcases hw : walk (whole m).loops (List.range' 0 m.code.length) { stream := whole m } with
    ⟨error | _, final⟩
  · rw [hw] at h
    cases h
    exact hwalk e _ hw
  · rw [hw] at h
    cases h

end JvmOptimizer.Fold
