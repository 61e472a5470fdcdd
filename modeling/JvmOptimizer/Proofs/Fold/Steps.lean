import JvmOptimizer.Fold.Pass
import JvmOptimizer.Proofs.CodeStream.Thinning
import JvmOptimizer.Proofs.Machine.Basic
import JvmOptimizer.Proofs.Steps
import Mathlib.Data.List.Basic

/-!
# What a visit does

The folding pass visits one node after the other. `Visit` says all that a visit
can do to the state: to the stream, to what is known about variables and the
operand stack, and to what is remembered of transfers. The pass also keeps
counters, blocks and armed jumps, which decide between the things it may do but
not whether they are right; they are left open here.
-/

namespace JvmOptimizer

open Machine

namespace Fold

variable {loops : List LoopExtent} {σ σ' : State} {id : Nat}

/-- The slots that an instruction with `count` operands takes from the stack,
deepest first. -/
def operands (count : Nat) (stack : List Slot) : List Slot :=
  ((stack ++ List.replicate count Slot.unknown).take count).reverse

/-- Are there so many values on the stack, as far as is known? -/
def Suffices (σ : State) (count : Nat) : Prop := count ≤ σ.stack.length ∨ σ.floor

/-- The value stays, but the node that pushed it has to stay as well. -/
def Slot.keep (slot : Slot) : Slot := { slot with site := none }

/-- Known slots behind a store. -/
def Locals.stored (l : Locals) (kind : LocalKind) (index : UInt16) (value : Option Value) :
    Locals :=
  let rest := l.forgetAll (Instruction.store (τ := Nat) kind index).writtenSlots
  match value with
  | some v => if LocalKind.number v.kind = kind then rest.insert index.toNat v else rest
  | none => rest

/-- Known slots behind an increment. -/
def Locals.incremented (l : Locals) (index : UInt16) (delta : Int16) : Locals :=
  match l.get? index.toNat with
  | some (.int v) => l.insert index.toNat (.int (v + delta.toInt32))
  | _ => l.forgetAll [index.toNat]

/-- What is remembered when control may go to any of several targets. -/
def State.withEdges (σ : State) (id : Nat) (targets : List Nat) : List (Nat × Locals) :=
  σ.edges ++ (targets.filter (σ.stream.isForward id)).map fun t => (t, σ.locals)

/-- What a visit of the node `id` can make of a state. -/
inductive Visit (σ : State) (id : Nat) : Instruction Nat → State → Prop
  | const {v blocked} :
      Visit σ id (.const v) { σ with stack := ⟨some v, some id⟩ :: σ.stack, blocked }
  | load {kind index blocked} :
      Visit σ id (.load kind index)
        { σ with stack := ⟨σ.locals.ofKind? kind index.toNat, some id⟩ :: σ.stack, blocked }
  /-- A load of a known variable becomes a constant. -/
  | propagate {kind index v blocked stats} (hv : σ.locals.ofKind? kind index.toNat = some v) :
      Visit σ id (.load kind index)
        { σ with
          stream := σ.stream.replace id (.const v)
          stack := ⟨some v, some id⟩ :: σ.stack
          blocked
          stats }
  | store {kind index blocked} (hs : Suffices σ 1) :
      Visit σ id (.store kind index)
        { σ with
          stack := σ.stack.drop 1
          locals := σ.locals.stored kind index (σ.stack.head?.bind (·.value))
          blocked }
  | increment {index delta blocked} :
      Visit σ id (.increment index delta)
        { σ with locals := σ.locals.incremented index delta, blocked }
  | compute {insn c blocked stats} (hc : computation? insn = some c) (hs : Suffices σ c.arity) :
      Visit σ id insn
        { σ with stack := Slot.unknown :: σ.stack.drop c.arity, blocked, stats }
  /-- A computation becomes a constant, and its operands go. -/
  | condense {insn c values sites v stream blocked stats} (hc : computation? insn = some c)
      (hk : known? (operands c.arity σ.stack) = some (values, sites))
      (he : c.eval values = .ok v) (hd : σ.stream.deleteAll sites = .ok stream) :
      Visit σ id insn
        { σ with
          stream := stream.replace id (.const v)
          stack := ⟨some v, some id⟩ :: σ.stack.drop c.arity
          blocked
          stats }
  | branch {condition target blocked stats} (hs : Suffices σ condition.operands) :
      Visit σ id (.branch condition target)
        { σ with
          stack := (σ.stack.drop condition.operands).map Slot.keep
          edges := σ.withEdges id [target]
          blocked
          stats }
  /-- A branch that is never taken goes, and its operands with it. -/
  | pass {condition target values sites stream blocked stats armed}
      (hk : known? (operands condition.operands σ.stack) = some (values, sites))
      (he : Eval.branchTaken condition values = .ok (some false))
      (hd : σ.stream.deleteAll (sites ++ [id]) = .ok stream) :
      Visit σ id (.branch condition target)
        { σ with stream, stack := σ.stack.drop condition.operands, blocked, stats, armed }
  /-- A branch that is always taken goes, with its operands and all that it
  skips. -/
  | take {condition target values sites last count cut stream blocked stats}
      (hk : known? (operands condition.operands σ.stack) = some (values, sites))
      (he : Eval.branchTaken condition values = .ok (some true))
      (hp : σ.stream.prev? target = some last)
      (hr : σ.stream.deleteRange id last = .ok (count, cut))
      (hd : cut.deleteAll sites = .ok stream) :
      Visit σ id (.branch condition target)
        { σ with stream, stack := σ.stack.drop condition.operands, blocked, stats }
  | jump {target blocked stats armed} :
      Visit σ id (.jump target)
        { σ with edges := σ.withEdges id [target], reachable := false, blocked, stats, armed }
  /-- A jump goes with all that it skips. -/
  | skip {target last count stream blocked stats armed}
      (hp : σ.stream.prev? target = some last)
      (hr : σ.stream.deleteRange id last = .ok (count, stream)) :
      Visit σ id (.jump target) { σ with stream, blocked, stats, armed }
  | switch {fallback cases blocked} (hs : Suffices σ 1) :
      Visit σ id (.switch fallback cases)
        { σ with
          stack := σ.stack.drop 1
          edges := σ.withEdges id (fallback :: cases.targets)
          reachable := false
          blocked }
  | verbatim {opcode bytes blocked} (hs : ¬ opcode.isSubroutine) :
      Visit σ id (.verbatim opcode bytes)
        { σ with
          stack := []
          floor := true
          reachable := σ.reachable && !opcode.endsFlow
          blocked }

/-! ### Known operands -/

theorem mapM_eq_some {α β : Type} {f : α → Option β} {l : List α} {l' : List β}
    (h : l.mapM f = some l') : l.map f = l'.map some := by
  induction l generalizing l' with
  | nil =>
      cases h
      rfl
  | cons a l ih =>
      rw [List.mapM_cons] at h
      cases ha : f a with
      | none =>
          rw [ha] at h
          cases h
      | some b =>
          cases hl : l.mapM f with
          | none =>
              rw [ha, hl] at h
              cases h
          | some bs =>
              rw [ha, hl] at h
              cases h
              rw [List.map_cons, ha, ih hl, List.map_cons]

/-- Known operands stand on the stack, each with the node that pushed it. -/
theorem known_operands {stack : List Slot} {count : Nat} {values : List Value}
    {sites : List Nat} (h : known? (operands count stack) = some (values, sites)) :
    count ≤ stack.length ∧ (stack.take count).reverse.map (·.value) = values.map some ∧
      (stack.take count).reverse.map (·.site) = sites.map some := by
  unfold known? at h
  cases hv : (operands count stack).mapM (·.value) with
  | none => simp [hv] at h
  | some vs =>
      cases hs : (operands count stack).mapM (·.site) with
      | none => simp [hv, hs] at h
      | some ks =>
          simp only [hv, hs, Option.some.injEq, Prod.mk.injEq] at h
          obtain ⟨rfl, rfl⟩ := h
          have hvalues := mapM_eq_some hv
          have hle : count ≤ stack.length := by
            -- Otherwise the deepest operand would be the unknown one.
            by_contra hlt
            have hmem : Slot.unknown ∈ operands count stack := by
              rw [operands, List.mem_reverse, List.take_append, List.mem_append]
              right
              rw [List.take_replicate, List.mem_replicate]
              exact ⟨by omega, rfl⟩
            have hnone : (none : Option Value) ∈ (operands count stack).map (·.value) :=
              List.mem_map.2 ⟨_, hmem, rfl⟩
            rw [hvalues] at hnone
            simp at hnone
          have hops : operands count stack = (stack.take count).reverse := by
            rw [operands, List.take_append_of_le_length hle]
          rw [← hops]
          exact ⟨hle, hvalues, mapM_eq_some hs⟩

/-! ### Single steps -/

section Steps

open Steps

theorem operands_succ (count : Nat) (top : Slot) (rest : List Slot) :
    operands (count + 1) (top :: rest) = operands count rest ++ [top] := by
  have h : ∀ l : List Slot, (l ++ List.replicate (count + 1) Slot.unknown).take count =
      (l ++ List.replicate count Slot.unknown).take count := by
    intro l
    rw [List.replicate_succ', ← List.append_assoc,
      List.take_append_of_le_length (by simp)]
  simp [operands, h]

theorem operands_nil (count : Nat) :
    operands count [] = List.replicate count Slot.unknown := by
  simp [operands]

theorem popMany_apply (count : Nat) (σ : State) :
    popMany id count σ =
      if count ≤ σ.stack.length ∨ σ.floor then
        (.ok (operands count σ.stack), { σ with stack := σ.stack.drop count })
      else
        (.error (.inconsistentStack id), { σ with stack := [] }) := by
  induction count generalizing σ with
  | zero => simp [popMany, operands]
  | succ count ih =>
      obtain ⟨stream, locals, stack, floor, blocked, reachable, armed, edges, stats⟩ := σ
      simp only [popMany, bind_apply, pop, get_apply]
      cases stack with
      | nil =>
          cases floor with
          | false => simp
          | true => simp [ih, operands_nil, List.replicate_succ']
      | cons top rest =>
          by_cases h : count ≤ rest.length ∨ floor = true <;>
            simp [bind_apply, ih, operands_succ, h]

/-- A pop takes what it needs or fails. -/
theorem popMany_eq_ok {count : Nat} {slots : List Slot} :
    popMany id count σ = (.ok slots, σ') ↔
      Suffices σ count ∧ operands count σ.stack = slots ∧
        { σ with stack := σ.stack.drop count } = σ' := by
  rw [popMany_apply, Suffices]
  split
  · rename_i h
    simp [h]
  · rename_i h
    simp [h]

theorem pop_eq_ok {slot : Slot} :
    pop id σ = (.ok slot, σ') ↔
      Suffices σ 1 ∧ σ.stack.head?.getD Slot.unknown = slot ∧
        { σ with stack := σ.stack.drop 1 } = σ' := by
  obtain ⟨stream, locals, stack, floor, blocked, reachable, armed, edges, stats⟩ := σ
  simp only [pop, bind_apply, get_apply, Suffices]
  cases stack with
  | nil => cases floor <;> simp
  | cons top rest => simp [bind_apply]

theorem delete_eq_ok :
    delete id σ = (.ok (), σ') ↔
      ∃ stream, σ.stream.deleteOne id = .ok stream ∧ { σ with stream } = σ' := by
  simp only [delete, bind_apply, get_apply]
  cases hd : σ.stream.deleteOne id with
  | error e => simp
  | ok stream => simp

/-- Deleting nodes one by one is one deletion of the list. -/
theorem forM_delete_eq_ok {ids : List Nat} :
    ids.forM delete σ = (.ok (), σ') ↔
      ∃ stream, σ.stream.deleteAll ids = .ok stream ∧ { σ with stream } = σ' := by
  induction ids generalizing σ with
  | nil =>
      rw [forM_nil, pure_apply, ok_eq_ok]
      constructor
      · rintro ⟨-, rfl⟩
        exact ⟨σ.stream, rfl, rfl⟩
      · rintro ⟨stream, h, rfl⟩
        cases h
        exact ⟨rfl, rfl⟩
  | cons id ids ih =>
      rw [forM_cons, bind_eq_ok, CodeStream.deleteAll, List.foldlM_cons]
      constructor
      · rintro ⟨⟨⟩, τ, hd, hl⟩
        obtain ⟨first, hf, rfl⟩ := delete_eq_ok.1 hd
        obtain ⟨stream, hs, rfl⟩ := ih.1 hl
        exact ⟨stream, by rw [hf]; exact hs, rfl⟩
      · rintro ⟨stream, hs, rfl⟩
        cases hf : σ.stream.deleteOne id with
        | error e =>
            rw [hf] at hs
            cases hs
        | ok first =>
            rw [hf] at hs
            exact ⟨⟨⟩, _, delete_eq_ok.2 ⟨first, hf, rfl⟩, ih.2 ⟨stream, hs, rfl⟩⟩

/-- Recording edges cannot fail, and changes nothing but the edges. -/
theorem forM_recordEdge {targets : List Nat} :
    targets.forM (recordEdge id) σ = (.ok (), { σ with edges := σ.withEdges id targets }) := by
  induction targets generalizing σ with
  | nil => simp [forM_nil, State.withEdges]
  | cons t targets ih =>
      rw [forM_cons, bind_apply, recordEdge, modify_apply]
      simp only
      rw [ih]
      by_cases hf : σ.stream.isForward id t <;> simp [State.withEdges, hf]

/-- A load stays or becomes a constant. -/
theorem load_eq_ok {kind : LocalKind} {slot : Nat}
    (h : load loops id kind slot σ = (.ok (), σ')) :
    (∃ blocked, σ' = { σ with
      stack := ⟨σ.locals.ofKind? kind slot, some id⟩ :: σ.stack, blocked }) ∨
    ∃ v stats, σ.locals.ofKind? kind slot = some v ∧
      σ' = { σ with
        stream := σ.stream.replace id (.const v)
        stack := ⟨some v, some id⟩ :: σ.stack
        stats } ∧
      stats.deleted = σ.stats.deleted := by
  simp only [load, bind_apply, get_apply] at h
  cases hv : σ.locals.ofKind? kind slot with
  | none =>
      simp only [hv, push, modify_apply, ok_eq_ok, true_and] at h
      exact .inl ⟨_, h.symm⟩
  | some v =>
      by_cases hc : Loops.changesAround loops σ.stream id slot
      · simp only [hv, hc, if_true, push, bind_apply, modify_apply, ok_eq_ok, true_and] at h
        exact .inl ⟨_, h.symm⟩
      · simp only [hv, hc, if_false, Bool.false_eq_true, push, bind_apply, replaceByConst, count,
          modify_apply, ok_eq_ok, true_and] at h
        exact .inr ⟨v, _, rfl, h.symm, rfl⟩

/-- A load stays or becomes a constant. The lemmas that follow say the same for
the other instructions, each from what its handler does. -/
theorem visit_load {kind : LocalKind} {index : UInt16}
    (h : load loops id kind index.toNat σ = (.ok (), σ')) :
    Visit σ id (.load kind index) σ' := by
  rcases load_eq_ok h with ⟨blocked, rfl⟩ | ⟨v, stats, hv, rfl, -⟩
  · exact .load
  · exact .propagate hv

theorem visit_store {kind : LocalKind} {index : UInt16}
    (h : store id kind index σ = (.ok (), σ')) : Visit σ id (.store kind index) σ' := by
  rw [store, bind_eq_ok] at h
  obtain ⟨slot, τ, hp, h⟩ := h
  obtain ⟨hs, rfl, rfl⟩ := pop_eq_ok.1 hp
  simp only [modify_apply, ok_eq_ok, true_and] at h
  have hvalue : (σ.stack.head?.getD Slot.unknown).value = σ.stack.head?.bind (·.value) := by
    cases σ.stack <;> rfl
  have heq : σ' = { σ with
      stack := σ.stack.drop 1
      locals := σ.locals.stored kind index (σ.stack.head?.bind (·.value)) } := by
    rw [← h, hvalue]
    cases σ.stack.head?.bind (·.value) with
    | none => rfl
    | some v =>
        simp only [Locals.stored]
        split <;> rfl
  rw [heq]
  exact .store hs

theorem visit_increment {index : UInt16} {delta : Int16}
    (h : increment index delta σ = (.ok (), σ')) :
    Visit σ id (.increment index delta) σ' := by
  simp only [increment, modify_apply, ok_eq_ok, true_and] at h
  have heq : σ' = { σ with locals := σ.locals.incremented index delta } := by
    rw [← h]
    unfold Locals.incremented
    rcases σ.locals.get? index.toNat with _ | (_ | _ | _ | _) <;> rfl
  rw [heq]
  exact .increment

/-- A computation stays, or becomes a constant and takes its operands with it. -/
theorem compute_eq_ok {arity : Nat} {eval : List Value → Except EvalError Value}
    (h : compute id arity eval σ = (.ok (), σ')) :
    Suffices σ arity ∧
      ((∃ blocked stats,
        σ' = { σ with stack := Slot.unknown :: σ.stack.drop arity, blocked, stats } ∧
        stats.deleted = σ.stats.deleted) ∨
      ∃ values sites v stream blocked stats,
        known? (operands arity σ.stack) = some (values, sites) ∧ eval values = .ok v ∧
        σ.stream.deleteAll sites = .ok stream ∧
        σ' = { σ with
          stream := stream.replace id (.const v)
          stack := ⟨some v, some id⟩ :: σ.stack.drop arity
          blocked
          stats } ∧
        stats.deleted = σ.stats.deleted + sites.length) := by
  rw [compute, bind_eq_ok] at h
  obtain ⟨slots, τ, hp, h⟩ := h
  obtain ⟨hs, rfl, rfl⟩ := popMany_eq_ok.1 hp
  refine ⟨hs, ?_⟩
  simp only [bind_apply, get_apply, modify_apply] at h
  -- Nothing is folded in a blocked stretch, with unknown operands or on a division by zero.
  cases hb : σ.blocked with
  | true =>
      simp only [hb, push, modify_apply, ok_eq_ok, true_and] at h
      exact .inl ⟨_, _, h.symm, rfl⟩
  | false =>
      cases hk : known? (operands arity σ.stack) with
      | none =>
          simp only [hb, hk, push, modify_apply, ok_eq_ok, true_and] at h
          exact .inl ⟨_, _, h.symm, rfl⟩
      | some p =>
          obtain ⟨values, sites⟩ := p
          simp only [hb, hk] at h
          cases he : eval values with
          | ok v =>
              simp only [he, condense, bind_eq_ok] at h
              obtain ⟨⟨⟩, τ, hd, ⟨⟩, ρ, hr, ⟨⟩, υ, hn, h⟩ := h
              obtain ⟨stream, hdelete, rfl⟩ := forM_delete_eq_ok.1 hd
              simp only [replaceByConst, count, push, modify_apply, ok_eq_ok, true_and] at hr hn h
              subst hr hn
              exact .inr ⟨values, sites, v, stream, _, _, rfl, he, hdelete, h.symm, rfl⟩
          | error e =>
              cases e with
              | divisionByZero op =>
                  simp only [he, bind_apply, count, push, modify_apply, ok_eq_ok, true_and] at h
                  exact .inl ⟨_, _, h.symm, rfl⟩
              | typeMismatch => simp [he] at h

theorem visit_compute {insn : Instruction Nat} {c : Computation}
    (hc : computation? insn = some c) (h : compute id c.arity c.eval σ = (.ok (), σ')) :
    Visit σ id insn σ' := by
  obtain ⟨hs, ⟨blocked, stats, rfl, -⟩ |
    ⟨values, sites, v, stream, blocked, stats, hk, he, hd, rfl, -⟩⟩ := compute_eq_ok h
  · exact .compute hc hs
  · exact .condense hc hk he hd

theorem fork_eq_ok {target : Nat} (h : fork id target σ = (.ok (), σ')) :
    σ' = { σ with stack := σ.stack.map Slot.keep, edges := σ.withEdges id [target] } := by
  simp only [fork, bind_apply, recordEdge, modify_apply, ok_eq_ok, true_and] at h
  rw [← h]
  by_cases hf : σ.stream.isForward id target
  · simp only [State.withEdges, hf, if_true, List.filter_cons_of_pos, List.filter_nil]
    rfl
  · simp only [State.withEdges, hf, Bool.false_eq_true, if_false, not_false_eq_true,
      List.filter_cons_of_neg, List.filter_nil, List.map_nil, List.append_nil]
    rfl

theorem pruneNotTaken_eq_ok {target : Nat} {sites : List Nat}
    (h : pruneNotTaken id target sites σ = (.ok (), σ')) :
    ∃ stream stats armed, σ.stream.deleteAll (sites ++ [id]) = .ok stream ∧
      σ' = { σ with stream, stats, armed } ∧
      stats.deleted = σ.stats.deleted + (sites ++ [id]).length := by
  simp only [pruneNotTaken, bind_eq_ok] at h
  obtain ⟨τ, _, hg, ⟨⟩, τ, hs, ⟨⟩, ρ, hd, ⟨⟩, υ, hn, h⟩ := h
  cases hg
  obtain ⟨mid, hm, rfl⟩ := forM_delete_eq_ok.1 hs
  obtain ⟨stream, hl, rfl⟩ := delete_eq_ok.1 hd
  simp only [count, modify_apply, ok_eq_ok, true_and] at hn h
  subst hn h
  refine ⟨stream, _, _, ?_, rfl, ?_⟩
  · rw [CodeStream.deleteAll] at hm
    rw [CodeStream.deleteAll, List.foldlM_append, hm]
    change (CodeStream.deleteOne mid id >>= fun s => pure s) = _
    rw [bind_pure, hl]
  · simp only [List.length_append, List.length_singleton]
    omega

/-- A branch that is taken goes with its run, or the run cannot go and nothing
changes but the statistics. -/
theorem pruneTaken_eq_ok {target : Nat} {sites : List Nat} {pruned : Bool}
    (h : pruneTaken id target sites σ = (.ok pruned, σ')) :
    (pruned = true ∧ ∃ last count cut stream stats, σ.stream.prev? target = some last ∧
      σ.stream.deleteRange id last = .ok (count, cut) ∧ cut.deleteAll sites = .ok stream ∧
      σ' = { σ with stream, stats } ∧ stats.deleted = σ.stats.deleted + count + sites.length) ∨
    (pruned = false ∧ ∃ stats, σ' = { σ with stats } ∧ stats.deleted = σ.stats.deleted) := by
  simp only [pruneTaken, bind_apply, get_apply] at h
  cases hp : σ.stream.prev? target with
  | none =>
      simp only [hp, pure_apply, ok_eq_ok] at h
      obtain ⟨rfl, rfl⟩ := h
      exact .inr ⟨rfl, _, rfl, rfl⟩
  | some last =>
      simp only [hp, deleteRun?, bind_apply, get_apply] at h
      cases hr : σ.stream.deleteRange id last with
      | error e =>
          simp only [hr, bind_apply, count, modify_apply, pure_apply, ok_eq_ok] at h
          obtain ⟨rfl, rfl⟩ := h
          exact .inr ⟨rfl, _, rfl, rfl⟩
      | ok r =>
          obtain ⟨removed, cut⟩ := r
          simp only [hr, bind_apply, set_apply, pure_apply] at h
          rcases hs : sites.forM delete { σ with stream := cut } with ⟨_ | ⟨⟩, τ⟩
          · simp [hs] at h
          · obtain ⟨stream, hd, rfl⟩ := forM_delete_eq_ok.1 hs
            simp only [hs, count, modify_apply, ok_eq_ok] at h
            obtain ⟨rfl, rfl⟩ := h
            exact .inl ⟨rfl, last, removed, cut, stream, _, rfl, hr, hd, rfl, rfl⟩

/-- A branch stays, or goes with its operands: by itself if it is never taken, and
with all that it skips if it always is. -/
theorem branch_eq_ok {condition : Condition} {target : Nat}
    (h : branch loops id condition target σ = (.ok (), σ')) :
    (Suffices σ condition.operands ∧ ∃ stats,
      σ' = { σ with
        stack := (σ.stack.drop condition.operands).map Slot.keep
        edges := σ.withEdges id [target]
        stats } ∧
      stats.deleted = σ.stats.deleted) ∨
    ∃ values sites stream stats,
      known? (operands condition.operands σ.stack) = some (values, sites) ∧
      ((Eval.branchTaken condition values = .ok (some false) ∧
        σ.stream.deleteAll (sites ++ [id]) = .ok stream ∧
        (∃ armed, σ' = { σ with
          stream, stack := σ.stack.drop condition.operands, stats, armed }) ∧
        stats.deleted = σ.stats.deleted + (sites ++ [id]).length) ∨
      (Eval.branchTaken condition values = .ok (some true) ∧ ∃ last count cut,
        σ.stream.prev? target = some last ∧
        σ.stream.deleteRange id last = .ok (count, cut) ∧ cut.deleteAll sites = .ok stream ∧
        σ' = { σ with stream, stack := σ.stack.drop condition.operands, stats } ∧
        stats.deleted = σ.stats.deleted + count + sites.length)) := by
  rw [branch, bind_eq_ok] at h
  obtain ⟨slots, τ, hp, h⟩ := h
  obtain ⟨hs, rfl, rfl⟩ := popMany_eq_ok.1 hp
  rw [bind_apply] at h
  simp only [get_apply] at h
  -- Whether the branch may be decided: only the way it goes matters here.
  generalize (!σ.blocked && σ.stream.isForward id target && !Loops.isInside loops σ.stream id
    && !Loops.isInside loops σ.stream target) = decidable at h
  cases decidable with
  | false => exact .inl ⟨hs, _, fork_eq_ok h, rfl⟩
  | true =>
      cases hk : known? (operands condition.operands σ.stack) with
      | none =>
          rw [hk] at h
          exact .inl ⟨hs, _, fork_eq_ok h, rfl⟩
      | some p =>
          obtain ⟨values, sites⟩ := p
          simp only [hk] at h
          cases he : Eval.branchTaken condition values with
          | error e => simp [he] at h
          | ok taken =>
              simp only [he] at h
              rcases taken with _ | (_ | _)
              · exact .inl ⟨hs, _, fork_eq_ok h, rfl⟩
              · obtain ⟨stream, stats, armed, hd, rfl, hn⟩ := pruneNotTaken_eq_ok h
                exact .inr ⟨values, sites, stream, stats, rfl, .inl ⟨he, hd, ⟨armed, rfl⟩, hn⟩⟩
              · rw [bind_eq_ok] at h
                obtain ⟨pruned, τ, ht, h⟩ := h
                rcases pruneTaken_eq_ok ht with ⟨rfl, last, count, cut, stream, stats, hprev, hr,
                  hd, rfl, hn⟩ | ⟨rfl, stats, rfl, hn⟩
                · cases h
                  exact .inr ⟨values, sites, stream, stats, rfl,
                    .inr ⟨he, last, count, cut, hprev, hr, hd, rfl, hn⟩⟩
                · exact .inl ⟨hs, stats, fork_eq_ok h, hn⟩

theorem visit_branch {condition : Condition} {target : Nat}
    (h : branch loops id condition target σ = (.ok (), σ')) :
    Visit σ id (.branch condition target) σ' := by
  obtain ⟨hs, stats, rfl, -⟩ | ⟨values, sites, stream, stats, hk, ⟨he, hd, ⟨armed, rfl⟩, -⟩ |
    ⟨he, last, count, cut, hp, hr, hd, rfl, -⟩⟩ := branch_eq_ok h
  · exact .branch hs
  · exact .pass hk he hd
  · exact .take hk he hp hr hd

/-- A jump stays, or goes with all that it skips. -/
theorem jump_eq_ok {target : Nat} (h : jump id target σ = (.ok (), σ')) :
    (∃ stats armed,
      σ' = { σ with edges := σ.withEdges id [target], reachable := false, stats, armed } ∧
      stats.deleted = σ.stats.deleted) ∨
    ∃ last count stream stats armed, σ.stream.prev? target = some last ∧
      σ.stream.deleteRange id last = .ok (count, stream) ∧
      σ' = { σ with stream, stats, armed } ∧ stats.deleted = σ.stats.deleted + count := by
  -- Three of the four ways end with the jump in place.
  have hkept : ∀ {stats armed},
      (do recordEdge id target; endFlow : Step Unit) { σ with stats, armed } = (.ok (), σ') →
      stats.deleted = σ.stats.deleted →
      ∃ stats armed,
        σ' = { σ with edges := σ.withEdges id [target], reachable := false, stats, armed } ∧
        stats.deleted = σ.stats.deleted := by
    intro stats armed h hn
    simp only [bind_apply, recordEdge, endFlow, modify_apply, ok_eq_ok, true_and] at h
    refine ⟨stats, armed, ?_, hn⟩
    rw [← h]
    by_cases hf : σ.stream.isForward id target <;> simp [State.withEdges, hf]
  simp only [jump, bind_apply, get_apply] at h
  by_cases ha : σ.armed.contains id
  · simp only [ha, if_true, bind_apply, set_apply] at h
    cases hp : σ.stream.prev? target with
    | none =>
        simp only [hp] at h
        exact .inl (hkept h rfl)
    | some last =>
        simp only [hp, bind_apply, deleteRun?, get_apply] at h
        cases hr : σ.stream.deleteRange id last with
        | error e =>
            simp only [hr, bind_apply, count, modify_apply, pure_apply] at h
            exact .inl (hkept h rfl)
        | ok r =>
            obtain ⟨removed, stream⟩ := r
            simp only [hr, bind_apply, set_apply, pure_apply, count, modify_apply, ok_eq_ok,
              true_and] at h
            exact .inr ⟨last, removed, stream, _, _, rfl, hr, h.symm, rfl⟩
  · simp only [ha, Bool.false_eq_true, if_false] at h
    exact .inl (hkept h rfl)

theorem visit_jump {target : Nat} (h : jump id target σ = (.ok (), σ')) :
    Visit σ id (.jump target) σ' := by
  obtain ⟨stats, armed, rfl, -⟩ | ⟨last, count, stream, stats, armed, hp, hr, rfl, -⟩ :=
    jump_eq_ok h
  · exact .jump
  · exact .skip hp hr

theorem visit_switch {fallback : Nat} {cases : SwitchTable Nat}
    (h : switch id (fallback :: cases.targets) σ = (.ok (), σ')) :
    Visit σ id (.switch fallback cases) σ' := by
  rw [switch, bind_eq_ok] at h
  obtain ⟨slot, τ, hp, h⟩ := h
  obtain ⟨hs, -, rfl⟩ := pop_eq_ok.1 hp
  rw [bind_apply, forM_recordEdge] at h
  simp only [endFlow, modify_apply, ok_eq_ok, true_and] at h
  subst h
  exact .switch hs

theorem visit_verbatim {opcode : Opcode} {bytes : Bytes}
    (h : verbatim id opcode σ = (.ok (), σ')) : Visit σ id (.verbatim opcode bytes) σ' := by
  simp only [verbatim] at h
  by_cases hs : opcode.isSubroutine
  · simp [hs, bind_apply] at h
  · simp only [hs, Bool.false_eq_true, if_false, bind_apply, resetStack, modify_apply] at h
    have heq : σ' = { σ with
        stack := [], floor := true, reachable := σ.reachable && !opcode.endsFlow } := by
      by_cases he : opcode.endsFlow
      · simp only [he, if_true, endFlow, modify_apply, ok_eq_ok, true_and] at h
        simp [← h, he]
      · simp only [he, Bool.false_eq_true, if_false, pure_apply, ok_eq_ok, true_and] at h
        simp [← h, he]
    rw [heq]
    exact .verbatim hs

theorem computation?_compare {τ : Type} (c : Comparison) :
    computation? (.compare (τ := τ) c) = some ⟨2, evalCompare c⟩ := by
  simp only [computation?, Option.some.injEq, Computation.mk.injEq, true_and]
  funext values
  rcases values with _ | ⟨a, _ | ⟨b, _ | _⟩⟩ <;> rfl

theorem computation?_convert {τ : Type} (source : Kind) (target : ConvertTarget) :
    computation? (.convert (τ := τ) source target) = some ⟨1, evalConvert source target⟩ := by
  simp only [computation?, Option.some.injEq, Computation.mk.injEq, true_and]
  funext values
  rcases values with _ | ⟨a, _ | _⟩ <;> rfl

/-- **What a visit does** is one of the listed changes, by the handler of the
instruction. -/
theorem visit_execute {insn : Instruction Nat} (h : execute loops id insn σ = (.ok (), σ')) :
    Visit σ id insn σ' := by
  cases insn with
  | const v =>
      simp only [execute, push, modify_apply, ok_eq_ok, true_and] at h
      subst h
      exact .const
  | load kind index => exact visit_load h
  | store kind index => exact visit_store h
  | increment index delta => exact visit_increment h
  | arith op kind => exact visit_compute rfl h
  | compare c => exact visit_compute (computation?_compare c) h
  | convert source target => exact visit_compute (computation?_convert source target) h
  | branch condition target => exact visit_branch h
  | jump target => exact visit_jump h
  | switch fallback cases => exact visit_switch h
  | verbatim opcode bytes => exact visit_verbatim h

/-- The block may be lifted or not. -/
theorem Visit.withBlocked {insn : Instruction Nat} (h : Visit σ id insn σ') (blocked : Bool) :
    Visit σ id insn { σ' with blocked } := by
  cases h with
  | const => exact .const
  | load => exact .load
  | propagate hv => exact .propagate hv
  | store hs => exact .store hs
  | increment => exact .increment
  | compute hc hs => exact .compute hc hs
  | condense hc hk he hd => exact .condense hc hk he hd
  | branch hs => exact .branch hs
  | pass hk he hd => exact .pass hk he hd
  | take hk he hp hr hd => exact .take hk he hp hr hd
  | jump => exact .jump
  | skip hp hr => exact .skip hp hr
  | switch hs => exact .switch hs
  | verbatim hs => exact .verbatim hs

/-- **A visit that succeeds** does what `Visit` says. -/
theorem visit_eq_ok {insn : Instruction Nat} (hi : σ.stream.instruction? id = some insn)
    (h : visit loops id σ = (.ok (), σ')) : Visit σ id insn σ' := by
  simp only [visit, bind_apply, get_apply, hi] at h
  rcases he : execute loops id insn σ with ⟨_ | ⟨⟩, τ⟩
  · simp [he] at h
  · simp only [he] at h
    have hv := visit_execute he
    by_cases hp : insn.isPurePush
    · simp only [hp, Bool.not_true, Bool.false_eq_true, if_false, pure_apply, ok_eq_ok,
        true_and] at h
      subst h
      exact hv
    · simp only [hp, Bool.not_false, if_true, modify_apply, ok_eq_ok, true_and] at h
      subst h
      exact hv.withBlocked false

end Steps

end Fold

end JvmOptimizer
