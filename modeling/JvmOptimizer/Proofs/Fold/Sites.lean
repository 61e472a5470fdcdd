import JvmOptimizer.Proofs.CodeStream.Reached
import JvmOptimizer.Proofs.Fold.Run
import Mathlib.Data.List.Sort

/-!
# The nodes behind the simulated stack

A value on the simulated stack that still has its node may be deleted together
with that node, so a good deal has to be true of these **sites** whenever the pass
enters a node. They are live pushes in front of it, in the order of the stack, and
what a slot knows is what its site pushes. From the lowest site on, control has come
straight to the node: nothing in between branches, is branched to, or may do
anything to the stack.

The last point is what keeps the others. A site above another is led to by nothing,
so its deletion hands no reference over; and a site that something leads to is the
lowest one, below which no other is pending.

The table of known variables is kept in order as well: no wide value reaches into
the slot of another.
-/

namespace JvmOptimizer

/-- The instructions that no value on the simulated stack keeps its node across:
transfers of control, and those that may do anything to the stack. -/
def Instruction.isBarrier {τ : Type} : Instruction τ → Bool
  | .verbatim .. => true
  | .branch .. => true
  | .jump .. => true
  | .switch .. => true
  | _ => false

theorem Instruction.targets_of_not_isBarrier {τ : Type} {insn : Instruction τ}
    (h : insn.isBarrier = false) : insn.targets = [] := by
  cases insn with
  | branch | jump | switch => cases h
  | _ => rfl

namespace CodeStream

variable {s s' : CodeStream} {n k id : Nat} {insn : Instruction Nat}

/-! ### Straight code -/

/-- Control comes to the node from the node in front only, and goes on to the node
behind it. -/
structure IsStraight (s : CodeStream) (k : Nat) : Prop where
  instruction : ∃ insn, s.instruction? k = some insn ∧ insn.isBarrier = false
  target : ∀ {n}, s.isLive n → k ∉ s.targets n
  entry : ∀ {r}, r ∈ s.handlers → r.entry ≠ k

/-- A node that does not branch cannot lead to itself. -/
theorem isStraight_iff : s.IsStraight k ↔
    (∃ insn, s.instruction? k = some insn ∧ insn.isBarrier = false) ∧ ¬ s.isTargeted k := by
  rw [isTargeted_iff, isHandlerEntry_iff]
  constructor
  · rintro ⟨hinsn, htarget, hentry⟩
    refine ⟨hinsn, ?_⟩
    rintro (⟨r, hr, heq⟩ | ⟨n, hn, -, hmem⟩)
    · exact hentry hr heq
    · exact htarget hn hmem
  · rintro ⟨⟨insn, hi, hb⟩, hnot⟩
    refine ⟨⟨insn, hi, hb⟩, fun {n} hn hmem => ?_, fun hr heq => hnot (.inl ⟨_, hr, heq⟩)⟩
    by_cases hne : n = k
    · subst hne
      rw [targets_of_instruction? hi, Instruction.targets_of_not_isBarrier hb] at hmem
      cases hmem
    · exact hnot (.inr ⟨n, hn, hne, hmem⟩)

/-- A deletion makes a node a target only if something led to the deleted one. -/
theorem not_isTargeted_deleteOne (hd : s.deleteOne id = .ok s') (hlive : s.isLive id)
    (hid : ¬ s.isTargeted id) (hk : ¬ s.isTargeted k) : ¬ s'.isTargeted k := by
  rw [isTargeted_iff, isHandlerEntry_iff] at hid hk ⊢
  rintro (⟨r, hr, rfl⟩ | ⟨n, hn, hne, hmem⟩)
  · obtain ⟨r₀, hr₀, ⟨-, rfl⟩ | ⟨-, -, rfl⟩⟩ := mem_handlers_deleteOne hd hlive hr
    · have hentry : r₀.entry ≠ id := fun heq => hid (.inl ⟨r₀, hr₀, heq⟩)
      exact hk (.inl ⟨r₀, hr₀, (moved_of_ne hentry).symm⟩)
    · refine hk (.inl ⟨r₀, hr₀, ?_⟩)
      split <;> rfl
  · obtain ⟨hn, hnid⟩ := isLive_of_deleteOne hd hlive hn
    obtain ⟨insn, hi⟩ := exists_instruction_of_lt (lt_size_of_isLive hn)
    have hi' := instruction?_deleteOne hd hlive hn hnid
    rw [hi, Option.map_some] at hi'
    rw [targets_of_instruction? hi', Instruction.targets_mapTargets] at hmem
    obtain ⟨t, ht, rfl⟩ := List.mem_map.1 hmem
    rw [← targets_of_instruction? hi] at ht
    have htid : t ≠ id := by
      rintro rfl
      exact hid (.inr ⟨n, hn, hnid, ht⟩)
    rw [moved_of_ne htid] at hk hne
    exact hk (.inr ⟨n, hn, hne, ht⟩)

theorem not_isTargeted_deleteAll {ids : List Nat} (hd : s.deleteAll ids = .ok s')
    (hids : ∀ id ∈ ids, ¬ s.isTargeted id) (hk : ¬ s.isTargeted k) : ¬ s'.isTargeted k := by
  refine deleteAll_induction (P := fun t => ∀ k, ¬ s.isTargeted k → ¬ t.isTargeted k) hd
    (fun _ hk => hk) (fun hmem hlive hd ih k hk => ?_) k hk
  exact not_isTargeted_deleteOne hd hlive (ih _ (hids _ hmem)) (ih k hk)

/-- A run hands nothing over to the node behind it but bounds of ranges. -/
theorem not_isTargeted_deleteRange {first last count : Nat}
    (hd : s.deleteRange first last = .ok (count, s')) (hk : ¬ s.isTargeted k) :
    ¬ s'.isTargeted k := by
  rw [isTargeted_iff, isHandlerEntry_iff] at hk ⊢
  rintro (⟨r, hr, rfl⟩ | ⟨n, hn, hne, hmem⟩)
  · obtain ⟨r₀, hr₀, hentry⟩ := exists_entry_of_deleteRange hd hr
    exact hk (.inl ⟨r₀, hr₀, hentry⟩)
  · rw [targets, instruction?_deleteRange hd] at hmem
    exact hk (.inr ⟨n, ((isLive_deleteRange hd).1 hn).1, hne, hmem⟩)

namespace IsStraight

/-- A node that is passed straight through stays so while nodes go that are no
targets. -/
theorem deleteAll {ids : List Nat} (h : s.IsStraight k) (hd : s.deleteAll ids = .ok s')
    (hids : ∀ id ∈ ids, ¬ s.isTargeted id) : s'.IsStraight k := by
  obtain ⟨⟨insn, hi, hb⟩, hnot⟩ := isStraight_iff.1 h
  have hi' := instruction?_deleteAll hd hi (Instruction.targets_of_not_isBarrier hb)
  exact isStraight_iff.2 ⟨⟨insn, hi', hb⟩, not_isTargeted_deleteAll hd hids hnot⟩

theorem deleteRange {first last count : Nat} (h : s.IsStraight k)
    (hd : s.deleteRange first last = .ok (count, s')) : s'.IsStraight k := by
  obtain ⟨⟨insn, hi, hb⟩, hnot⟩ := isStraight_iff.1 h
  have hi' := (instruction?_deleteRange hd (n := k)).trans hi
  exact isStraight_iff.2 ⟨⟨insn, hi', hb⟩, not_isTargeted_deleteRange hd hnot⟩

theorem replaceByConst {v : Value} (h : s.IsStraight k) (hlt : id < s.nodes.size) :
    (s.replace id (.const v)).IsStraight k where
  instruction := by
    by_cases hk : k = id
    · subst hk
      exact ⟨_, instruction?_replace_self hlt, rfl⟩
    · rw [instruction?_replace_of_ne hk]
      exact h.instruction
  target := by
    intro n hn hmem
    rw [isLive_replace] at hn
    by_cases hne : n = id
    · subst hne
      rw [targets_of_instruction? (instruction?_replace_self hlt)] at hmem
      cases hmem
    · rw [targets, instruction?_replace_of_ne hne] at hmem
      exact h.target hn hmem
  entry := h.entry

end IsStraight

end CodeStream

namespace Fold

open CodeStream

variable {m : Method} {s s' : CodeStream} {i k p n count : Nat} {σ σ' : State}
  {loops : List LoopExtent} {insn : Instruction Nat} {slot : Slot} {stack : List Slot}
  {values : List Value} {sites : List Nat}

/-! ### What a slot knows of its site -/

/-- The slot tells what a push does: the constant, or a value of the kind that is
loaded. -/
inductive Slot.Reflects (slot : Slot) : Instruction Nat → Prop
  | const {v} (h : slot.value = some v) : Slot.Reflects slot (.const v)
  | load {kind index} (h : ∀ v, slot.value = some v → .number v.kind = kind) :
      Slot.Reflects slot (.load kind index)

theorem Slot.Reflects.not_isBarrier (h : slot.Reflects insn) : insn.isBarrier = false := by
  cases h <;> rfl

theorem not_isBarrier_of_computation? {c : Machine.Computation}
    (h : Machine.computation? insn = some c) : insn.isBarrier = false := by
  cases insn with
  | arith | compare | convert => rfl
  | _ => cases h

/-- The slots of the stack that have a site, in front of the node `i`. -/
structure Piled (s : CodeStream) (i : Nat) (stack : List Slot) : Prop where
  ordered : stack.Pairwise fun a b => ∀ j k, a.site = some j → b.site = some k → k < j
  reflects : ∀ {slot k}, slot ∈ stack → slot.site = some k →
    ∃ insn, s.instruction? k = some insn ∧ slot.Reflects insn
  straight : ∀ {p k}, Pushed stack p → p < k → k < i → s.isLive k → s.IsStraight k

namespace Piled

/-- Slots without sites. -/
theorem of_not_pushed (h : ∀ k, ¬ Pushed stack k) : Piled s i stack where
  ordered := List.pairwise_of_forall_mem_list fun a ha _ _ j _ hj => absurd ⟨a, ha, hj⟩ (h j)
  reflects := fun hmem hk => absurd ⟨_, hmem, hk⟩ (h _)
  straight := fun hp => absurd hp (h _)

theorem nil : Piled s i [] := of_not_pushed fun _ => not_pushed_nil

theorem drop (h : Piled s i stack) : Piled s i (stack.drop count) where
  ordered := h.ordered.sublist (List.drop_sublist _ _)
  reflects := fun hmem => h.reflects (List.mem_of_mem_drop hmem)
  straight := fun hp => h.straight hp.of_drop

theorem pushUnknown (h : Piled s i stack) : Piled s i (Slot.unknown :: stack) where
  ordered := by
    refine List.pairwise_cons.2 ⟨fun b _ j k hj => ?_, h.ordered⟩
    cases hj
  reflects := by
    intro slot k hmem hk
    rcases List.mem_cons.1 hmem with rfl | hmem
    · cases hk
    · exact h.reflects hmem hk
  straight := by
    intro p k hp
    rcases hp.cons with hp | hp
    · cases hp
    · exact h.straight hp

/-- The walk gets over a node that is gone, or straight if anything is pending. -/
theorem succ (h : Piled s i stack)
    (hi : ∀ p, Pushed stack p → s.isLive i → s.IsStraight i) : Piled s (i + 1) stack where
  ordered := h.ordered
  reflects := h.reflects
  straight := by
    intro p k hp hpk hki hk
    rcases Nat.lt_succ_iff_lt_or_eq.1 hki with hlt | rfl
    · exact h.straight hp hpk hlt hk
    · exact hi p hp hk

/-- The value of a push goes on the stack. -/
theorem push (h : Piled s i stack) (hsite : ∀ k, Pushed stack k → k < i)
    (hi : ∀ p, Pushed stack p → s.IsStraight i) (hx : s.instruction? i = some insn)
    {value : Option Value} (hr : Slot.Reflects ⟨value, some i⟩ insn) :
    Piled s (i + 1) (⟨value, some i⟩ :: stack) where
  ordered := by
    refine List.pairwise_cons.2 ⟨fun b hb j k hj hk => ?_, h.ordered⟩
    cases hj
    exact hsite k ⟨b, hb, hk⟩
  reflects := by
    intro slot k hmem hk
    rcases List.mem_cons.1 hmem with rfl | hmem
    · cases hk
      exact ⟨insn, hx, hr⟩
    · exact h.reflects hmem hk
  straight := by
    intro p k hp hpk hki hk
    rcases hp.cons with heq | hp
    · cases heq
      omega
    · exact (h.succ fun p hp _ => hi p hp).straight hp hpk hki hk

/-! #### Edits -/

/-- An edit in which the dead stay dead, instructions in front of `i` that are no
barriers stay, and straight code stays straight as long as anything is pending. -/
theorem edit (h : Piled s i stack) (hsite : ∀ k, Pushed stack k → k < i)
    (hlive : ∀ {k}, s'.isLive k → s.isLive k)
    (hinsn : ∀ {k insn}, k < i → s.instruction? k = some insn → insn.isBarrier = false →
      s'.instruction? k = some insn)
    (hstraight : ∀ {p k}, Pushed stack p → s.IsStraight k → s'.IsStraight k) :
    Piled s' i stack where
  ordered := h.ordered
  reflects := by
    intro slot k hmem hk
    obtain ⟨insn, hx, hr⟩ := h.reflects hmem hk
    exact ⟨insn, hinsn (hsite k ⟨slot, hmem, hk⟩) hx hr.not_isBarrier, hr⟩
  straight := fun hp hpk hki hk => hstraight hp (h.straight hp hpk hki (hlive hk))

theorem replaceByConst {v : Value} (h : Piled s i stack) (hsite : ∀ k, Pushed stack k → k < i)
    (hlt : i < s.nodes.size) : Piled (s.replace i (.const v)) i stack := by
  refine h.edit hsite (fun hk => isLive_replace ▸ hk) (fun hk hx _ => ?_) fun _ hk => ?_
  · rwa [instruction?_replace_of_ne (Nat.ne_of_lt hk)]
  · exact hk.replaceByConst hlt

theorem deleteAll {ids : List Nat} (h : Piled s i stack) (hsite : ∀ k, Pushed stack k → k < i)
    (hd : s.deleteAll ids = .ok s')
    (hids : ∀ p, Pushed stack p → ∀ id ∈ ids, ¬ s.isTargeted id) : Piled s' i stack := by
  refine h.edit hsite (fun hk => ((isLive_deleteAll hd).1 hk).1) (fun _ hx hb => ?_)
    fun hp hk => hk.deleteAll hd (hids _ hp)
  exact instruction?_deleteAll hd hx (Instruction.targets_of_not_isBarrier hb)

theorem deleteRange {first last removed : Nat} (h : Piled s i stack)
    (hsite : ∀ k, Pushed stack k → k < i)
    (hd : s.deleteRange first last = .ok (removed, s')) : Piled s' i stack := by
  refine h.edit hsite (fun hk => ((isLive_deleteRange hd).1 hk).1) (fun _ hx _ => ?_)
    fun _ hk => hk.deleteRange hd
  rwa [instruction?_deleteRange hd]

/-- **Nothing leads to an operand** as long as there is a site below it. -/
theorem not_isTargeted_of_mem_sites (h : Piled s i stack)
    (hk : known? (operands count stack) = some (values, sites))
    (hlive : ∀ k ∈ sites, k < i ∧ s.isLive k) (hp : Pushed (stack.drop count) p) :
    ∀ k ∈ sites, ¬ s.isTargeted k := by
  intro k hmem
  obtain ⟨slot, hslot, hsite⟩ := (mem_sites hk).1 hmem
  obtain ⟨below, hbelow, hbsite⟩ := hp
  obtain ⟨hki, hkl⟩ := hlive k hmem
  have hordered := h.ordered
  rw [← List.take_append_drop count stack, List.pairwise_append] at hordered
  have hpk := hordered.2.2 slot hslot below hbelow k p hsite hbsite
  have hpushed : Pushed stack p := ⟨below, List.mem_of_mem_drop hbelow, hbsite⟩
  exact (isStraight_iff.1 (h.straight hpushed hpk hki hkl)).2

/-- **A visit keeps the sites in order**, if control goes on to the next node. -/
theorem visit (h : Piled σ.stream i σ.stack) (hσ : Sound m i σ) (hi : σ.stream.isLive i)
    (hfree : ∀ p, Pushed σ.stack p → ¬ σ.stream.isTargeted i)
    (hx : σ.stream.instruction? i = some insn) (hv : Visit σ i insn σ') (hr : σ'.reachable) :
    Piled σ'.stream (i + 1) σ'.stack := by
  have hlt : i < σ.stream.nodes.size := lt_size_of_isLive hi
  have hsite : ∀ k, Pushed σ.stack k → k < i := fun k hk => (hσ.held.live hk).1
  have hsite' : ∀ {count} k, Pushed (σ.stack.drop count) k → k < i :=
    fun k hk => hsite k hk.of_drop
  -- The node itself is straight, as long as a value keeps its site across it.
  have hstraight : insn.isBarrier = false → ∀ p, Pushed σ.stack p → σ.stream.IsStraight i :=
    fun hb p hp => isStraight_iff.2 ⟨⟨insn, hx, hb⟩, hfree p hp⟩
  have hsucc : insn.isBarrier = false → Piled σ.stream (i + 1) σ.stack :=
    fun hb => h.succ fun p hp _ => hstraight hb p hp
  cases hv with
  | const => exact h.push hsite (hstraight rfl) hx (.const rfl)
  | load =>
      exact h.push hsite (hstraight rfl) hx (.load fun v hv => (Locals.mem_of_ofKind? hv).2)
  | propagate hv =>
      refine (h.replaceByConst hsite hlt).push hsite (fun p hp => ?_)
        (instruction?_replace_self hlt) (.const rfl)
      exact (hstraight rfl p hp).replaceByConst hlt
  | store hs => exact (hsucc rfl).drop
  | increment => exact hsucc rfl
  | compute hc hs =>
      have hb : insn.isBarrier = false := not_isBarrier_of_computation? hc
      exact (hsucc hb).drop.pushUnknown
  | condense hc hk he hd =>
      have hb : insn.isBarrier = false := not_isBarrier_of_computation? hc
      have hids : ∀ p, Pushed (σ.stack.drop _) p → ∀ id ∈ _, ¬ σ.stream.isTargeted id :=
        fun p => h.not_isTargeted_of_mem_sites hk (hσ.held.isLive_of_mem_sites hk)
      have hlt' := size_deleteAll hd ▸ hlt
      refine ((h.drop.deleteAll hsite' hd hids).replaceByConst hsite' hlt').push hsite'
        (fun p hp => ?_) (instruction?_replace_self hlt') (.const rfl)
      exact ((hstraight hb p hp.of_drop).deleteAll hd (hids p hp)).replaceByConst hlt'
  | branch hs => exact of_not_pushed fun _ => not_pushed_map_keep
  | pass hk he hd =>
      refine (h.drop.deleteAll hsite' hd fun p hp id hmem => ?_).succ fun p hp hlive => ?_
      · rcases List.mem_append.1 hmem with hmem | hmem
        · exact h.not_isTargeted_of_mem_sites hk (hσ.held.isLive_of_mem_sites hk) hp id hmem
        · rw [List.mem_singleton.1 hmem]
          exact hfree p hp.of_drop
      · exact absurd (List.mem_append_right _ List.mem_cons_self)
          ((isLive_deleteAll hd).1 hlive).2
  | take hk he hprev hrange hd =>
      have hle := (isLive_of_deleteRange hrange).2.2
      have hcut := h.deleteRange hsite hrange
      refine (hcut.drop.deleteAll hsite' hd fun p hp => ?_).succ fun p hp hlive => ?_
      · refine hcut.not_isTargeted_of_mem_sites hk (fun k hmem => ?_) hp
        obtain ⟨hki, hkl⟩ := hσ.held.isLive_of_mem_sites hk k hmem
        exact ⟨hki, (isLive_deleteRange hrange).2 ⟨hkl, by omega⟩⟩
      · rw [isLive_deleteAll hd, isLive_deleteRange hrange] at hlive
        exact absurd ⟨le_rfl, hle⟩ hlive.1.2
  | skip hprev hrange =>
      have hle := (isLive_of_deleteRange hrange).2.2
      refine (h.deleteRange hsite hrange).succ fun p hp hlive => ?_
      exact absurd ⟨le_rfl, hle⟩ ((isLive_deleteRange hrange).1 hlive).2
  | jump | switch => cases hr
  | verbatim hs => exact nil

end Piled

/-! ### Wide values -/

namespace Locals

variable {l l' : Locals} {ls : List Locals} {index : UInt16}

/-- No value reaches into the slot of another. -/
def Separate (l : Locals) : Prop :=
  ∀ e ∈ l.entries, ∀ e' ∈ l.entries, e'.1 ≠ e.1 → Avoids e e'.1

namespace Separate

theorem mono (h : l.Separate) (hsub : l'.entries ⊆ l.entries) : l'.Separate :=
  fun e he e' he' => h e (hsub he) e' (hsub he')

theorem empty : Separate {} := fun _ he => absurd he List.not_mem_nil

theorem meet (h : ∀ l ∈ ls, l.Separate) : (Locals.meet ls).Separate := by
  cases ls with
  | nil => exact empty
  | cons l ls =>
      exact (h l List.mem_cons_self).mono fun e he => mem_of_mem_meet he List.mem_cons_self

/-- What is put in must neither reach into another value nor be reached into. -/
theorem insert {slot : Nat} {v : Value} (h : l.Separate)
    (hv : ∀ e ∈ l.entries, e.1 ≠ slot → Avoids e slot ∧ Avoids (slot, v) e.1) :
    (l.insert slot v).Separate := by
  intro e he e' he' hne
  rcases mem_insert.1 he with rfl | ⟨he, heslot⟩ <;> rcases mem_insert.1 he' with rfl | ⟨he', -⟩
  · exact absurd rfl hne
  · exact (hv e' he' hne).2
  · exact (hv e he heslot).1
  · exact h e he e' he' hne

/-- A store forgets what it reaches into. -/
theorem stored {kind : LocalKind} {value : Option Value} (hl : l.Functional) (h : l.Separate) :
    (l.stored kind index value).Separate := by
  have hrest : (l.forgetAll (Instruction.store (τ := Nat) kind index).writtenSlots).Separate :=
    h.mono fun e he => (hl.mem_forgetAll.1 he).1
  cases value with
  | none => exact hrest
  | some v =>
      simp only [Locals.stored]
      split
      · rename_i hkind
        refine hrest.insert fun e he _ => ?_
        have havoid : ∀ slot, index.toNat ≤ slot → slot < index.toNat + v.slots →
            Avoids e slot := by
          intro slot hle hlt
          refine (hl.mem_forgetAll.1 he).2 slot (List.mem_range'_1.2 ⟨hle, ?_⟩)
          rw [← hkind]
          exact hlt
        have hpos := v.slots_eq
        have hpos' := e.2.slots_eq
        refine ⟨havoid _ le_rfl (by omega), fun hin => havoid e.1 hin.1 hin.2 ⟨le_rfl, by omega⟩⟩
      · exact hrest

/-- An increment finds a narrow value where it puts one. -/
theorem incremented {delta : Int16} (hl : l.Functional) (h : l.Separate) :
    (l.incremented index delta).Separate := by
  unfold Locals.incremented
  split
  · rename_i v hv
    refine h.insert fun e he hne => ⟨h e he _ (mem_of_get? hv) hne.symm, fun hin => ?_⟩
    have : e.1 < index.toNat + 1 := hin.2
    have : index.toNat ≤ e.1 := hin.1
    omega
  · exact h.mono fun e he => (hl.mem_forgetAll.1 he).1

theorem get?_succ {slot : Nat} {v : Value} (h : l.Separate) (hv : l.get? slot = some v)
    (hwide : v.slots = 2) : l.get? (slot + 1) = none := by
  cases hw : l.get? (slot + 1) with
  | none => rfl
  | some w =>
      refine absurd ⟨Nat.le_succ slot, ?_⟩
        (h _ (mem_of_get? hv) _ (mem_of_get? hw) (Nat.succ_ne_self slot))
      simp only [hwide]
      omega

end Separate

end Locals

/-! ### Along the walk -/

/-- What holds in front of the node `i`, beside `Sound`. -/
structure Tidy (i : Nat) (σ : State) : Prop where
  piled : σ.reachable → Piled σ.stream i σ.stack
  locals : σ.locals.Separate
  edges : ∀ {e}, e ∈ σ.edges → e.2.Separate

/-- Where a site is still pending, nothing else leads. -/
theorem not_isTargeted_of_pushed_enter (hp : Pushed (σ.enter loops i).stack p) :
    ¬ σ.stream.isTargeted i := by
  unfold State.enter at hp
  split at hp
  · exact absurd hp not_pushed_nil
  · rename_i hmerge
    simp only [State.isMerge, Bool.or_eq_true, not_or] at hmerge
    exact hmerge.1

namespace Tidy

theorem enter (h : Tidy i σ) (hσ : Sound m i σ) : Tidy i (σ.enter loops i) := by
  unfold State.enter
  split
  · refine ⟨fun _ => .nil, ?_, fun he => h.edges (List.mem_filter.1 he).1⟩
    have hmerged : (if σ.stream.isHandlerEntry i then {} else
        Locals.meet (σ.incoming i)).Separate := by
      split
      · exact .empty
      · exact .meet (forall_mem_incoming h.locals h.edges)
    exact hmerged.mono fun e he => (hσ.mem_mergedLocals.1 he).1
  · exact h

/-- A visit preserves the order of the sites, the straight line from each of them
to the next node, and that the entries of the locals do not overlap. -/
theorem visit (h : Tidy i σ) (hσ : Sound m i σ) (hr : σ.reachable) (hi : σ.stream.isLive i)
    (hfree : ∀ p, Pushed σ.stack p → ¬ σ.stream.isTargeted i)
    (hx : σ.stream.instruction? i = some insn) (hv : Visit σ i insn σ') : Tidy (i + 1) σ' := by
  refine ⟨fun hr' => (h.piled hr).visit hσ hi hfree hx hv hr', ?_, ?_⟩
  · cases hv with
    | store => exact .stored hσ.locals h.locals
    | increment => exact .incremented hσ.locals h.locals
    | _ => exact h.locals
  · cases hv with
    | branch | jump | switch => exact forall_mem_withEdges h.locals h.edges
    | _ => exact h.edges

theorem pass (h : Tidy i σ) (hi : ¬ σ.stream.isLive i) : Tidy (i + 1) σ :=
  ⟨fun hr => (h.piled hr).succ fun _ _ hlive => absurd hlive hi, h.locals, h.edges⟩

end Tidy

theorem tidy_start : Tidy 0 { stream := s } :=
  ⟨fun _ => .nil, .empty, fun he => absurd he List.not_mem_nil⟩

/-- The invariant holds wherever the pass gets. -/
theorem Enters.tidy (hs : ofMethod m = .ok s) (h : Enters s n σ) :
    Sound m n σ ∧ σ.stream.isLive n ∧ Tidy n σ ∧ Piled σ.stream n σ.stack := by
  obtain ⟨τ, hτ, htidy, hlive, rfl⟩ := h.induction hs tidy_start (fun _ hi h => h.pass hi)
    fun {i τ τ' insn} hτ hi hx hv h => by
      have hstream : (τ.enter s.loops i).stream = τ.stream := Run.stream_enter
      exact (h.enter hτ).visit hτ.enter Sound.reachable_enter (hstream ▸ hi)
        (fun p hp => hstream ▸ not_isTargeted_of_pushed_enter hp) (hstream ▸ hx)
        (visit_eq_ok (hstream ▸ hx) hv)
  have hentered : Tidy n (τ.enter s.loops n) := htidy.enter hτ
  have hstream : (τ.enter s.loops n).stream = τ.stream := Run.stream_enter
  exact ⟨hτ.enter, hstream ▸ hlive, hentered, hentered.piled Sound.reachable_enter⟩

/-! ### Whenever a node is entered -/

/-- The nodes that pushed values on a stack, from its bottom to its top. -/
def pendingSites (stack : List Slot) : List Nat := stack.reverse.filterMap (·.site)

theorem mem_pendingSites : k ∈ pendingSites stack ↔ Pushed stack k := by
  simp [pendingSites, Pushed]

/-- What the pass relies on when it enters the node `n`. -/
structure Orderly (n : Nat) (σ : State) : Prop where
  /-- The sites, from the bottom of the stack to its top, and behind them `n`, are
  live nodes in the order of the stream. So no two of them are the same. -/
  sites : (pendingSites σ.stack ++ [n]).Sublist σ.stream.ids
  /-- A site pushes a constant, which is the value of its slot to the bit, or loads
  a variable, of the kind of that value. -/
  pushes : ∀ {slot k}, slot ∈ σ.stack → slot.site = some k →
    ∃ insn, σ.stream.instruction? k = some insn ∧ slot.Reflects insn
  /-- Between the lowest site and `n` no live node branches, jumps or is opaque,
  and no transfer and no handler leads there. -/
  straight : ∀ {p k}, p ∈ pendingSites σ.stack → p < k → k < n → σ.stream.isLive k →
    σ.stream.IsStraight k
  /-- Nothing is known of the second slot of a wide value. -/
  wide : ∀ {i v}, σ.locals.get? i = some v → v.slots = 2 → σ.locals.get? (i + 1) = none

/-- **Whenever the pass enters a node**, the sites on its simulated stack and its
known variables are in order, whether or not it fails later. -/
theorem enters_orderly (hs : ofMethod m = .ok s) (h : Enters s n σ) : Orderly n σ := by
  obtain ⟨hsound, hlive, htidy, hpiled⟩ := h.tidy hs
  have hbefore : ∀ {k}, k ∈ pendingSites σ.stack → k < n ∧ σ.stream.isLive k :=
    fun hk => hsound.held.live (mem_pendingSites.1 hk)
  refine ⟨?_, hpiled.reflects, fun hp => hpiled.straight (mem_pendingSites.1 hp),
    htidy.locals.get?_succ⟩
  have hsorted : (pendingSites σ.stack ++ [n]).Pairwise (· < ·) := by
    refine List.pairwise_append.2 ⟨?_, List.pairwise_singleton _ _, fun k hk j hj => ?_⟩
    · rw [pendingSites, List.pairwise_filterMap, List.pairwise_reverse]
      exact hpiled.ordered.imp fun hab k hk j hj => hab j k hj hk
    · rw [List.mem_singleton.1 hj]
      exact (hbefore hk).1
  have hsubset : pendingSites σ.stack ++ [n] ⊆ σ.stream.ids := by
    intro k hk
    rcases List.mem_append.1 hk with hk | hk
    · exact mem_ids.2 (hbefore hk).2
    · rw [List.mem_singleton.1 hk]
      exact mem_ids.2 hlive
  exact List.sublist_of_subperm_of_pairwise
    (List.subperm_of_subset (hsorted.imp fun hlt => Nat.ne_of_lt hlt) hsubset) hsorted
    pairwise_ids

/-- A sum that is folded up to its last operand and then given up: the branch at 3 is
never taken, the sum at 8 becomes a constant, and the subroutine call at 11 makes the
pass fail. -/
def abandonedSum : Method where
  code := [
    .const (.long 7), .store (.number .long) 2,
    .const (.int 1), .branch (.zero .eq) 5, .increment 0 1,
    .load (.number .int) 0, .const (.int 2), .const (.int 3), .arith .add .int,
    .load (.number .int) 4, .arith .add .int, .verbatim 0xa8 [0, 3]]

/-- Three sites are pending where `abandonedSum` enters its last addition, among them
the folded sum, and a wide variable is known. -/
theorem enters_orderly_abandonedSum :
    ofMethod abandonedSum = .ok (whole abandonedSum) ∧
      ((whole abandonedSum).fold (whole abandonedSum).loops).1.isOk = false ∧
      ∃ σ, Enters (whole abandonedSum) 10 σ ∧ pendingSites σ.stack = [5, 8, 9] ∧
        σ.stream.instruction? 8 = some (.const (.int 5)) ∧
        σ.locals.get? 2 = some (.long 7) ∧ Orderly 10 σ := by
  have hs : ofMethod abandonedSum = .ok (whole abandonedSum) := rfl
  have henters : Enters (whole abandonedSum) 10
      ((walk (whole abandonedSum).loops (List.range 10) { stream := whole abandonedSum }).2.enter
        (whole abandonedSum).loops 10) :=
    ⟨List.range 10, [11], _, by decide +kernel, Steps.eq_ok_of_toOption (by decide +kernel),
      by decide +kernel, rfl⟩
  exact ⟨hs, by decide +kernel, _, henters, by decide +kernel, by decide +kernel,
    by decide +kernel, enters_orderly hs henters⟩

end Fold

end JvmOptimizer
