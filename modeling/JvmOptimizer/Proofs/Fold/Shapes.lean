import JvmOptimizer.Proofs.Fold.Account
import JvmOptimizer.Proofs.Fold.Progress
import JvmOptimizer.Proofs.Verifier.Stream

/-!
# A folded method is verified

The shapes of the result are those of the method without the ghosts. A node that
stays does to a stack without ghosts what it did before, and a node that is gone
only moved ghosts, so the shape in front of it is the shape behind it.
-/

namespace JvmOptimizer.Fold

open Machine CodeStream Verifier

variable {π : Type} [Pool π] {pool : π} {m : Method} {shape : Nat → Shape}

theorem strip_append {gone : Slot → Bool} {stack : List Slot} {popped rest : Shape}
    (h : ∀ slot ∈ stack.take popped.length, gone slot = false) :
    strip gone stack (popped ++ rest) =
      popped ++ strip gone (stack.drop popped.length) rest := by
  obtain ⟨htake, hdrop⟩ := take_strip (popped ++ rest) h
  rw [List.take_left] at htake
  rw [List.drop_left] at hdrop
  rw [← List.take_append_drop popped.length (strip gone stack (popped ++ rest)), htake, hdrop]

theorem strip_append_of_gone {gone : Slot → Bool} {stack : List Slot} {popped rest : Shape}
    (hle : popped.length ≤ stack.length)
    (h : ∀ slot ∈ stack.take popped.length, gone slot = true) :
    strip gone stack (popped ++ rest) = strip gone (stack.drop popped.length) rest := by
  rw [strip_of_gone hle h, List.drop_left]

/-- Without ghosts there is less on the stack, so it is no deeper. -/
theorem strip_sublist {gone : Slot → Bool} {stack : List Slot} {before : Shape} :
    (strip gone stack before).Sublist before := by
  induction stack generalizing before with
  | nil => rw [strip_nil]
  | cons slot stack ih =>
      cases before with
      | nil => rw [strip_nil_right]
      | cons kind before =>
          cases hg : gone slot with
          | true =>
              rw [strip_cons_of_gone hg]
              exact ih.cons kind
          | false =>
              rw [strip_cons_of_not_gone hg]
              exact ih.cons_cons kind

namespace Run

variable {R : Run m} {n t : Nat} {insn : Instruction Nat} {after : Shape} {locals : Locals}
  {slots : List Slot} {floor : Bool}

/-- The shape at a node of the result. -/
def stripped (R : Run m) (shape : Nat → Shape) (n : Nat) : Shape :=
  strip R.ghost (R.arrival n).stack (shape n)

/-- What became of a node, as far as shapes are concerned. -/
inductive Settles (R : Run m) (pool : π) (shape : Nat → Shape) (n : Nat)
    (insn : Instruction Nat) (after : Shape) : Prop
  /-- It stays, and makes the shape that is expected where control goes. -/
  | stays {insn' after'} (hl : R.final.isLive n) (hi : R.final.instruction? n = some insn')
      (hr : IsRegular insn') (ht : insn'.targets = insn.targets.map R.final.ahead)
      (hf : insn'.fallsThrough = insn.fallsThrough)
      (he : Effect pool insn' (R.stripped shape n) after')
      (next : ∀ {t}, Onward insn n t → t < m.code.length → shape t = after →
        R.Visited t ∧ R.stripped shape t = after') :
      Settles R pool shape n insn after
  /-- It is gone, and the shape is the same where control goes. -/
  | clears {target : Nat} (hc : R.Clears n target) (ho : Onward insn n target)
      (next : target < m.code.length → shape target = after →
        R.Visited target ∧ R.stripped shape target = R.stripped shape n) :
      Settles R pool shape n insn after

/-- Where control goes the shape without ghosts is the one it brings. -/
theorem Flows.stripped (h : R.Flows n locals slots floor t) (hs : shape t = after) :
    R.Visited t ∧ R.stripped shape t = strip R.ghost slots after := by
  refine ⟨h.visited, ?_⟩
  rw [Run.stripped, hs]
  exact h.strip_eq

section Stripped

variable {popped rest : Shape}

/-- In front of a node that pops values of nodes that stay. -/
theorem stripped_of_solid_take (hs : shape n = popped ++ rest)
    (hg : R.Solid ((R.arrival n).stack.take popped.length)) :
    R.stripped shape n =
      popped ++ strip R.ghost ((R.arrival n).stack.drop popped.length) rest := by
  rw [stripped, hs, strip_append hg]

/-- In front of a node that pops values of nodes that are gone. -/
theorem stripped_of_ghosts (hs : shape n = popped ++ rest)
    (hle : popped.length ≤ (R.arrival n).stack.length)
    (hg : ∀ slot ∈ (R.arrival n).stack.take popped.length, R.ghost slot = true) :
    R.stripped shape n = strip R.ghost ((R.arrival n).stack.drop popped.length) rest := by
  rw [stripped, hs, strip_append_of_gone hle hg]

theorem stripped_of_solid (hg : R.Solid (R.arrival n).stack) : R.stripped shape n = shape n :=
  strip_eq_self hg

end Stripped

theorem eq_succ_of_onward (ht : insn.targets = []) (ho : Onward insn n t) : t = n + 1 := by
  rcases ho with ⟨-, rfl⟩ | hmem
  · rfl
  · rw [ht] at hmem
    cases hmem

/-- A node that is gone. -/
theorem settles_clears (hc : R.Clears n t) (ho : Onward insn n t)
    (hs : strip R.ghost slots after = R.stripped shape n)
    (next : t < m.code.length → R.Flows n locals slots floor t) :
    R.Settles pool shape n insn after := by
  refine .clears hc ho fun hlt hshape => ?_
  obtain ⟨hvisited, heq⟩ := (next hlt).stripped hshape
  exact ⟨hvisited, heq.trans hs⟩

/-- A node whose value is of no use to others: it stays or it is gone. -/
theorem settles_push {x : Instruction Nat} {kind : LocalKind} {value : Option Value} {rest : Shape}
    (hx : R.final.instruction? n = some x) (hr : IsRegular x) (hxt : x.targets = [])
    (hxf : x.fallsThrough) (he : ∀ before, Effect pool x before (kind :: before))
    (ht : insn.targets = []) (hf : insn.fallsThrough) (hafter : after = kind :: rest)
    (hs : strip R.ghost slots rest = R.stripped shape n)
    (next : R.Passes n locals (⟨value, some n⟩ :: slots) floor) :
    R.Settles pool shape n insn after := by
  by_cases hlive : R.final.isLive n
  · have hghost : R.ghost ⟨value, some n⟩ = false := by
      rw [ghost_pushed, hlive]
      rfl
    refine .stays hlive hx hr (by rw [hxt, ht]; rfl) (hxf.trans hf.symm) (he _)
      fun {t} ho hlt hshape => ?_
    obtain rfl := eq_succ_of_onward ht ho
    obtain ⟨hvisited, heq⟩ := (next hlt).stripped hshape
    rw [hafter, strip_cons_of_not_gone hghost, hs] at heq
    exact ⟨hvisited, heq⟩
  · have hghost : R.ghost ⟨value, some n⟩ = true := by
      rw [ghost_pushed, Bool.eq_false_of_not_eq_true hlive]
      rfl
    refine settles_clears (clears_succ hlive) (.inl ⟨hf, rfl⟩) ?_ next
    rw [hafter, strip_cons_of_gone hghost, hs]

/-- A node that stays as it is. -/
theorem settles_keeps {after' : Shape} (hk : R.Keeps n insn) (hr : IsRegular insn)
    (he : Effect pool insn (R.stripped shape n) after')
    (next : ∀ {t}, Onward insn n t → t < m.code.length →
      ∃ locals slots floor, R.Flows n locals slots floor t ∧ strip R.ghost slots after = after') :
    R.Settles pool shape n insn after := by
  refine .stays hk.1 hk.2 ((isRegular_mapTargets _).2 hr) (Instruction.targets_mapTargets _ _)
    (Instruction.fallsThrough_mapTargets _ _) ((effect_mapTargets _).2 he)
    fun {t} ho hlt hshape => ?_
  obtain ⟨locals, slots, floor, hflows, rfl⟩ := next ho hlt
  exact hflows.stripped hshape

/-- A node that stays, as do the nodes of all values that are there before and after
it: the shapes are the original ones. -/
theorem settles_solid (hk : R.Keeps n insn) (hr : IsRegular insn)
    (hg : R.Solid (R.arrival n).stack) (he : Effect pool insn (shape n) after)
    (next : ∀ {t}, Onward insn n t → t < m.code.length →
      ∃ locals slots floor, R.Flows n locals slots floor t ∧ R.Solid slots) :
    R.Settles pool shape n insn after := by
  have hs : R.stripped shape n = shape n := stripped_of_solid hg
  refine settles_keeps hk hr (hs ▸ he) fun ho hlt => ?_
  obtain ⟨locals, slots, floor, hflows, hsolid⟩ := next ho hlt
  exact ⟨locals, slots, floor, hflows, strip_eq_self hsolid⟩

theorem effect_const (v : Value) (before : Shape) :
    Effect pool (.const (τ := Nat) v) before (.number v.kind :: before) :=
  ⟨[], _, before, ⟨rfl, rfl⟩, rfl, rfl⟩

/-- **What became of a node** is right by the shapes without ghosts: each way to
treat a node is one of pushing, staying and clearing. -/
theorem settles (ht : R.Treated n insn) (hr : IsRegular insn)
    (he : Effect pool insn (shape n) after) : R.Settles pool shape n insn after := by
  have heffect := he
  obtain ⟨popped, pushed, rest, hx, hshape, rfl⟩ := heffect
  cases ht with
  -- What pushes a value stays or is a ghost, and leaves the values below alone.
  | const hi next =>
      obtain ⟨rfl, rfl⟩ := hx
      refine settles_push hi trivial rfl rfl (effect_const _) rfl rfl rfl ?_ next
      rw [stripped, hshape]
      rfl
  | @load kind index hi next =>
      obtain ⟨rfl, rfl⟩ := hx
      have hs : strip R.ghost (R.arrival n).stack rest = R.stripped shape n := by
        rw [stripped, hshape]
        rfl
      rcases hi with hi | ⟨v, hv, hi⟩
      · refine settles_push hi hr rfl rfl (fun before => ?_) rfl rfl rfl hs next
        exact ⟨[], _, before, ⟨rfl, rfl⟩, rfl, rfl⟩
      · have hkind : LocalKind.number v.kind = kind :=
          of_decide_eq_true (Option.filter_eq_some_iff.1 hv).2
        subst hkind
        exact settles_push hi trivial rfl rfl (effect_const v) rfl rfl rfl hs next
  -- What takes values and stays finds all of them: their nodes stay with it.
  | store hk hs hg next =>
      obtain ⟨rfl, rfl⟩ := hx
      refine settles_keeps hk hr ⟨_, [], _, ⟨rfl, rfl⟩, stripped_of_solid_take hshape hg, rfl⟩
        fun ho hlt => ?_
      obtain rfl := eq_succ_of_onward rfl ho
      exact ⟨_, _, _, next hlt, rfl⟩
  | increment hk next =>
      obtain ⟨rfl, rfl⟩ := hx
      refine settles_keeps hk hr ⟨[], [], R.stripped shape n, ⟨rfl, rfl⟩, rfl, rfl⟩
        fun ho hlt => ?_
      obtain rfl := eq_succ_of_onward rfl ho
      refine ⟨_, _, _, next hlt, ?_⟩
      show strip R.ghost (R.arrival n).stack rest = R.stripped shape n
      rw [stripped, hshape]
      rfl
  | @compute _ c hc hk hs hg next =>
      obtain ⟨hlength, kind, rfl, -⟩ := hx.computation hc
      rw [← hlength] at hg next
      refine settles_keeps hk hr ⟨popped, _, _, hx, stripped_of_solid_take hshape hg, rfl⟩
        fun ho hlt => ?_
      obtain rfl := eq_succ_of_onward (targets_of_computation? hc) ho
      exact ⟨_, _, _, next hlt, strip_cons_of_not_gone rfl⟩
  | @condense _ c values v hc hle hv hg heval hi next =>
      obtain ⟨hlength, kind, rfl, hkind⟩ := hx.computation hc
      -- The operands are ghosts, so the constant stands on the shape without them.
      obtain rfl := hkind heval
      rw [← hlength] at hle hg next
      exact settles_push hi trivial rfl rfl (effect_const v) (targets_of_computation? hc)
        (fallsThrough_of_computation? hc) rfl (stripped_of_ghosts hshape hle hg).symm next
  -- Where control splits or is lost sight of, every node behind a value stays.
  | branch hk hs hg next jump =>
      refine settles_solid hk hr hg he fun ho hlt => ?_
      rcases ho with ⟨-, rfl⟩ | ho
      · exact ⟨_, _, _, next hlt, R.solid_map_keep⟩
      · rw [List.mem_singleton.1 ho]
        exact ⟨_, _, _, jump, R.solid_map_keep⟩
  -- A decided branch is gone together with the nodes of its operands.
  | pass hlive hle hv hg heval next =>
      obtain ⟨rfl, rfl⟩ := hx
      rw [← length_conditionKinds] at hle hg next
      exact settles_clears (clears_succ hlive) (.inl ⟨rfl, rfl⟩)
        (stripped_of_ghosts hshape hle hg).symm next
  | take hc hle hv hg heval jump =>
      obtain ⟨rfl, rfl⟩ := hx
      rw [← length_conditionKinds] at hle hg jump
      exact settles_clears hc (.inr List.mem_cons_self)
        (stripped_of_ghosts hshape hle hg).symm fun _ => jump
  | jump hk hg jump =>
      refine settles_solid hk hr hg he fun ho hlt => ?_
      rcases ho with ⟨hf, -⟩ | ho
      · cases hf
      · rw [List.mem_singleton.1 ho]
        exact ⟨_, _, _, jump, hg⟩
  | skip hc jump =>
      obtain ⟨rfl, rfl⟩ := hx
      refine settles_clears hc (.inr List.mem_cons_self) ?_ fun _ => jump
      rw [stripped, hshape]
  | switch hk hs hg jump =>
      refine settles_solid hk hr hg he fun ho hlt => ?_
      rcases ho with ⟨hf, -⟩ | ho
      · cases hf
      · exact ⟨_, _, _, jump _ ho, fun slot hmem => hg slot (List.mem_of_mem_drop hmem)⟩
  | verbatim hk hs hg next =>
      refine settles_solid hk hr hg he fun ho hlt => ?_
      rcases ho with ⟨hf, rfl⟩ | ho
      · refine ⟨_, _, _, next ?_ hlt, nofun⟩
        simpa [Instruction.fallsThrough] using hf
      · cases ho

/-! ### The whole result -/

/-- Where the walk comes to, it comes to a node that stays, and the shape there is
the same. -/
theorem stripped_ahead (hv : Verified pool m shape) (ht : R.Visited t) (hlt : t < m.code.length) :
    R.final.isLive (R.final.ahead t) ∧ R.stripped shape (R.final.ahead t) = R.stripped shape t := by
  -- A node that is gone leads on to a later one.
  induction hd : m.code.length - t using Nat.strong_induction_on generalizing t with
  | _ d ih =>
      obtain ⟨insn, hi⟩ : ∃ insn, m.code[t]? = some insn := ⟨_, List.getElem?_eq_getElem hlt⟩
      obtain ⟨after, heffect, hnext⟩ := hv.exists_after hi
      have hr := hv.regular (List.mem_of_getElem? hi)
      cases settles (R.treated ht hi) hr heffect with
      | stays hl =>
          rw [ahead_of_isLive hl]
          exact ⟨hl, rfl⟩
      | @clears target hc ho next =>
          obtain ⟨htarget, hshape⟩ := hnext ho
          obtain ⟨hvisited, hsame⟩ := next htarget hshape
          have hlater := hc.1
          obtain ⟨hlive, heq⟩ := ih _ (by omega) hvisited htarget rfl
          rw [← hc.ahead_eq htarget.le]
          exact ⟨hlive, heq.trans hsame⟩

/-- **A node that stays** finds and leaves the shapes without ghosts. -/
theorem arrives_final (hv : Verified pool m shape) (hn : R.final.isLive n)
    (hx : R.final.instruction? n = some insn) :
    IsRegular insn ∧ Arrives pool R.final (R.stripped shape) n insn := by
  obtain ⟨x, hi⟩ := R.thins_final.exists_code hn
  have hlt := (List.getElem?_eq_some_iff.1 hi).1
  have hvisited : R.Visited n := R.isLive_of_final hlt.le hn
  obtain ⟨after, heffect, hnext⟩ := hv.exists_after hi
  cases settles (R.treated hvisited hi) (hv.regular (List.mem_of_getElem? hi)) heffect with
  | clears hc => exact absurd hn (hc.2 n le_rfl hc.1)
  | @stays insn' after' _ hi' hr ht hf he next =>
      obtain rfl : insn' = insn := Option.some.inj (hi'.symm.trans hx)
      have hlands : ∀ {t}, Onward x n t → R.final.isLive (R.final.ahead t) ∧
          R.stripped shape (R.final.ahead t) = after' := by
        intro t ho
        obtain ⟨htlt, hshape⟩ := hnext ho
        obtain ⟨htvisited, hafter⟩ := next ho htlt hshape
        obtain ⟨hlive, heq⟩ := stripped_ahead hv htvisited htlt
        exact ⟨hlive, heq.trans hafter⟩
      refine ⟨hr, after', he, fun t hmem => ?_, fun hfalls => ?_⟩
      · rw [ht] at hmem
        obtain ⟨u, hu, rfl⟩ := List.mem_map.1 hmem
        exact (hlands (.inr hu)).2
      · exact hlands (.inl ⟨hf ▸ hfalls, rfl⟩)

/-- **The result of the pass is verified.** -/
theorem typed_final (hv : Verified pool m shape) : Typed pool R.final (R.stripped shape) where
  start := by
    by_cases hlt : 0 < m.code.length
    · rw [(stripped_ahead hv (R.visited_zero hlt) hlt).2, stripped, hv.start, strip_nil_right]
    · have hsize := R.thins_final.size
      rw [ahead_eq_size_of_le (by omega), hsize, Nat.eq_zero_of_not_pos hlt, stripped, hv.start,
        strip_nil_right]
  regular := fun hn hx => (arrives_final hv hn hx).1
  arrives := fun hn hx => (arrives_final hv hn hx).2
  handler := by
    intro r n hr hn hc
    obtain ⟨h, hmem, hle, hlt, rfl⟩ := R.thins_final.exists_of_covers hr hn hc
    obtain ⟨-, -, hentry, hshape⟩ := hv.handler hmem
    obtain ⟨hvisited, hstack, -, -⟩ := R.visited_of_handler hn hmem hle hlt
    show R.stripped shape (R.final.ahead h.entry) = [.reference]
    rw [(stripped_ahead hv hvisited hentry).2, stripped, hstack, strip_nil, hshape]

end Run

/-- **A verified method can be folded**, the result is verified and its stacks are
no deeper. -/
theorem exists_fold (hv : Verified pool m shape) :
    ∃ stats s shape', (whole m).fold (whole m).loops = (.ok stats, s) ∧ Typed pool s shape' ∧
      s.Thins m ∧ ∀ n, depth (shape' n) ≤ depth (shape n) := by
  obtain ⟨R, ⟨stats, hfold⟩, -⟩ := exists_verified_run hv
  exact ⟨stats, _, R.stripped shape, hfold, (Run.typed_final hv).renumber, R.thins_final.renumber,
    fun n => depth_le_of_sublist strip_sublist⟩

end JvmOptimizer.Fold
