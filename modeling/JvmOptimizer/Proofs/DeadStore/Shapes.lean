import JvmOptimizer.Proofs.DeadStore.Rounds
import JvmOptimizer.Proofs.Verifier.Stream

/-!
# Dead store elimination keeps a stream verified

Every edit does, and with the same shapes. Behind a push and what takes the
value the stack is as it was in front of them, so whatever led to the push may
lead behind them. There always is such a place, since control passes on from
the instruction that takes the value: the pass never gets stuck.
-/

open Relation (ReflTransGen)

namespace JvmOptimizer.DeadStore

open CodeStream Verifier

variable {π : Type} [Pool π] {pool : π} {m : Method} {s s' : CodeStream} {shape : Nat → Shape}
  {push take n limit : Nat} {before after : Shape}

/-! ### Pushes and takes -/

/-- A push without effects adds one value of the kind it is known for. -/
theorem effect_purePush {insn : Instruction Nat} (h : Effect pool insn before after)
    (hp : insn.isPurePush) :
    insn.fallsThrough ∧ ∃ kind : LocalKind, insn.pushedSlots? = some kind.slots ∧
      after = kind :: before := by
  obtain ⟨popped, pushed, rest, hx, rfl, rfl⟩ := h
  cases insn with
  | const v =>
      obtain ⟨rfl, rfl⟩ := hx
      exact ⟨rfl, _, rfl, rfl⟩
  | load kind index =>
      obtain ⟨rfl, rfl⟩ := hx
      exact ⟨rfl, kind, rfl, rfl⟩
  | _ => cases hp

theorem effect_store {kind : LocalKind} {index : UInt16}
    (h : Effect pool (.store (τ := Nat) kind index) before after) : before = kind :: after := by
  obtain ⟨popped, pushed, rest, ⟨rfl, rfl⟩, rfl, rfl⟩ := h
  rfl

/-- A discard takes the value on top, which has the width that it discards. -/
theorem effect_discard {opcode : Opcode} {bytes : Bytes} {kind : LocalKind} {shape : Shape}
    (hop : opcode = Opcode.pop ∧ kind.slots = 1 ∨ opcode = Opcode.pop2 ∧ kind.slots = 2)
    (h : Effect pool (.verbatim (τ := Nat) opcode bytes) (kind :: shape) after) :
    after = shape := by
  obtain ⟨popped, pushed, rest, hx, heq, rfl⟩ := h
  have hdepth : depth popped = kind.slots ∧ depth pushed = 0 := by
    rcases hop with ⟨rfl, hk⟩ | ⟨rfl, hk⟩
    · rw [hk]
      exact hx ⟨1, 0⟩ rfl
    · rw [hk]
      exact hx ⟨2, 0⟩ rfl
  obtain ⟨rfl, rfl⟩ := eq_singleton_of_depth heq hdepth.1
  cases pushed with
  | nil => rfl
  | cons kind pushed =>
      have := slots_pos kind
      simp at hdepth
      omega

/-- A store may as well discard its value. -/
theorem arrives_discard {kind : LocalKind} {index : UInt16}
    (h : Arrives pool s shape n (.store kind index)) : Arrives pool s shape n (discard kind) := by
  obtain ⟨after, heffect, -, hnext⟩ := h
  refine ⟨after, ⟨[kind], [], after, ?_, effect_store heffect, rfl⟩, nofun, fun _ => hnext rfl⟩
  intro effect he
  by_cases hk : kind.slots = 2
  · rw [if_pos hk] at he
    obtain rfl : (⟨2, 0⟩ : StackEffect) = effect := Except.ok.inj he
    exact ⟨by simpa using hk, rfl⟩
  · rw [if_neg hk] at he
    obtain rfl : (⟨1, 0⟩ : StackEffect) = effect := Except.ok.inj he
    have hone : kind.slots = 1 := by
      rcases kind with (_ | _ | _ | _) | _ <;> first | rfl | exact absurd rfl hk
    exact ⟨by simpa using hone, rfl⟩

/-- Behind a spare pair the stack is as it was in front of it. -/
theorem shape_behind (h : Typed pool s shape) (hs : Spare s push take) :
    s.isLive (s.ahead (take + 1)) ∧ shape (s.ahead (take + 1)) = shape push := by
  -- After the push there is one value more.
  have hpushed : ∀ {insn}, Behind s push take → s.instruction? push = some insn →
      insn.isPurePush → ∃ kind : LocalKind, insn.pushedSlots? = some kind.slots ∧
        shape take = kind :: shape push := by
    intro insn hb hp hpure
    obtain ⟨after, heffect, -, hnext⟩ := h.arrives hb.isLive.1 hp
    obtain ⟨hfalls, kind, hslots, rfl⟩ := effect_purePush heffect hpure
    obtain ⟨-, heq⟩ := hnext hfalls
    rw [ahead_succ_of_prev? hb.prev] at heq
    exact ⟨kind, hslots, heq⟩
  cases hs with
  -- And what takes it leaves the shape from before the push.
  | store hb hp hpure hi hdead =>
      obtain ⟨kind, -, hkind⟩ := hpushed hb hp hpure
      obtain ⟨after, heffect, -, hnext⟩ := h.arrives hb.isLive.2.1 hi
      obtain ⟨hlive, heq⟩ := hnext rfl
      rw [hkind] at heffect
      refine ⟨hlive, heq.trans ?_⟩
      exact (List.cons.inj (effect_store heffect)).2.symm
  | @discard insn opcode bytes k hb hp hk hi hop =>
      have hpure : insn.isPurePush := by
        rw [Instruction.isPurePush, hk]
        rfl
      obtain ⟨kind, hslots, hkind⟩ := hpushed hb hp hpure
      obtain rfl : k = kind.slots := Option.some.inj (hk.symm.trans hslots)
      obtain ⟨after, heffect, -, hnext⟩ := h.arrives hb.isLive.2.1 hi
      have hfalls : (Instruction.verbatim (τ := Nat) opcode bytes).fallsThrough := by
        rcases hop with ⟨rfl, -⟩ | ⟨rfl, -⟩ <;> rfl
      obtain ⟨hlive, heq⟩ := hnext hfalls
      rw [hkind] at heffect
      exact ⟨hlive, heq.trans (effect_discard hop heffect)⟩

/-- **The pass is never stuck** at a verified stream. -/
theorem not_stuck (h : Typed pool s shape) : ¬ Stuck s := by
  refine not_stuck_of_behind fun {push take} hspare => ?_
  obtain ⟨-, htake, -⟩ := hspare.behind.isLive
  exact ⟨s.ahead (take + 1), (shape_behind h hspare).1, le_ahead (lt_size_of_isLive htake)⟩

/-! ### Edits -/

/-- Without the pair, what is left next at a live node has the node's shape. -/
theorem shape_deletePair (h : Typed pool s shape) (ht : s.Thins m) (hspare : Spare s push take)
    (hd : s.deleteAll [push, take] = .ok s') {t : Nat} (hl : s.isLive t) (hne : t ≠ take) :
    s'.isLive (s'.ahead t) ∧ shape (s'.ahead t) = shape t := by
  by_cases htp : t = push
  · have hpair := hspare.behind.pair ht hd
    obtain ⟨hbehind, heq⟩ := shape_behind h hspare
    have hleft : s'.isLive (s.ahead (take + 1)) :=
      (isLive_deletePair hd).2 ⟨hbehind, hpair.next_ne.2, hpair.next_ne.1⟩
    have hto : s'.ahead push = s.ahead (take + 1) := by
      rw [hpair.push_eq, hpair.take_eq]
      exact ahead_of_isLive hleft
    rw [htp, hto]
    exact ⟨hleft, heq⟩
  · have hleft : s'.isLive t := (isLive_deletePair hd).2 ⟨hl, htp, hne⟩
    rw [ahead_of_isLive hleft]
    exact ⟨hleft, rfl⟩

/-- Without a spare pair the shapes are the same at all nodes that are left: the
two together have no effect on the stack. -/
theorem typed_pair (h : Typed pool s shape) (ht : s.Thins m) (hspare : Spare s push take)
    (hd : s.deleteAll [push, take] = .ok s') : Typed pool s' shape := by
  have hb := hspare.behind
  have hpush := hb.isLive.1
  have hpair := hb.pair ht hd
  constructor
  · have hfirst : s.isLive (s.ahead 0) :=
      isLive_ahead ((ahead_le_of_isLive (Nat.zero_le _) hpush).trans_lt (lt_size_of_isLive hpush))
    rw [← ahead_deletePair hd, (shape_deletePair h ht hspare hd hfirst hpair.start_ne).2]
    exact h.start
  · intro n insn' hn hi
    rw [ht.instruction_deleteAll hd hn, Option.map_eq_some_iff] at hi
    obtain ⟨insn, hi, rfl⟩ := hi
    exact (isRegular_mapTargets _).2 (h.regular ((isLive_deletePair hd).1 hn).1 hi)
  · intro n insn' hn hi
    rw [ht.instruction_deleteAll hd hn, Option.map_eq_some_iff] at hi
    obtain ⟨insn, hi, rfl⟩ := hi
    obtain ⟨hl, hnp, -⟩ := (isLive_deletePair hd).1 hn
    obtain ⟨after, heffect, htargets, hnext⟩ := h.arrives hl hi
    refine ⟨after, (effect_mapTargets _).2 heffect, fun t' ht' => ?_, fun hf => ?_⟩
    · rw [Instruction.targets_mapTargets] at ht'
      obtain ⟨t, hmem, rfl⟩ := List.mem_map.1 ht'
      have hmem' : t ∈ s.targets n := by rwa [targets_of_instruction? hi]
      -- A target that was the push is the node behind the pair now, where the shape is
      -- that of the push.
      have hne : t ≠ take := fun heq => hb.target hl (heq ▸ hmem')
      rw [(shape_deletePair h ht hspare hd (ht.isClosed.target hl hmem') hne).2]
      exact htargets t hmem
    · rw [Instruction.fallsThrough_mapTargets] at hf
      obtain ⟨hnl, heq⟩ := hnext hf
      have hne := hpair.next (fetch_program.2 ⟨hl, hi⟩) hnp
      obtain ⟨hleft, hshape⟩ := shape_deletePair h ht hspare hd hnl hne
      rw [← ahead_deletePair hd]
      exact ⟨hleft, hshape.trans heq⟩
  · intro r n hr hn hc
    obtain ⟨handler, hmem, hle, hlt, rfl⟩ := (ht.deleteAll hd).exists_of_covers hr hn hc
    have hl := ((isLive_deletePair hd).1 hn).1
    obtain ⟨hrange, hholds⟩ := ht.holds_of_covers hmem hl hle hlt
    have hcovers := (covers_range_iff (lt_size_of_ahead_lt hholds.1).le hl).2 ⟨hle, hlt⟩
    have hentry := shape_deletePair h ht hspare hd (isLive_ahead hholds.2)
      (hb.handler hl hrange hcovers)
    rw [ahead_deletePair hd] at hentry
    exact hentry.2.trans (h.handler hrange hl hcovers)

/-- **Every edit keeps a stream verified.** -/
theorem Edit.typed (hedit : Edit s s') (ht : s.Thins m) (h : Typed pool s shape) :
    Typed pool s' shape := by
  cases hedit with
  | renumber => exact h.renumber
  | pair hspare hd => exact typed_pair h ht hspare hd
  | @discard store kind index hl hi hd =>
      constructor
      · rw [ahead_replace]
        exact h.start
      · intro n insn hn hx
        rw [isLive_replace] at hn
        by_cases hne : n = store
        · subst hne
          rw [instruction?_replace_self (lt_size_of_isLive hl)] at hx
          cases hx
          unfold DeadStore.discard
          split <;> exact Bool.false_ne_true
        · rw [instruction?_replace_of_ne hne] at hx
          exact h.regular hn hx
      · intro n insn hn hx
        rw [isLive_replace] at hn
        rw [Arrives, ahead_replace, isLive_replace]
        by_cases hne : n = store
        · subst hne
          rw [instruction?_replace_self (lt_size_of_isLive hl)] at hx
          cases hx
          -- The discard takes what the store took.
          exact arrives_discard (h.arrives hl hi)
        · rw [instruction?_replace_of_ne hne] at hx
          exact h.arrives hn hx
      · intro r n hr hn hc
        rw [isLive_replace] at hn
        exact h.handler hr hn hc

/-- **The pass succeeds on a verified stream** and keeps it verified. -/
theorem exists_removeDeadStores (h : Typed pool s shape) (ht : s.Thins m) (limit : Nat) :
    ∃ stats s', s.removeDeadStores limit = (.ok stats, s') ∧ Typed pool s' shape ∧
      s'.Thins m := by
  have hchain : ∀ {t}, ReflTransGen Edit s t → Typed pool t shape ∧ t.Thins m := by
    intro t hst
    induction hst with
    | refl => exact ⟨h, ht⟩
    | tail _ hedit ih => exact ⟨hedit.typed ih.2 ih.1, hedit.thins ih.2⟩
  have hleads := leads_removeDeadStores ht limit
  rcases hr : s.removeDeadStores limit with ⟨_ | stats, s'⟩
  · rw [hr] at hleads
    obtain ⟨t, hst, hstuck⟩ := hleads
    exact absurd hstuck (not_stuck (hchain hst).1)
  · rw [hr] at hleads
    exact ⟨stats, s', rfl, hchain hleads.1⟩

end JvmOptimizer.DeadStore
