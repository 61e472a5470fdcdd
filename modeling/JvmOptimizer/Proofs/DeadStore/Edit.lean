import JvmOptimizer.Proofs.DeadStore.Agreement

/-!
# The edits of dead store elimination

The pass edits a stream in three ways: it counts positions anew, it lets a dead
store discard its value, and it deletes a push together with what takes the
value. `Edit` says what licenses each of them; everything that is preserved by
an edit is preserved by the pass.
-/

namespace JvmOptimizer.DeadStore

open Machine CodeStream

variable {Ref Heap Event : Type} {env : Environment Ref Heap Event} {vars : Variables Ref}
  {heap : Heap}

/-- Control comes to the second node from the first one only. -/
structure Behind (s : CodeStream) (push take : Nat) : Prop where
  prev : s.prev? take = some push
  target : ∀ {n}, s.isLive n → take ∉ s.targets n
  handler : ∀ {n r}, s.isLive n → r ∈ s.handlers → Covers r n → r.entry ≠ take

/-- From a store on nobody reads the slot. -/
def Dead (s : CodeStream) (slot store : Nat) : Prop :=
  ∃ region, Unread s.program slot region ∧ region store

/-- A push and the instruction that takes the value, which are of no use. -/
inductive Spare (s : CodeStream) (push take : Nat) : Prop
  | store {insn kind index} (hb : Behind s push take) (hp : s.instruction? push = some insn)
      (hpure : insn.isPurePush) (ht : s.instruction? take = some (.store kind index))
      (hd : Dead s index.toNat take) : Spare s push take
  | discard {insn opcode bytes k} (hb : Behind s push take)
      (hp : s.instruction? push = some insn) (hk : insn.pushedSlots? = some k)
      (ht : s.instruction? take = some (.verbatim opcode bytes))
      (hop : opcode = Opcode.pop ∧ k = 1 ∨ opcode = Opcode.pop2 ∧ k = 2) : Spare s push take

/-- What the pass does to a stream. -/
inductive Edit : CodeStream → CodeStream → Prop
  | renumber {s} : Edit s s.renumber
  | discard {s store kind index} (hl : s.isLive store)
      (ht : s.instruction? store = some (.store kind index)) (hd : Dead s index.toNat store) :
      Edit s (s.replace store (discard kind))
  | pair {s s' push take} (h : Spare s push take) (hd : s.deleteAll [push, take] = .ok s') :
      Edit s s'

variable {m : Method} {s s' : CodeStream} {push take : Nat}

/-- Each edit of the pass leaves a part of the body, so what holds of such parts
holds all along the pass. -/
theorem Edit.thins (h : Edit s s') (ht : s.Thins m) : s'.Thins m := by
  cases h with
  | renumber => exact ht.renumber
  | discard hl hi hd =>
      exact ht.replace (lt_size_of_isLive hl) (targets_of_instruction? hi) rfl
  | pair hs hd => exact ht.deleteAll hd

/-! ### Pairs -/

theorem Spare.behind (h : Spare s push take) : Behind s push take := by
  cases h with
  | store hb => exact hb
  | discard hb => exact hb

theorem Behind.isLive (h : Behind s push take) :
    s.isLive push ∧ s.isLive take ∧ push < take := by
  obtain ⟨ht, hlt, hp, -⟩ := prev?_eq_some_iff.1 h.prev
  exact ⟨hp, ht, hlt⟩

theorem isLive_deletePair (hd : s.deleteAll [push, take] = .ok s') {n : Nat} :
    s'.isLive n ↔ s.isLive n ∧ n ≠ push ∧ n ≠ take := by
  rw [isLive_deleteAll hd]
  simp

theorem ahead_deletePair (hd : s.deleteAll [push, take] = .ok s') (t : Nat) :
    s'.ahead (s.ahead t) = s'.ahead t :=
  ahead_ahead (size_deleteAll hd) fun _ hn => ((isLive_deletePair hd).1 hn).1

/-- Apart from the two nodes that go, the stream without them is in step with the
one with them, once a reference to a dead node is read as one to the next live
node. -/
theorem follows_deletePair (hs : s.Thins m) (hd : s.deleteAll [push, take] = .ok s') :
    Follows s'.ahead (fun n => n = push ∨ n = take) s.program s'.program := by
  have hkept : ∀ {n insn}, ¬ (n = push ∨ n = take) → s.program.fetch n = some insn →
      s'.isLive n ∧ s.isLive n ∧ s.instruction? n = some insn := by
    intro n insn hn hf
    obtain ⟨hl, hi⟩ := fetch_program.1 hf
    rw [not_or] at hn
    exact ⟨(isLive_deletePair hd).2 ⟨hl, hn⟩, hl, hi⟩
  refine ⟨fun {n insn} hn hf => ?_, fun {n insn} hn hf => ?_, fun {n insn} hn hf catches => ?_⟩
  · obtain ⟨hl', -, hi⟩ := hkept hn hf
    rw [ahead_of_isLive hl', fetch_program, hs.instruction_deleteAll hd hl', hi]
    exact ⟨hl', rfl⟩
  · obtain ⟨hl', -, -⟩ := hkept hn hf
    rw [ahead_of_isLive hl']
    exact (ahead_deletePair hd (n + 1)).symm
  · obtain ⟨hl', hl, -⟩ := hkept hn hf
    rw [ahead_of_isLive hl', (hs.deleteAll hd).handler?_program hl', hs.handler?_program hl,
      Option.map_map]
    congr 1
    exact funext fun t => (ahead_deletePair hd t).symm

/-- The stream without a push and what takes it. -/
theorem Behind.pair (h : Behind s push take) (hs : s.Thins m)
    (hd : s.deleteAll [push, take] = .ok s') :
    Pair s'.ahead push take s.program s'.program := by
  obtain ⟨hpush, htake, hlt⟩ := h.isLive
  obtain ⟨-, -, -, hbetween⟩ := prev?_eq_some_iff.1 h.prev
  have hsize := size_deleteAll hd
  have htlt := lt_size_of_isLive htake
  have hnext : take + 1 ≤ s.program.next take := le_ahead htlt
  constructor
  case follows => exact follows_deletePair hs hd
  case start => exact (ahead_deletePair hd 0).symm
  case next_push => exact ahead_succ_of_prev? h.prev
  -- Between the two there is no live node, so references to either end at one place.
  case push_eq =>
    refine ahead_eq_of_dead hlt.le (by omega) fun k hk₁ hk₂ hk => ?_
    obtain ⟨hl, hne, -⟩ := (isLive_deletePair hd).1 hk
    exact hbetween k (by omega) hk₂ hl
  case take_eq =>
    refine Eq.trans ?_ (ahead_deletePair hd (take + 1)).symm
    exact ahead_of_not_isLive (by omega) fun hl => ((isLive_deletePair hd).1 hl).2.2 rfl
  case push_ne => omega
  case next_ne => constructor <;> omega
  case start_ne =>
    have : s.program.start ≤ push := ahead_le_of_isLive (Nat.zero_le _) hpush
    omega
  -- The remaining cases say that control comes to `take` from `push` only.
  case target =>
    intro n insn hf ht
    obtain ⟨hl, hi⟩ := fetch_program.1 hf
    rw [← targets_of_instruction? hi] at ht
    exact h.target hl ht
  case next =>
    intro n insn hf hne heq
    obtain ⟨hl, -⟩ := fetch_program.1 hf
    have hle : n + 1 ≤ take := heq ▸ le_ahead (lt_size_of_isLive hl)
    rcases Nat.lt_or_gt_of_ne hne with hn | hn
    · have : s.program.next n ≤ push := ahead_le_of_isLive hn hpush
      omega
    · exact hbetween n hn hle hl
  case handler =>
    intro n insn catches hf heq
    obtain ⟨r, hr, hc, rfl⟩ := exists_covers heq
    exact h.handler (fetch_program.1 hf).1 hr hc rfl

/-! ### Behaviour -/

/-- Nothing reads a slot in the empty region. A pair that ends in a discard writes
no slot, so this region serves it. -/
theorem unread_empty {p : Program} : Unread p 0 fun _ => False := by
  constructor <;> intros <;> contradiction

/-- **Every edit preserves behaviour.** -/
theorem Edit.sameBehaviour (h : Edit s s') (ht : s.Thins m)
    (hs : SafeFrom env s.program vars heap) :
    SafeFrom env s'.program vars heap ∧ SameBehaviour env s.program s'.program vars heap := by
  cases h with
  | renumber =>
      rw [program_renumber]
      exact ⟨hs, .refl⟩
  | @discard store kind index hl hi hd =>
      obtain ⟨region, hu, hin⟩ := hd
      -- One instruction is exchanged and no link changes, so nodes keep their names.
      have hother : ∀ n, n ≠ store →
          (s.replace store (DeadStore.discard kind)).program.fetch n = s.program.fetch n := by
        intro n hn
        simp only [program, isLive_replace, instruction?_replace_of_ne hn]
      have hnext : (s.replace store (DeadStore.discard kind)).program.next = s.program.next :=
        funext fun n => ahead_replace
      refine sameBehaviour_of_discard ⟨fun {n insn} hn hf => ?_, fun hn hf => ?_,
        fun hn hf catches => ?_⟩ ahead_replace (fetch_program.2 ⟨hl, hi⟩) ?_ (congrFun hnext _)
        hu hin hs
      · have hsame : insn.mapTargets id = insn := Instruction.mapTargets_eq_self fun _ _ => rfl
        rw [hsame, id, hother n hn, hf]
      · rw [hnext]
        rfl
      · rw [Option.map_id]
        rfl
      · rw [fetch_program, isLive_replace]
        exact ⟨hl, instruction?_replace_self (lt_size_of_isLive hl)⟩
  | pair hspare hd =>
      cases hspare with
      | store hb hp hpure hi hdead =>
          -- A pair that ends in a store: the slot may differ from here on.
          obtain ⟨region, hu, hin⟩ := hdead
          obtain ⟨hpush, htake, -⟩ := hb.isLive
          exact (hb.pair ht hd).sameBehaviour hu (fetch_program.2 ⟨hpush, hp⟩) hpure
            (fetch_program.2 ⟨htake, hi⟩) (.store rfl hin) hs
      | @discard insn _ _ _ hb hp hk hi hop =>
          obtain ⟨hpush, htake, -⟩ := hb.isLive
          -- A pair that ends in a discard: no slot is written at all.
          have hpure : insn.isPurePush := by
            rw [Instruction.isPurePush, hk]
            rfl
          refine (hb.pair ht hd).sameBehaviour unread_empty (fetch_program.2 ⟨hpush, hp⟩) hpure
            (fetch_program.2 ⟨htake, hi⟩) ?_ hs
          rcases hop with ⟨rfl, rfl⟩ | ⟨rfl, rfl⟩
          · exact .pop hk
          · exact .pop2 hk

end JvmOptimizer.DeadStore
