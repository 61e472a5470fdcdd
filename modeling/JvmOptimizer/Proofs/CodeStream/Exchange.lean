import JvmOptimizer.DeadStore
import JvmOptimizer.Proofs.CodeStream.Method
import Mathlib.Data.List.Nodup

/-!
# Exchanged instructions and the length of a stream

`Thins` leaves open what stands in the place of an instruction without targets.
Here it is said: the instruction itself, or a constant of the kind that it would
have pushed, or, for a store, the discard of its value. It also leaves open which
handlers go that protect nothing any more; all of them do.

The second half counts. A deletion takes as many nodes off the length of the
stream as it is given, as long as they are live and all different.
-/

namespace JvmOptimizer

namespace Instruction

variable {τ : Type}

/-- The kind of the value that a variable load or a computation pushes. -/
def resultKind? : Instruction τ → Option LocalKind
  | load kind _ => some kind
  | arith _ kind => some (.number kind)
  | compare _ => some (.number .int)
  | convert _ target => some (.number target.resultKind)
  | _ => none

/-- What the passes put in the place of an instruction. -/
inductive Replaces : (new old : Instruction Nat) → Prop
  /-- A constant, for what pushes a value of its kind. -/
  | const {v old} (h : old.resultKind? = some (.number v.kind)) : Replaces (.const v) old
  /-- A discard of as many slots, for a store. -/
  | discard {kind index} : Replaces (DeadStore.discard kind) (.store kind index)

/-- What is put in has no targets, so nothing new is jumped to. -/
theorem Replaces.targets_eq_nil {new old : Instruction Nat} (h : new.Replaces old) :
    new.targets = [] := by
  cases h <;> rfl

/-- Nothing replaces an instruction with targets. -/
theorem Replaces.old_targets_eq_nil {new old : Instruction Nat} (h : new.Replaces old) :
    old.targets = [] := by
  cases h with
  | const h => cases old <;> simp_all [resultKind?, targets]
  | discard => rfl

/-- No store is put anywhere. -/
theorem Replaces.ne_store {new old : Instruction Nat} (h : new.Replaces old) (kind : LocalKind)
    (index : UInt16) : new ≠ .store kind index := by
  cases h <;> nofun

/-- A replacement differs from what it replaces. -/
theorem Replaces.ne {new old : Instruction Nat} (h : new.Replaces old) : new ≠ old := by
  intro heq
  subst heq
  cases h with
  | const h => simp [resultKind?] at h

end Instruction

namespace CodeStream

variable {s s' : CodeStream} {m : Method} {n t id : Nat} {ids : List Nat} {insn x : Instruction Nat}

/-! ### Exchanged instructions -/

/-- What an edited stream has of a method, whatever was deleted. -/
structure Faithful (s : CodeStream) (m : Method) : Prop where
  /-- Where the method has an instruction without targets, the stream has it too
  or a replacement of it, whether the node is live or not. -/
  exchanged : ∀ {n insn}, m.code[n]? = some insn → insn.targets = [] →
    ∃ x, s.instruction? n = some x ∧ (x = insn ∨ x.Replaces insn)
  /-- Ranges that become empty do not stay. -/
  proper : (∀ h ∈ m.handlers, h.start < h.stop) → ∀ r ∈ s.handlers, r.isProper

/-- At the start every live node has the instruction of the body at its place. -/
theorem faithful_whole : (whole m).Faithful m where
  exchanged := by
    intro n insn hi _
    rw [instruction?_whole]
    exact ⟨insn, hi, .inl rfl⟩
  proper := by
    intro htidy r hr
    obtain ⟨h, hmem, rfl⟩ := List.mem_map.1 hr
    have := htidy h hmem
    rw [isProper_iff]
    dsimp only
    split
    · simp only [ne_eq, Option.some.injEq]
      omega
    · nofun

/-- Ranges that have become empty are dropped on the way. -/
theorem proper_deleteOne (hd : s.deleteOne id = .ok s') (hid : s.isLive id)
    (h : ∀ r ∈ s.handlers, r.isProper) : ∀ r ∈ s'.handlers, r.isProper := by
  intro r hr
  rcases (deleteOne_eq_ok_iff hid).1 hd with ⟨-, rfl⟩ | ⟨-, -, rfl⟩
  · exact (List.mem_filter.1 hr).2
  · obtain ⟨q, hq, rfl⟩ := List.mem_map.1 hr
    split
    · rw [isProper_iff]
      nofun
    · exact h q (List.mem_filter.1 hq).1

theorem proper_deleteRange {first last count : Nat}
    (hd : s.deleteRange first last = .ok (count, s')) : ∀ r ∈ s'.handlers, r.isProper := by
  intro r hr
  rw [handlers_deleteRange hd] at hr
  obtain ⟨q, -, hq⟩ := List.mem_filterMap.1 hr
  exact (Option.filter_eq_some_iff.1 hq).2

namespace Faithful

/-- Instructions without targets are all that counts. -/
theorem congr (h : s.Faithful m)
    (hsame : ∀ {n x}, s.instruction? n = some x → x.targets = [] → s'.instruction? n = some x)
    (hproper : (∀ r ∈ s.handlers, r.isProper) → ∀ r ∈ s'.handlers, r.isProper) :
    s'.Faithful m where
  exchanged := by
    intro n insn hi ht
    obtain ⟨x, hx, hor⟩ := h.exchanged hi ht
    refine ⟨x, hsame hx ?_, hor⟩
    rcases hor with rfl | hr
    · exact ht
    · exact hr.targets_eq_nil
  proper := fun htidy => hproper (h.proper htidy)

theorem renumber (h : s.Faithful m) : s.renumber.Faithful m :=
  h.congr (fun hx _ => instruction?_renumber.trans hx) id

theorem deleteAll (h : s.Faithful m) (hd : s.deleteAll ids = .ok s') : s'.Faithful m :=
  h.congr (fun hx ht => instruction?_deleteAll hd hx ht) fun hproper =>
    deleteAll_induction (P := fun t => ∀ r ∈ t.handlers, r.isProper) hd hproper
      fun _ hid hd ht => proper_deleteOne hd hid ht

theorem deleteRange {first last count : Nat} (h : s.Faithful m)
    (hd : s.deleteRange first last = .ok (count, s')) : s'.Faithful m :=
  h.congr (fun hx _ => (instruction?_deleteRange hd).trans hx) fun _ => proper_deleteRange hd

/-- An exchange is recorded once: what takes the place of an exchanged instruction
is judged by the one that the body has there. -/
theorem replace (h : s.Faithful m) (hid : id < s.nodes.size) (hi : m.code[id]? = some insn)
    (hx : x.Replaces insn) : (s.replace id x).Faithful m where
  exchanged := by
    intro n other ho ht
    by_cases hn : n = id
    · subst hn
      rw [hi] at ho
      cases ho
      exact ⟨x, instruction?_replace_self hid, .inr hx⟩
    · rw [instruction?_replace_of_ne hn]
      exact h.exchanged ho ht
  proper := h.proper

/-- Whatever a live node has stems from the method. -/
theorem instruction (h : s.Faithful m) (ht : s.Thins m) (hn : s.isLive n)
    (hi : m.code[n]? = some insn) :
    ∃ x, s.instruction? n = some x ∧ (x = insn.mapTargets s.ahead ∨ x.Replaces insn) := by
  by_cases hnil : insn.targets = []
  · rw [Instruction.mapTargets_of_targets_eq_nil hnil]
    exact h.exchanged hi hnil
  · exact ⟨_, ht.instruction_of_targets hn hi hnil, .inl rfl⟩

end Faithful

/-! ### Lengths -/

theorem nodup_ids : s.ids.Nodup := pairwise_ids.imp Nat.ne_of_lt

theorem ids_congr (hsize : s'.nodes.size = s.nodes.size)
    (hlive : ∀ n, s'.isLive n = s.isLive n) : s'.ids = s.ids := by
  rw [ids, ids, hsize]
  exact List.filter_congr fun n _ => hlive n

@[simp]
theorem length_renumber : s.renumber.length = s.length := by
  rw [length, length, ids_congr size_renumber fun _ => isLive_renumber]

@[simp]
theorem length_replace : (s.replace id x).length = s.length := by
  rw [length, length, ids_congr size_replace fun _ => isLive_replace]

theorem length_whole : (whole m).length = m.code.length := by
  rw [length, ids_whole, List.length_range]

theorem length_deleteOne (hd : s.deleteOne id = .ok s') (hid : s.isLive id) :
    s'.length + 1 = s.length := by
  have hids : s'.ids = s.ids.erase id := by
    rw [nodup_ids.erase_eq_filter, ids, ids, List.filter_filter, size_deleteOne hd hid]
    refine List.filter_congr fun n _ => ?_
    rw [isLive_deleteOne hd hid, Bool.and_comm]
  have hmem : id ∈ s.ids := mem_ids.2 hid
  have hpos := List.length_pos_of_mem hmem
  rw [length, length, hids, List.length_erase_of_mem hmem]
  omega

/-- Deleting several nodes one after the other, if no node is named twice. -/
theorem length_deleteAll (hd : s.deleteAll ids = .ok s') (hnodup : ids.Nodup)
    (hlive : ∀ id ∈ ids, s.isLive id) : s'.length + ids.length = s.length := by
  induction ids generalizing s with
  | nil =>
      cases hd
      rfl
  | cons id ids ih =>
      obtain ⟨next, hone, hrest⟩ := deleteAll_cons_eq_ok.1 hd
      rw [List.nodup_cons] at hnodup
      rw [List.forall_mem_cons] at hlive
      have hnext := ih hrest hnodup.2 fun k hk => by
        rw [isLive_deleteOne hone hlive.1]
        have hne : k ≠ id := fun heq => hnodup.1 (heq ▸ hk)
        simpa [hne] using hlive.2 k hk
      have := length_deleteOne hone hlive.1
      rw [List.length_cons]
      omega

/-- The count that is returned is that of the nodes that went. -/
theorem length_deleteRange {first last count : Nat}
    (hd : s.deleteRange first last = .ok (count, s')) : s'.length + count = s.length := by
  have hids : s'.ids = s.ids.filter fun n => !decide (first ≤ n ∧ n ≤ last) := by
    rw [ids, ids, List.filter_filter, size_deleteRange hd]
    refine List.filter_congr fun n _ => ?_
    rw [Bool.eq_iff_iff, isLive_deleteRange hd]
    grind
  obtain ⟨members, hr, -, rfl, -⟩ := deleteRange_eq_ok_iff.1 hd
  obtain ⟨-, -, -, rfl⟩ := run?_eq_some_iff.1 hr
  rw [length, length, hids, Nat.add_comm]
  exact (List.length_eq_length_filter_add _).symm

/-- A node is in front of a place if its rank is lower. -/
theorem lt_iff_rank_lt (hn : s.isLive n) : n < t ↔ s.rank n < s.rank t := by
  constructor
  · exact rank_lt_rank hn
  · intro h
    by_contra hle
    have := rank_mono (s := s) (Nat.le_of_not_lt hle)
    omega

end CodeStream

end JvmOptimizer
