import JvmOptimizer.Proofs.Code.Decoded

/-!
# What is written, without a pool

A code array says itself which instructions it holds; a pool only tells what the
loads push. So what the encoder writes is read back without a pool as the body
it was given, with a load in place of each constant that went through the pool
(`Unloads`). This holds of any pool, also of one that has run out of indices,
and with `decode_eq_lookUp` it tells what the bytes are in every other pool.
-/

namespace JvmOptimizer.Code

open Reader

/-- The second instruction is how the first one is written: itself, or a load
through the pool for a constant. -/
inductive Unloads : Instruction Nat → Instruction Nat → Prop
  | same (insn : Instruction Nat) : Unloads insn insn
  | load {v : Value} {opcode : Opcode} {operands : Bytes}
      (form : Form.ofOpcode opcode = .poolConstant)
      (length : operands.length = if opcode = Opcode.ldc then 1 else 2) :
      Unloads (.const v) (.verbatim opcode operands)

section Forms

variable {π : Type} [Pool π] {pool : π} {m : Method} {τ : Type} {insn : Instruction τ}

/-- No load is resolved without a pool. -/
theorem hasForm_empty (h : HasForm pool insn) : HasForm ({} : LiteralPool) insn := by
  cases insn with
  | verbatim opcode operands =>
      rcases h with h | ⟨hform, hlength, -⟩
      · exact .inl h
      · refine .inr ⟨hform, hlength, fun value hvalue => ?_⟩
        rw [resolve?_empty] at hvalue
        cases hvalue
  | switch fallback cases => cases cases <;> exact h
  | _ => exact h

theorem WellFormed.empty (h : WellFormed pool m) : WellFormed ({} : LiteralPool) m :=
  ⟨h.target, fun insn hmem => hasForm_empty (h.form insn hmem), h.handler⟩

end Forms

namespace Unloads

variable {insn written : Instruction Nat}

/-- A load that stands for a constant is one that an empty pool leaves alone. -/
theorem hasForm (h : Unloads insn written) (hform : HasForm ({} : LiteralPool) insn) :
    HasForm ({} : LiteralPool) written := by
  cases h with
  | same => exact hform
  | load form length =>
      refine .inr ⟨form, length, fun value hvalue => ?_⟩
      rw [resolve?_empty] at hvalue
      cases hvalue

theorem hasKeys (h : Unloads insn written) (hkeys : HasKeys insn) : HasKeys written := by
  cases h with
  | same => exact hkeys
  | load => trivial

theorem targets (h : Unloads insn written) : written.targets = insn.targets := by
  cases h <;> rfl

end Unloads

/-- What is decoded with a pool, from what is decoded without. -/
theorem decode_eq_ok_iff {π : Type} [Pool π] {pool : π} {code : Bytes}
    {exceptions : List ExceptionEntry} {m : Method} : decode pool code exceptions = .ok m ↔
      ∃ raw, decode ({} : LiteralPool) code exceptions = .ok raw ∧
        m = { raw with code := raw.code.map (lookUp pool) } := by
  rw [decode_eq_lookUp]
  cases decode ({} : LiteralPool) code exceptions with
  | error e => simp [Except.map]
  | ok raw => simp [Except.map, eq_comm]

/-! ### Pieces -/

variable {π : Type} [Pool π] {p p' : π} {insn : Instruction Nat} {made : Piece}

/-- A load of the constant at an index. -/
theorem exists_pooledBytes (slots : Nat) (index : UInt16) : ∃ opcode operands,
    pooledBytes slots index = opcode :: operands ∧ Form.ofOpcode opcode = .poolConstant ∧
      operands.length = if opcode = Opcode.ldc then 1 else 2 := by
  unfold pooledBytes
  split
  · exact ⟨_, _, rfl, rfl, rfl⟩
  · split
    · exact ⟨_, _, rfl, rfl, rfl⟩
    · exact ⟨_, _, rfl, rfl, rfl⟩

/-- Every piece stands for what is written, whatever the pool. -/
theorem unloads_piece (h : piece insn p = (.ok made, p')) :
    ∃ written, Unloads insn written ∧ Stands ({} : LiteralPool) written made := by
  rcases piece_eq_ok h with ⟨hnone, rfl, -⟩ | ⟨value, index, hsome, -, rfl⟩
  · exact ⟨insn, .same insn, stands_of_pooled?_eq_none hnone⟩
  · -- An empty pool has nothing at the index, so the load is not looked into.
    obtain ⟨rfl, hneeds⟩ := pooled?_eq_some hsome
    obtain ⟨opcode, operands, hbytes, hform, hlength⟩ := exists_pooledBytes value.slots index
    have hload : Unloads (.const value) (.verbatim opcode operands) := .load hform hlength
    refine ⟨_, hload, .const (fun _ => rfl) fun _ _ => ?_⟩
    rw [constantBytes_of_needsPool hneeds, hbytes]
    exact reads_verbatim (hload.hasForm trivial)

/-- The body as it is written, instruction by instruction. -/
theorem unloads_mapM {code : List (Instruction Nat)} {pieces : List Piece}
    (h : code.mapM piece p = (.ok pieces, p')) :
    ∃ written, List.Forall₂ Unloads code written ∧
      List.Forall₂ (Stands ({} : LiteralPool)) written pieces := by
  induction code generalizing p pieces with
  | nil =>
      cases h
      exact ⟨[], .nil, .nil⟩
  | cons insn code ih =>
      obtain ⟨made, t, made', hmade, hrest, rfl⟩ := Steps.mapM_cons_eq_ok.1 h
      obtain ⟨first, hfirst, hstands⟩ := unloads_piece hmade
      obtain ⟨others, hothers, hstands'⟩ := ih hrest
      exact ⟨first :: others, .cons hfirst hothers, .cons hstands hstands'⟩

/-! ### Bodies -/

/-- An instruction that is written comes from one of the body. -/
theorem exists_of_unloads {code written : List (Instruction Nat)} {y : Instruction Nat}
    (h : List.Forall₂ Unloads code written) (hy : y ∈ written) : ∃ x ∈ code, Unloads x y := by
  induction h with
  | nil => cases hy
  | cons hfirst _ ih =>
      rcases List.mem_cons.1 hy with rfl | hy
      · exact ⟨_, List.mem_cons_self, hfirst⟩
      · obtain ⟨x, hx, hunloads⟩ := ih hy
        exact ⟨x, List.mem_cons_of_mem _ hx, hunloads⟩

variable {m : Method} {e : Encoded}

/-- **What is written is read back without a pool**, up to the loads. -/
theorem exists_decode_empty (h : encode m p = (.ok e, p'))
    (hm : WellFormed ({} : LiteralPool) m) (hkeys : ∀ insn ∈ m.code, HasKeys insn) :
    ∃ written, List.Forall₂ Unloads m.code written ∧
      decode ({} : LiteralPool) e.code e.exceptions =
        .ok { code := written, handlers := m.handlers } ∧
      e.code.length ≤ 65535 ∧ e.exceptions.length ≤ m.handlers.length := by
  obtain ⟨pieces, hpieces, hassemble⟩ := encode_eq_ok h
  obtain ⟨written, hunloads, hstands⟩ := unloads_mapM hpieces
  have hlength := hunloads.length_eq
  -- The body as it is written has the targets and handlers of the old one.
  have hwell : WellFormed ({} : LiteralPool) { m with code := written } := by
    refine ⟨fun y hy t ht => ?_, fun y hy => ?_, fun hd hmem => ?_⟩
    · obtain ⟨x, hx, hxy⟩ := exists_of_unloads hunloads hy
      rw [hxy.targets] at ht
      exact hlength ▸ hm.target x hx t ht
    · obtain ⟨x, hx, hxy⟩ := exists_of_unloads hunloads hy
      exact hxy.hasForm (hm.form x hx)
    · exact hlength ▸ hm.handler hd hmem
  have hkeys' : ∀ y ∈ written, HasKeys y := by
    intro y hy
    obtain ⟨x, hx, hxy⟩ := exists_of_unloads hunloads hy
    exact hxy.hasKeys (hkeys x hx)
  obtain ⟨l, hsize, hcount, hcode, hexceptions, hwritten⟩ :=
    exists_written hwell hkeys' hstands hassemble
  rw [hexceptions]
  exact ⟨written, hunloads, hwritten.decode hwell hcount hcode hsize, hcode.trans_le hsize,
    length_exceptionTable_le l m.handlers⟩

end JvmOptimizer.Code
