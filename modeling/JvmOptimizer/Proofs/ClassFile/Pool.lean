import JvmOptimizer.ClassFile.Rewrite
import JvmOptimizer.Proofs.Bytes
import JvmOptimizer.Proofs.Pool

/-!
# The pool of a class while it is rewritten

A pool that was read has an index for each of its slots. From then on numbers
are put into it and nothing else. So whatever looks for another constant finds
the same in every later pool: names, descriptors, bodies, and the sizes that
come from descriptors.
-/

namespace JvmOptimizer

open Reader

/-! ### Reading a pool -/

namespace ConstantPool

variable {p q : ConstantPool} {index : UInt16} {α : Type}

/-- The size is one behind the index all along. The last constant may be wide and
reach one slot behind the count. -/
theorem yields_readFrom {count index : Nat} {pool : ConstantPool}
    (hindex : pool.size + 1 = index) (hle : index ≤ count + 1) :
    Yields (readFrom count index pool) fun p => p.size ≤ count := by
  fun_induction readFrom count index pool with
  | case1 index pool hlt ihwide ihnarrow =>
      refine Yields.bind_any fun c => ?_
      have hsize := size_push pool c
      by_cases hwide : c.isWide
      · rw [if_pos hwide]
        rw [Constant.slots, if_pos hwide] at hsize
        exact ihwide c (by omega) (by omega)
      · rw [if_neg hwide]
        rw [Constant.slots, if_neg hwide] at hsize
        exact ihnarrow c (by omega) (by omega)
  | case2 index pool hge => exact Yields.pure (by omega)

theorem yields_read : Yields ConstantPool.read fun p => p.size ≤ 65535 := by
  refine Yields.bind_any fun count => ?_
  intro cursor p cursor' hread
  have := yields_readFrom (by rfl) (by omega) _ _ _ hread
  have := count.toNat_lt
  omega

/-! ### Later pools -/

/-- A number that is put in stands where nothing stood. -/
theorem get?_push (v : Value) : (p.push (.number v)).get? index = p.get? index ∨
    p.get? index = none ∧ (p.push (.number v)).get? index = some (.number v) := by
  rw [get?_eq_slotAt?, get?_eq_slotAt?, toList_push, Constant.row]
  unfold slotAt?
  by_cases h0 : index = 0
  · rw [if_pos h0, if_pos h0]
    exact .inl rfl
  · rw [if_neg h0, if_neg h0]
    rcases Nat.lt_or_ge (index.toNat - 1) p.constants.toList.length with hlt | hge
    · rw [List.getElem?_append_left hlt]
      exact .inl rfl
    · rw [List.getElem?_append_right hge, List.getElem?_eq_none hge]
      generalize hadded : (Constant.number v :: if (Constant.number v).isWide then
        [Constant.upperHalf] else []) = added
      have hmem : ∀ c ∈ added, c = .number v ∨ c = .upperHalf := by
        rw [← hadded]
        split <;> simp
      cases hslot : added[index.toNat - 1 - p.constants.toList.length]? with
      | none => exact .inl rfl
      | some c =>
          rcases hmem c (List.mem_of_getElem? hslot) with rfl | rfl
          · exact .inr ⟨rfl, rfl⟩
          · exact .inl rfl

/-- Only numbers are put into a pool. Whoever finds something else in a later pool
found the same before. -/
theorem get?_of_later (h : Pool.Later p q) (index : UInt16) : q.get? index = p.get? index ∨
    p.get? index = none ∧ ∃ v, q.get? index = some (.number v) := by
  induction h with
  | refl => exact .inl rfl
  | @intern _ _ v _ _ step ih =>
      obtain ⟨i, -, -, rfl⟩ | ⟨-, -, rfl⟩ := add_cases step
      · exact ih
      · rcases get?_push v with heq | ⟨hnone, hsome⟩
        · rwa [heq]
        · rw [hnone] at ih
          refine .inr ⟨?_, v, hsome⟩
          rcases ih with ih | ⟨ih, -⟩
          · exact ih.symm
          · exact ih

/-- Only numbers are ever put into a pool, so what is no number stays what it was;
in particular every name does. -/
theorem utf8?_of_later (h : Pool.Later p q) : q.utf8? = p.utf8? := by
  funext index
  rcases get?_of_later h index with heq | ⟨hp, v, hq⟩
  · rw [utf8?, heq, utf8?]
  · rw [utf8?, hq, utf8?, hp]

theorem typeDescriptor?_of_later (h : Pool.Later p q) : q.typeDescriptor? = p.typeDescriptor? := by
  funext index
  rcases get?_of_later h index with heq | ⟨hp, v, hq⟩
  · rw [typeDescriptor?, heq, utf8?_of_later h, typeDescriptor?]
  · rw [typeDescriptor?, hq, typeDescriptor?, hp]

/-- A member is named through two more indices, and none of the three is a number.
-/
theorem memberDescriptor?_of_later (h : Pool.Later p q) :
    q.memberDescriptor? = p.memberDescriptor? := by
  funext index
  rcases get?_of_later h index with heq | ⟨hp, v, hq⟩
  · rw [memberDescriptor?, heq, typeDescriptor?_of_later h, memberDescriptor?]
  · rw [memberDescriptor?, hq, memberDescriptor?, hp]

end ConstantPool

/-- The pool of a class that was read has an index for each of its slots. -/
theorem ClassFile.size_pool_of_parse {bytes : Bytes} {c : ClassFile}
    (h : ClassFile.parse bytes = .ok c) : Pool.size c.pool ≤ 65535 := by
  have hyields : Yields ClassFile.read fun c => c.pool.size ≤ 65535 := by
    refine Yields.bind_any fun start => Yields.guard fun _ => Yields.bind_any fun minor =>
      Yields.bind_any fun major => ConstantPool.yields_read.bind fun pool hpool => ?_
    refine Yields.bind_any fun access => Yields.bind_any fun this => Yields.bind_any fun super =>
      Yields.bind_any fun interfaces => Yields.bind_any fun fields => ?_
    exact Yields.bind_any fun methods => Yields.bind_any fun attributes =>
      Yields.bind_any fun cursor => Yields.guard fun _ => Yields.pure hpool
  exact hyields.runOn h

/-! ### Members and later pools -/

section Members

variable {p q : ConstantPool} (h : Pool.Later p q)
include h

theorem Attribute.name?_of_later (a : Attribute) : a.name? q = a.name? p := by
  rw [name?, name?, ConstantPool.utf8?_of_later h]

namespace Member

variable (m : Member)

theorem descriptor?_of_later : m.descriptor? q = m.descriptor? p := by
  rw [descriptor?, descriptor?, ConstantPool.utf8?_of_later h]

theorem code?_of_later : m.code? q = m.code? p := by
  simp only [code?, Attribute.name?_of_later h]

end Member

end Members

/-! ### Sizes and later pools -/

section Sizes

variable {π : Type} [Pool π] {p q : π}
  (h : ∀ index, Pool.memberDescriptor? q index = Pool.memberDescriptor? p index)
include h

/-- A stack effect looks at the pool only for the descriptor of a member. -/
theorem Instruction.stackEffect_congr (insn : Instruction Nat) :
    insn.stackEffect q = insn.stackEffect p := by
  cases insn with
  | verbatim opcode operands =>
      simp only [stackEffect, StackEffect.ofVerbatim, StackEffect.member, h]
  | _ => rfl

/-- The search is the same at every step, since each effect is. -/
theorem Sizing.deepest_congr (code : Array (Instruction Nat)) (visited : Array Bool)
    (pending : List Visit) (depth : Nat) :
    deepest q code visited pending depth = deepest p code visited pending depth := by
  -- The cases are those of the search itself; only the fourth to the sixth look at the
  -- pool.
  fun_induction deepest p code visited pending depth with
  | case1 => rw [deepest]
  | case2 visited v pending depth hnone ih =>
      rw [deepest, hnone]
      exact ih
  | case3 visited v pending depth insn hinsn hlt hvisited ih =>
      rw [deepest, hinsn]
      simp only [dif_pos hlt, dif_pos hvisited]
      exact ih
  | case4 visited v pending depth insn hinsn hlt hvisited e heffect =>
      rw [deepest, hinsn]
      simp only [dif_pos hlt, dif_neg hvisited, insn.stackEffect_congr h, heffect]
  | case5 visited v pending depth insn hinsn hlt hvisited effect heffect hunder =>
      rw [deepest, hinsn]
      simp only [dif_pos hlt, dif_neg hvisited, insn.stackEffect_congr h, heffect, if_pos hunder]
  | case6 visited v pending depth insn hinsn hlt hvisited effect heffect hunder after ih =>
      rw [deepest, hinsn]
      simp only [dif_pos hlt, dif_neg hvisited, insn.stackEffect_congr h, heffect, if_neg hunder]
      exact ih
  | case7 visited v pending depth insn hinsn hlt ih =>
      rw [deepest, hinsn]
      simp only [dif_neg hlt]
      exact ih

theorem Method.resize_congr (m : Method) : m.resize q = m.resize p := by
  simp only [resize, Sizing.maxStack, Sizing.deepest_congr h]

theorem Method.optimizeOrKeep_congr (settings : Settings) (m : Method) :
    m.optimizeOrKeep q settings = m.optimizeOrKeep p settings := by
  simp only [optimizeOrKeep, optimize, resize_congr h]

end Sizes

/-- **A later pool optimizes alike.** -/
theorem Method.optimizeOrKeep_of_later {p q : ConstantPool} (h : Pool.Later p q)
    (settings : Settings) (m : Method) :
    m.optimizeOrKeep q settings = m.optimizeOrKeep p settings :=
  optimizeOrKeep_congr (congrFun (ConstantPool.memberDescriptor?_of_later h)) settings m

end JvmOptimizer
