import JvmOptimizer.Loops

/-!
# Replacing the targets of an instruction

`Instruction.mapTargets` changes where an instruction leads and nothing else:
it respects composition, depends on the targets only, and keeps every other view
of the instruction.
-/

namespace JvmOptimizer

variable {τ σ ρ : Type}

/-! ### Computations that succeed throughout -/

/-- Where every element succeeds, so does the list. -/
theorem List.mapM_eq_ok {ε α β : Type} {f : α → Except ε β} {g : α → β} {l : List α}
    (h : ∀ a ∈ l, f a = .ok (g a)) : l.mapM f = .ok (l.map g) := by
  induction l with
  | nil => rfl
  | cons a l ih =>
      simp only [List.mem_cons, forall_eq_or_imp] at h
      rw [List.mapM_cons, h.1, ih h.2]
      rfl

/-- Two computations succeed together if each does. -/
theorem Except.bind_eq_ok {ε α β : Type} {x : Except ε α} {f : α → Except ε β} {b : β} :
    x >>= f = .ok b ↔ ∃ a, x = .ok a ∧ f a = .ok b := by
  cases x <;> simp [bind, Except.bind]

theorem List.mapM_cons_eq_ok {ε α β : Type} {f : α → Except ε β} {a : α} {l : List α}
    {bs : List β} : (a :: l).mapM f = .ok bs ↔
      ∃ b bs', f a = .ok b ∧ l.mapM f = .ok bs' ∧ bs = b :: bs' := by
  rw [List.mapM_cons, Except.bind_eq_ok]
  constructor
  · rintro ⟨b, ha, h⟩
    obtain ⟨bs', hl, h⟩ := Except.bind_eq_ok.1 h
    cases h
    exact ⟨b, bs', ha, hl, rfl⟩
  · rintro ⟨b, bs', ha, hl, rfl⟩
    exact ⟨b, ha, Except.bind_eq_ok.2 ⟨bs', hl, rfl⟩⟩

/-- Where the list succeeds, so does every element. -/
theorem List.exists_of_mapM_eq_ok {ε α β : Type} {f : α → Except ε β} {l : List α}
    {l' : List β} (h : l.mapM f = .ok l') : ∀ a ∈ l, ∃ b, f a = .ok b := by
  induction l generalizing l' with
  | nil => simp
  | cons a l ih =>
      obtain ⟨b, bs, ha, hl, -⟩ := List.mapM_cons_eq_ok.1 h
      exact List.forall_mem_cons.2 ⟨⟨b, ha⟩, ih hl⟩

/-- Whatever the list gives, one of its elements gives. -/
theorem List.exists_mem_of_mapM_eq_ok {ε α β : Type} {f : α → Except ε β} {l : List α}
    {l' : List β} (h : l.mapM f = .ok l') : ∀ b ∈ l', ∃ a ∈ l, f a = .ok b := by
  induction l generalizing l' with
  | nil =>
      cases h
      simp
  | cons a l ih =>
      obtain ⟨b, bs, ha, hl, rfl⟩ := List.mapM_cons_eq_ok.1 h
      intro b' hb'
      rcases List.mem_cons.1 hb' with rfl | hmem
      · exact ⟨a, List.mem_cons_self, ha⟩
      · obtain ⟨a', ha', heq⟩ := ih hl b' hmem
        exact ⟨a', List.mem_cons_of_mem a ha', heq⟩

theorem List.length_of_mapM_eq_ok {ε α β : Type} {f : α → Except ε β} {l : List α}
    {l' : List β} (h : l.mapM f = .ok l') : l'.length = l.length := by
  induction l generalizing l' with
  | nil =>
      cases h
      rfl
  | cons a l ih =>
      obtain ⟨b, bs, -, hl, rfl⟩ := List.mapM_cons_eq_ok.1 h
      rw [List.length_cons, List.length_cons, ih hl]

/-- Where all that an element can give is known, so is what the list gives. -/
theorem List.eq_map_of_mapM_eq_ok {ε α β : Type} {f : α → Except ε β} {g : α → β}
    {l : List α} {l' : List β} (hf : ∀ a b, f a = .ok b → b = g a)
    (h : l.mapM f = .ok l') : l' = l.map g := by
  induction l generalizing l' with
  | nil =>
      cases h
      rfl
  | cons a l ih =>
      obtain ⟨b, bs', ha, hl, rfl⟩ := List.mapM_cons_eq_ok.1 h
      rw [List.map_cons, hf a b ha, ih hl]

/-- A list passes a check and is mapped if every element passes. -/
theorem List.mapM_check_eq_ok_iff {ε α β : Type} {c : α → Bool} {g : α → β} {e : α → ε}
    {l : List α} {l' : List β} :
    l.mapM (fun a => if c a then Except.ok (g a) else .error (e a)) = .ok l' ↔
      (∀ a ∈ l, c a) ∧ l' = l.map g := by
  constructor
  · intro h
    have hc : ∀ a ∈ l, c a := by
      intro a ha
      obtain ⟨b, hb⟩ := List.exists_of_mapM_eq_ok h a ha
      cases hca : c a with
      | true => rfl
      | false => simp [hca] at hb
    rw [List.mapM_eq_ok (g := g) fun a ha => if_pos (hc a ha)] at h
    cases h
    exact ⟨hc, rfl⟩
  · rintro ⟨hc, rfl⟩
    exact List.mapM_eq_ok fun a ha => if_pos (hc a ha)

/-! ### Switches -/

namespace SwitchTable

@[simp]
theorem targets_map (f : τ → σ) (cases : SwitchTable τ) :
    (cases.map f).targets = cases.targets.map f := by
  cases cases with
  | table low high targets => rfl
  | lookup pairs => simp [map, targets]

theorem map_map (f : τ → σ) (g : σ → ρ) (cases : SwitchTable τ) :
    (cases.map f).map g = cases.map (g ∘ f) := by
  cases cases <;> simp [map]

theorem map_congr {f g : τ → σ} {cases : SwitchTable τ}
    (h : ∀ t ∈ cases.targets, f t = g t) : cases.map f = cases.map g := by
  cases cases with
  | table low high targets => simpa [map, SwitchTable.targets] using h
  | lookup pairs =>
      simp only [SwitchTable.targets, List.mem_map, forall_exists_index, and_imp] at h
      simp only [map, lookup.injEq, List.map_inj_left]
      intro p hp
      rw [h p.2 p hp rfl]

theorem map_id (cases : SwitchTable τ) : cases.map id = cases := by
  cases cases <;> simp [map]

theorem mapM_eq_ok {ε : Type} {f : τ → Except ε σ} {g : τ → σ} {cases : SwitchTable τ}
    (h : ∀ t ∈ cases.targets, f t = .ok (g t)) : cases.mapM f = .ok (cases.map g) := by
  cases cases with
  | table low high targets =>
      have ht : targets.mapM f = .ok (targets.map g) := List.mapM_eq_ok h
      simp only [mapM, ht]
      rfl
  | lookup pairs =>
      have hp : ∀ p ∈ pairs, (do return (p.1, ← f p.2) : Except ε (Int32 × σ)) =
          .ok (p.1, g p.2) := by
        intro p hp
        rw [h p.2 (List.mem_map.2 ⟨p, hp, rfl⟩)]
        rfl
      simp only [mapM]
      rw [List.mapM_eq_ok (g := fun p => (p.1, g p.2)) hp]
      rfl

/-- Where the switch succeeds, so does every target. -/
theorem exists_of_mapM_eq_ok {ε : Type} {f : τ → Except ε σ} {cases : SwitchTable τ}
    {cases' : SwitchTable σ} (h : cases.mapM f = .ok cases') :
    ∀ t ∈ cases.targets, ∃ u, f t = .ok u := by
  cases cases with
  | table low high targets =>
      obtain ⟨us, hus, -⟩ := Except.bind_eq_ok.1 h
      exact List.exists_of_mapM_eq_ok hus
  | lookup pairs =>
      obtain ⟨us, hus, -⟩ := Except.bind_eq_ok.1 h
      intro t ht
      obtain ⟨p, hp, rfl⟩ := List.mem_map.1 ht
      obtain ⟨q, hq⟩ := List.exists_of_mapM_eq_ok hus p hp
      obtain ⟨u, hu, -⟩ := Except.bind_eq_ok.1 hq
      exact ⟨u, hu⟩

end SwitchTable

/-! ### Instructions -/

namespace Instruction

@[simp]
theorem targets_mapTargets (f : τ → σ) (insn : Instruction τ) :
    (insn.mapTargets f).targets = insn.targets.map f := by
  cases insn <;> simp [mapTargets, targets]

theorem mapTargets_mapTargets (f : τ → σ) (g : σ → ρ) (insn : Instruction τ) :
    (insn.mapTargets f).mapTargets g = insn.mapTargets (g ∘ f) := by
  cases insn <;> simp [mapTargets, SwitchTable.map_map]

theorem mapTargets_congr {f g : τ → σ} {insn : Instruction τ}
    (h : ∀ t ∈ insn.targets, f t = g t) : insn.mapTargets f = insn.mapTargets g := by
  cases insn with
  | branch condition target => simpa [mapTargets, targets] using h
  | jump target => simpa [mapTargets, targets] using h
  | switch fallback cases =>
      simp only [targets, List.mem_cons, forall_eq_or_imp] at h
      simp [mapTargets, h.1, SwitchTable.map_congr h.2]
  | _ => rfl

@[simp]
theorem mapTargets_id (insn : Instruction τ) : insn.mapTargets id = insn := by
  cases insn <;> simp [mapTargets, SwitchTable.map_id]

theorem mapTargets_eq_self {f : τ → τ} {insn : Instruction τ}
    (h : ∀ t ∈ insn.targets, f t = t) : insn.mapTargets f = insn := by
  rw [mapTargets_congr (g := id) h, mapTargets_id]

/-- An instruction without targets is not changed. -/
theorem mapTargets_of_targets_eq_nil {f : τ → τ} {insn : Instruction τ}
    (h : insn.targets = []) : insn.mapTargets f = insn :=
  mapTargets_eq_self (by simp [h])

theorem eq_of_mapTargets_eq {f : τ → τ} {insn insn' : Instruction τ}
    (h : insn.mapTargets f = insn') (ht : insn'.targets = []) : insn = insn' := by
  rw [← h, targets_mapTargets, List.map_eq_nil_iff] at ht
  rw [← h, mapTargets_of_targets_eq_nil ht]

/-- An instruction that is a branch after a renaming was one before. This and its
neighbours let a proof by cases on the renamed instruction go back to the
original. -/
theorem exists_of_mapTargets_eq_branch {f : τ → σ} {insn : Instruction τ} {condition : Condition}
    {target : σ} (h : insn.mapTargets f = .branch condition target) :
    ∃ t, insn = .branch condition t ∧ target = f t := by
  cases insn with
  | branch condition t =>
      cases h
      exact ⟨t, rfl, rfl⟩
  | _ => cases h

theorem exists_of_mapTargets_eq_jump {f : τ → σ} {insn : Instruction τ} {target : σ}
    (h : insn.mapTargets f = .jump target) : ∃ t, insn = .jump t ∧ target = f t := by
  cases insn with
  | jump t =>
      cases h
      exact ⟨t, rfl, rfl⟩
  | _ => cases h

theorem exists_of_mapTargets_eq_switch {f : τ → σ} {insn : Instruction τ} {fallback : σ}
    {table : SwitchTable σ} (h : insn.mapTargets f = .switch fallback table) :
    ∃ t cases, insn = .switch t cases := by
  cases insn with
  | switch t cases => exact ⟨t, cases, rfl⟩
  | _ => cases h

/-- A renaming that may fail is a plain one where it succeeds on every target. -/
theorem mapTargetsM_eq_ok {ε : Type} {f : τ → Except ε σ} {g : τ → σ} {insn : Instruction τ}
    (h : ∀ t ∈ insn.targets, f t = .ok (g t)) :
    insn.mapTargetsM f = .ok (insn.mapTargets g) := by
  cases insn with
  | branch condition target =>
      simp only [targets, List.mem_singleton, forall_eq] at h
      simp only [mapTargetsM, h]
      rfl
  | jump target =>
      simp only [targets, List.mem_singleton, forall_eq] at h
      simp only [mapTargetsM, h]
      rfl
  | switch fallback cases =>
      simp only [targets, List.mem_cons, forall_eq_or_imp] at h
      simp only [mapTargetsM, h.1, SwitchTable.mapM_eq_ok h.2]
      rfl
  | _ => rfl

/-- Where the instruction succeeds, so does every target. -/
theorem exists_of_mapTargetsM_eq_ok {ε : Type} {f : τ → Except ε σ} {insn : Instruction τ}
    {insn' : Instruction σ} (h : insn.mapTargetsM f = .ok insn') :
    ∀ t ∈ insn.targets, ∃ u, f t = .ok u := by
  cases insn with
  | branch condition target =>
      obtain ⟨u, hu, -⟩ := Except.bind_eq_ok.1 h
      simpa [targets] using ⟨u, hu⟩
  | jump target =>
      obtain ⟨u, hu, -⟩ := Except.bind_eq_ok.1 h
      simpa [targets] using ⟨u, hu⟩
  | switch fallback cases =>
      obtain ⟨u, hu, h⟩ := Except.bind_eq_ok.1 h
      obtain ⟨cases', hcases, -⟩ := Except.bind_eq_ok.1 h
      exact List.forall_mem_cons.2 ⟨⟨u, hu⟩, SwitchTable.exists_of_mapM_eq_ok hcases⟩
  | _ => simp [targets]

/-- Replacing targets by a computation is replacing them by what it returns. -/
theorem eq_mapTargets_of_mapTargetsM_eq_ok {ε : Type} [Inhabited σ] {f : τ → Except ε σ}
    {insn : Instruction τ} {insn' : Instruction σ} (h : insn.mapTargetsM f = .ok insn') :
    ∃ g, insn' = insn.mapTargets g ∧ ∀ t ∈ insn.targets, f t = .ok (g t) := by
  have hg : ∀ t ∈ insn.targets, f t = .ok ((f t).toOption.getD default) := by
    intro t ht
    obtain ⟨u, hu⟩ := exists_of_mapTargetsM_eq_ok h t ht
    rw [hu]
    rfl
  rw [mapTargetsM_eq_ok hg] at h
  cases h
  exact ⟨_, rfl, hg⟩

/-! ### Views that do not depend on targets -/

@[simp]
theorem fallsThrough_mapTargets (f : τ → σ) (insn : Instruction τ) :
    (insn.mapTargets f).fallsThrough = insn.fallsThrough := by
  cases insn <;> rfl

@[simp]
theorem pushedSlots?_mapTargets (f : τ → σ) (insn : Instruction τ) :
    (insn.mapTargets f).pushedSlots? = insn.pushedSlots? := by
  cases insn <;> rfl

@[simp]
theorem isPurePush_mapTargets (f : τ → σ) (insn : Instruction τ) :
    (insn.mapTargets f).isPurePush = insn.isPurePush := by
  simp [isPurePush]

@[simp]
theorem writtenSlots_mapTargets (f : τ → σ) (insn : Instruction τ) :
    (insn.mapTargets f).writtenSlots = insn.writtenSlots := by
  cases insn <;> rfl

@[simp]
theorem readSlots_mapTargets (f : τ → σ) (insn : Instruction τ) :
    (insn.mapTargets f).readSlots = insn.readSlots := by
  cases insn <;> rfl

/-- A transfer of control writes no variable. -/
theorem writtenSlots_of_targets_ne_nil {insn : Instruction τ} (h : insn.targets ≠ []) :
    insn.writtenSlots = [] := by
  cases insn <;> simp_all [targets, writtenSlots]

/-- An instruction that only pushes names no targets. -/
theorem targets_of_isPurePush {insn : Instruction τ} (h : insn.isPurePush) :
    insn.targets = [] := by
  cases insn <;> simp_all [isPurePush, pushedSlots?, targets]

end Instruction

end JvmOptimizer
