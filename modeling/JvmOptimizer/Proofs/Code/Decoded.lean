import JvmOptimizer.Proofs.Code.RoundTrip

/-!
# What decoding returns

A decoded body is well-formed: its instructions have the forms that they were
read from, its targets are positions of its instructions, and its handlers
protect something.

Only loads through the pool look into it. So decoding with a pool is decoding
without one, followed by looking up the loads (`decode_eq_lookUp`), and a body
whose loads name slots in use is the same in every later pool.
-/

namespace JvmOptimizer.Code

open Reader

variable {π : Type} [Pool π] {pool : π} {τ σ : Type}

/-! ### Forms of instructions -/

namespace Form

/-- The instruction of the form exists. -/
def Regular : Form → Prop
  | .arith op kind => op ∈ numericOps ∨ op ∈ integerOps ∧ (kind = .int ∨ kind = .long)
  | .convert source target => (source, target) ∈ conversions
  | _ => True

theorem Regular.ite {c : Prop} [Decidable c] {f g : Form} (hf : f.Regular) (hg : g.Regular) :
    (if c then f else g).Regular := by
  split
  · exact hf
  · exact hg

theorem regular_numeric (n : Nat) : (arithAt numericOps 4 n).Regular := by
  unfold arithAt
  split
  · rename_i op kind hop hkind
    exact .inl (List.mem_of_getElem? hop)
  · trivial

theorem regular_integer (n : Nat) : (arithAt integerOps 2 n).Regular := by
  unfold arithAt
  split
  · rename_i op kind hop hkind
    refine .inr ⟨List.mem_of_getElem? hop, ?_⟩
    rcases Nat.mod_two_eq_zero_or_one n with h | h
    · rw [h] at hkind
      cases hkind
      exact .inl rfl
    · rw [h] at hkind
      cases hkind
      exact .inr rfl
  · trivial

/-- The tables that opcodes are looked up in hold only operations and conversions
that exist, so no opcode stands for an odd one. -/
theorem regular_ofOpcode (opcode : Opcode) : (ofOpcode opcode).Regular := by
  unfold ofOpcode
  split
  · trivial
  · trivial
  · -- The table is a cascade of ranges, most of which have one form each.
    refine .ite trivial <| .ite trivial <| .ite trivial <| .ite trivial <| .ite trivial <|
      .ite trivial <| .ite trivial <| .ite (regular_numeric _) <| .ite (regular_integer _) <|
      .ite trivial <| .ite ?conversion <| .ite ?comparison <| .ite trivial <| .ite trivial <|
      .ite trivial <| .ite trivial <| .ite trivial ?verbatim
    case conversion =>
      split
      · rename_i hconvert
        exact List.mem_of_getElem? hconvert
      · trivial
    case comparison => split <;> trivial
    case verbatim =>
      unfold verbatimOrUnsupported
      refine .ite trivial ?_
      split <;> trivial

end Form

/-- Targets do not matter for the form. -/
theorem hasForm_mapTargets {f : τ → σ} {insn : Instruction τ} :
    HasForm pool (insn.mapTargets f) ↔ HasForm pool insn := by
  cases insn with
  | switch fallback cases => cases cases <;> simp [Instruction.mapTargets, SwitchTable.map, HasForm]
  | _ => rfl

theorem hasKeys_mapTargets {f : τ → σ} {insn : Instruction τ} :
    HasKeys (insn.mapTargets f) ↔ HasKeys insn := by
  cases insn with
  | switch fallback cases => cases cases <;> rfl
  | _ => rfl

/-! ### Reading one instruction -/

/-- An instruction with a form, and with a key if it has a table. -/
def Sane (pool : π) (insn : Instruction τ) : Prop := HasForm pool insn ∧ HasKeys insn

/-- A load is left as it is only where the pool has no number of its width, which
is what a verbatim load has to satisfy. -/
theorem sane_poolLoad {opcode : Opcode} {bytes : Bytes}
    (hform : Form.ofOpcode opcode = .poolConstant)
    (hlength : bytes.length = if opcode = Opcode.ldc then 1 else 2) :
    Sane pool (poolLoad pool opcode bytes) := by
  by_cases h : ∃ value, Pool.resolve? pool (UInt16.ofNat (ofBigEndian bytes)) = some value ∧
      (value.slots = 2 ↔ opcode = Opcode.ldc2W)
  · obtain ⟨value, hvalue, hwidth⟩ := h
    rw [poolLoad_eq_const hvalue hwidth]
    exact ⟨trivial, trivial⟩
  · have hnone : ∀ value, Pool.resolve? pool (UInt16.ofNat (ofBigEndian bytes)) = some value →
        ¬ (value.slots = 2 ↔ opcode = Opcode.ldc2W) :=
      fun value hvalue hwidth => h ⟨value, hvalue, hwidth⟩
    rw [poolLoad_eq_verbatim hnone]
    exact ⟨.inr ⟨hform, hlength, hnone⟩, trivial⟩

/-- A table that is read has a key at least: one whose bounds are the wrong way
round is refused. -/
theorem yields_tableCases (pc : Nat) : Yields (tableCases pc) fun cases =>
    ∃ low high targets, cases = .table low high targets ∧ low ≤ high ∧
      (targets.length : Int) = high.toInt - low.toInt + 1 := by
  refine Yields.bind_any fun low => Yields.bind_any fun high => Yields.guard fun hlt => ?_
  have hle : low ≤ high := Int32.not_lt.1 hlt
  refine ((Yields.any _).many _).bind fun targets htargets => Yields.pure ?_
  have := Int32.le_iff_toInt_le.1 hle
  exact ⟨low, high, targets, rfl, hle, by omega⟩

theorem yields_lookupCases (pc : Nat) :
    Yields (lookupCases pc) fun cases => ∃ pairs, cases = .lookup pairs := by
  refine Yields.bind_any fun count => Yields.guard fun _ => ?_
  exact Yields.bind_any fun pairs => Yields.pure ⟨pairs, rfl⟩

theorem yields_wideOperands (pc : Nat) : Yields (wideOperands pc) (Sane pool) := by
  refine Yields.bind_any fun opcode => ?_
  split
  · exact Yields.bind_any fun index => Yields.pure ⟨trivial, trivial⟩
  · exact Yields.bind_any fun index => Yields.pure ⟨trivial, trivial⟩
  · exact Yields.bind_any fun index => Yields.bind_any fun delta => Yields.pure ⟨trivial, trivial⟩
  · exact Yields.throw

/-- Whatever the form, the instruction that is read could have been written. -/
theorem yields_operands {pc : Nat} {opcode : Opcode} {form : Form}
    (hform : Form.ofOpcode opcode = form) :
    Yields (operands pool pc opcode form) (Sane pool) := by
  have hregular := Form.regular_ofOpcode opcode
  rw [hform] at hregular
  -- Only arithmetic, conversions, loads from the pool, verbatim instructions and tables
  -- could go wrong; each of these has its reason in how it was read.
  cases form with
  | constant value => exact Yields.pure ⟨trivial, trivial⟩
  | loadAt kind index => exact Yields.pure ⟨trivial, trivial⟩
  | storeAt kind index => exact Yields.pure ⟨trivial, trivial⟩
  | compare comparison => exact Yields.pure ⟨trivial, trivial⟩
  | arith op kind => exact Yields.pure ⟨hregular, trivial⟩
  | convert source target => exact Yields.pure ⟨hregular, trivial⟩
  | increment =>
      exact Yields.bind_any fun _ => Yields.bind_any fun _ => Yields.pure ⟨trivial, trivial⟩
  | poolConstant =>
      exact (Yields.take _).bind fun bytes hlength => Yields.pure (sane_poolLoad hform hlength)
  | verbatim length =>
      refine (Yields.take _).bind fun bytes hlength => Yields.pure ⟨.inl ?_, trivial⟩
      rw [hform, hlength]
  | tableSwitch =>
      refine Yields.bind_any fun _ => Yields.bind_any fun _ => ?_
      refine (yields_tableCases pc).bind fun cases hcases => Yields.pure ?_
      obtain ⟨low, high, targets, rfl, hle, hcount⟩ := hcases
      exact ⟨hcount, hle⟩
  | lookupSwitch =>
      refine Yields.bind_any fun _ => Yields.bind_any fun _ => ?_
      refine (yields_lookupCases pc).bind fun cases hcases => Yields.pure ?_
      obtain ⟨pairs, rfl⟩ := hcases
      exact ⟨trivial, trivial⟩
  | wide => exact yields_wideOperands pc
  | unsupported => exact Yields.throw
  | _ => exact Yields.bind_any fun _ => Yields.pure ⟨trivial, trivial⟩

/-- Whatever is read as an instruction has a form. -/
theorem yields_instruction : Yields (instruction pool) (Sane pool) :=
  Yields.bind_any fun _ => Yields.bind_any fun _ => yields_operands rfl

/-! ### Reading a body -/

variable {code : Bytes} {exceptions : List ExceptionEntry} {m : Method}

/-- What holds of every instruction that is read holds of all that are found. -/
theorem forall_instructionsAfter {P : Instruction Int → Prop} (hP : Yields (instruction pool) P)
    {fuel : Nat} {before found : List (Nat × Instruction Int)} {cursor : Cursor}
    (hbefore : ∀ x ∈ before, P x.2)
    (h : instructionsAfter pool fuel before cursor = .ok found) : ∀ x ∈ found, P x.2 := by
  induction fuel generalizing before cursor with
  | zero =>
      cases h
      simpa using hbefore
  | succ fuel ih =>
      simp only [instructionsAfter] at h
      split at h
      · cases h
        simpa using hbefore
      · split at h
        · cases h
        · rename_i insn next hread
          have hinsn : P insn := hP _ _ _ hread
          exact ih (List.forall_mem_cons.2 ⟨hinsn, hbefore⟩) h

/-- Decoding in three steps: the instructions with offsets for targets, the
positions of these targets, and the handlers. -/
theorem decode_eq_ok (h : decode pool code exceptions = .ok m) :
    ∃ found, instructions pool code = .ok found ∧
      (found.mapM fun (pc, insn) => insn.mapTargetsM (position (found.map Prod.fst) pc)) =
        .ok m.code ∧
      (exceptions.zipIdx.mapM fun (e, i) => handler (found.map Prod.fst) code.length i e) =
        .ok m.handlers := by
  obtain ⟨found, hfound, h⟩ := Except.bind_eq_ok.1 h
  obtain ⟨body, hbody, h⟩ := Except.bind_eq_ok.1 h
  obtain ⟨handlers, hhandlers, h⟩ := Except.bind_eq_ok.1 h
  cases h
  exact ⟨found, hfound, hbody, hhandlers⟩

theorem code_eq_nil_of_decode (h : decode pool [] exceptions = .ok m) : m.code = [] := by
  obtain ⟨found, hfound, hbody, -⟩ := decode_eq_ok h
  cases hfound
  cases hm : m.code with
  | nil => rfl
  | cons insn rest =>
      rw [hm] at hbody
      cases hbody

/-- A target is the start of an instruction, never the end of the code. -/
theorem lt_length_of_position {offsets : List Nat} {pc t : Nat} {target : Int}
    (h : position offsets pc target = .ok t) : t < offsets.length := by
  unfold position at h
  split at h
  · split at h
    · rename_i hidx
      cases h
      exact (List.idxOf?_eq_some_iff.1 hidx).1
    · cases h
  · cases h

/-- A handler may end behind the last instruction, but it protects one at least
and its entry is one. -/
theorem handler_eq_ok {offsets : List Nat} {length index : Nat} {e : ExceptionEntry}
    {hd : Handler} (h : handler offsets length index e = .ok hd) :
    hd.start < hd.stop ∧ hd.stop ≤ offsets.length ∧ hd.entry < offsets.length := by
  unfold handler at h
  dsimp only at h
  split at h
  · rename_i start stop entry _ hstop hentry
    split at h
    · rename_i hlt
      cases h
      refine ⟨hlt, ?_, (List.idxOf?_eq_some_iff.1 hentry).1⟩
      split at hstop
      · cases hstop
        exact Nat.le_refl _
      · exact Nat.le_of_lt (List.idxOf?_eq_some_iff.1 hstop).1
    · cases h
  · cases h

/-- Every instruction of a body was read, up to its targets, which are positions
in the body. -/
theorem exists_read_of_decode {P : Instruction Int → Prop} (hP : Yields (instruction pool) P)
    (h : decode pool code exceptions = .ok m) {insn : Instruction Nat} (hmem : insn ∈ m.code) :
    ∃ x place, P x ∧ insn = x.mapTargets place ∧ ∀ t ∈ x.targets, place t < m.code.length := by
  obtain ⟨found, hfound, hbody, -⟩ := decode_eq_ok h
  obtain ⟨⟨pc, x⟩, hx, heq⟩ := List.exists_mem_of_mapM_eq_ok hbody insn hmem
  obtain ⟨place, hplace, htargets⟩ := Instruction.eq_mapTargets_of_mapTargetsM_eq_ok heq
  refine ⟨x, place, forall_instructionsAfter hP (by simp) hfound _ hx, hplace, fun t ht => ?_⟩
  rw [List.length_of_mapM_eq_ok hbody, ← List.length_map (f := Prod.fst)]
  exact lt_length_of_position (htargets t ht)

/-- **A decoded body is well-formed**, and none of its tables is empty. -/
theorem wellFormed_decode (h : decode pool code exceptions = .ok m) :
    WellFormed pool m ∧ ∀ insn ∈ m.code, HasKeys insn := by
  refine ⟨⟨fun insn hmem t ht => ?_, fun insn hmem => ?_, fun hd hmem => ?_⟩, fun insn hmem => ?_⟩
  · obtain ⟨x, place, -, rfl, htargets⟩ := exists_read_of_decode (Yields.any _) h hmem
    rw [Instruction.targets_mapTargets] at ht
    obtain ⟨u, hu, rfl⟩ := List.mem_map.1 ht
    exact htargets u hu
  · obtain ⟨x, place, hx, rfl, -⟩ := exists_read_of_decode yields_instruction h hmem
    exact hasForm_mapTargets.2 hx.1
  · obtain ⟨found, -, hbody, hhandlers⟩ := decode_eq_ok h
    obtain ⟨⟨e, i⟩, -, heq⟩ := List.exists_mem_of_mapM_eq_ok hhandlers hd hmem
    rw [List.length_of_mapM_eq_ok hbody, ← List.length_map (f := Prod.fst)]
    exact handler_eq_ok heq
  · obtain ⟨x, place, hx, rfl, -⟩ := exists_read_of_decode yields_instruction h hmem
    exact hasKeys_mapTargets.2 hx.2

/-! ### Looking up loads -/

/-- The number that a load through the pool pushes. -/
def loaded? (pool : π) (opcode : Opcode) (operands : Bytes) : Option Value :=
  if Form.ofOpcode opcode = .poolConstant then
    (Pool.resolve? pool (UInt16.ofNat (ofBigEndian operands))).filter fun v =>
      (v.slots == 2) == (opcode == Opcode.ldc2W)
  else
    none

/-- The instruction with a load through the pool looked up. -/
def lookUp (pool : π) : Instruction τ → Instruction τ
  | .verbatim opcode operands =>
      match loaded? pool opcode operands with
      | some v => .const v
      | none => .verbatim opcode operands
  | insn => insn

theorem poolLoad_eq_lookUp {opcode : Opcode} {bytes : Bytes}
    (hform : Form.ofOpcode opcode = .poolConstant) :
    poolLoad pool opcode bytes = lookUp pool (.verbatim opcode bytes) := by
  simp only [poolLoad, lookUp, loaded?, if_pos hform]
  cases Pool.resolve? pool (UInt16.ofNat (ofBigEndian bytes)) with
  | none => rfl
  | some v =>
      simp only [Option.filter]
      split <;> rfl

theorem lookUp_verbatim {opcode : Opcode} {bytes : Bytes}
    (hform : Form.ofOpcode opcode ≠ .poolConstant) :
    lookUp pool (.verbatim opcode bytes : Instruction τ) = .verbatim opcode bytes := by
  simp [lookUp, loaded?, hform]

/-- In an empty pool no load is looked into. Decoding with it gives the body as it
is written. -/
theorem resolve?_empty (index : UInt16) : Pool.resolve? ({} : LiteralPool) index = none := by
  simp [Pool.resolve?, LiteralPool.entry?]

/-- The pool matters only for loads, so an instruction can be read without it and
be looked up afterwards. -/
theorem operands_eq_lookUp {pc : Nat} {opcode : Opcode} {form : Form}
    (hform : Form.ofOpcode opcode = form) :
    operands pool pc opcode form =
      lookUp pool <$> operands ({} : LiteralPool) pc opcode form := by
  cases form with
  | poolConstant =>
      have hnone : ∀ bytes, poolLoad ({} : LiteralPool) opcode bytes = .verbatim opcode bytes := by
        intro bytes
        refine poolLoad_eq_verbatim fun value hvalue => ?_
        rw [resolve?_empty] at hvalue
        cases hvalue
      simp only [operands, hnone, poolLoad_eq_lookUp hform, map_bind, map_pure]
  | verbatim length =>
      have hne : Form.ofOpcode opcode ≠ .poolConstant := by simp [hform]
      simp only [operands, map_bind, map_pure, lookUp_verbatim hne]
  -- Behind the prefix come accesses and increments only.
  | wide =>
      simp only [operands, wideOperands, map_bind]
      congr 1
      funext op
      split
      · simp only [map_bind, map_pure, lookUp]
      · simp only [map_bind, map_pure, lookUp]
      · simp only [map_bind, map_pure, lookUp]
      · rfl
  | unsupported => rfl
  | _ => simp only [operands, switchOperands, map_bind, map_pure, lookUp]

theorem instruction_eq_lookUp :
    instruction pool = lookUp pool <$> instruction ({} : LiteralPool) := by
  simp only [instruction, map_bind]
  congr 1
  funext pc
  congr 1
  funext opcode
  exact operands_eq_lookUp rfl

/-- Each instruction found, with its loads looked up. -/
def lookUpAll (pool : π) (found : List (Nat × Instruction Int)) : List (Nat × Instruction Int) :=
  found.map fun x => (x.1, lookUp pool x.2)

/-- The instructions found so far are looked up as well, so that the two loops go
in step. -/
theorem instructionsAfter_eq_lookUp (fuel : Nat) (before : List (Nat × Instruction Int))
    (cursor : Cursor) : instructionsAfter pool fuel (lookUpAll pool before) cursor =
      (instructionsAfter ({} : LiteralPool) fuel before cursor).map (lookUpAll pool) := by
  induction fuel generalizing before cursor with
  | zero => simp [instructionsAfter, lookUpAll, Except.map]
  | succ fuel ih =>
      simp only [instructionsAfter]
      by_cases hempty : cursor.rest.isEmpty
      · simp [hempty, lookUpAll, Except.map]
      · rw [if_neg hempty, if_neg hempty, instruction_eq_lookUp, map_apply]
        cases instruction ({} : LiteralPool) cursor with
        | error e => rfl
        | ok r => exact ih ((cursor.offset, r.1) :: before) r.2

theorem instructions_eq_lookUp (code : Bytes) : instructions pool code =
    (instructions ({} : LiteralPool) code).map (lookUpAll pool) :=
  instructionsAfter_eq_lookUp code.length [] (Cursor.start code)

/-- Neither a load nor the number it turns into has targets. -/
theorem mapTargetsM_lookUp {ε : Type} (f : τ → Except ε σ) (insn : Instruction τ) :
    (lookUp pool insn).mapTargetsM f = (insn.mapTargetsM f).map (lookUp pool) := by
  cases insn with
  | verbatim opcode bytes =>
      change (lookUp pool (.verbatim opcode bytes)).mapTargetsM f =
        Except.ok (lookUp pool (.verbatim opcode bytes))
      simp only [lookUp]
      cases loaded? pool opcode bytes <;> rfl
  | branch condition target =>
      change f target >>= _ = (f target >>= _).map _
      cases f target <;> rfl
  | jump target =>
      change f target >>= _ = (f target >>= _).map _
      cases f target <;> rfl
  | switch fallback cases =>
      change (f fallback >>= fun u => cases.mapM f >>= _) =
        (f fallback >>= fun u => cases.mapM f >>= _).map _
      cases f fallback with
      | error e => rfl
      | ok u => cases cases.mapM f <;> rfl
  | _ => rfl

theorem mapM_lookUpAll {ε : Type} (f : Nat → Int → Except ε Nat)
    (found : List (Nat × Instruction Int)) :
    ((lookUpAll pool found).mapM fun (pc, insn) => insn.mapTargetsM (f pc)) =
      (found.mapM fun ((pc, insn) : Nat × Instruction Int) => insn.mapTargetsM (f pc)).map
        (List.map (lookUp pool)) := by
  induction found with
  | nil => rfl
  | cons x found ih =>
      have hcons : lookUpAll pool (x :: found) =
          (x.1, lookUp pool x.2) :: lookUpAll pool found := rfl
      rw [hcons, List.mapM_cons, List.mapM_cons, ih]
      simp only [mapTargetsM_lookUp]
      cases x.2.mapTargetsM (f x.1) with
      | error e => rfl
      | ok insn =>
          cases found.mapM fun ((pc, insn) : Nat × Instruction Int) =>
            insn.mapTargetsM (f pc) <;> rfl

/-- **Decoding is decoding without a pool and looking up the loads.** -/
theorem decode_eq_lookUp (code : Bytes) (exceptions : List ExceptionEntry) :
    decode pool code exceptions = (decode ({} : LiteralPool) code exceptions).map fun m =>
      { m with code := m.code.map (lookUp pool) } := by
  rw [decode, instructions_eq_lookUp]
  unfold decode
  cases instructions ({} : LiteralPool) code with
  | error e => rfl
  | ok found =>
      have hoffsets : (lookUpAll pool found).map Prod.fst = found.map Prod.fst := by
        simp [lookUpAll]
      simp only [Except.map, hoffsets, mapM_lookUpAll, bind, Except.bind]
      cases found.mapM fun ((pc, insn) : Nat × Instruction Int) =>
          insn.mapTargetsM (position (found.map Prod.fst) pc) with
      | error e => rfl
      | ok body =>
          cases exceptions.zipIdx.mapM fun ((e, i) : ExceptionEntry × Nat) =>
            handler (found.map Prod.fst) code.length i e <;> rfl

/-! ### Later pools -/

section Later

variable [LawfulPool π]

/-- The pool index that a load carries. A load that is resolved is a constant
and carries none. -/
def loadIndex? : Instruction τ → Option UInt16
  | .verbatim opcode operands =>
      if Form.ofOpcode opcode = .poolConstant then
        some (UInt16.ofNat (ofBigEndian operands))
      else
        none
  | _ => none

theorem loadIndex?_verbatim {opcode : Opcode} (hform : Form.ofOpcode opcode = .poolConstant)
    (bytes : Bytes) : loadIndex? (.verbatim opcode bytes : Instruction τ) =
      some (UInt16.ofNat (ofBigEndian bytes)) :=
  if_pos hform

omit [Pool π] [LawfulPool π] in
theorem loadIndex?_mapTargets (f : τ → σ) (insn : Instruction τ) :
    loadIndex? (insn.mapTargets f) = loadIndex? insn := by
  cases insn <;> rfl

/-- All loads name slots in use. -/
def LoadsInUse (pool : π) (m : Method) : Prop :=
  ∀ insn ∈ m.code, (loadIndex? insn).all (·.toNat ≤ Pool.size pool)

instance (pool : π) (m : Method) : Decidable (LoadsInUse pool m) :=
  inferInstanceAs (Decidable (∀ insn ∈ m.code, _))

/-- An index in use is at most the number of slots. -/
theorem LoadsInUse.le_size {insn : Instruction Nat} {index : UInt16} (h : LoadsInUse pool m)
    (hmem : insn ∈ m.code) (hindex : loadIndex? insn = some index) :
    index.toNat ≤ Pool.size pool := by
  simpa [hindex] using h insn hmem

theorem LoadsInUse.mono {q : π} (h : LoadsInUse pool m) (hq : Pool.size pool ≤ Pool.size q) :
    LoadsInUse q m := by
  intro insn hmem
  cases hindex : loadIndex? insn with
  | none => rfl
  | some index => simpa using (h.le_size hmem hindex).trans hq

/-- What is well-formed stays so in a later pool. -/
theorem WellFormed.of_extends {q : π} (h : WellFormed pool m) (hloads : LoadsInUse pool m)
    (hq : Pool.Extends pool q) : WellFormed q m where
  target := h.target
  handler := h.handler
  form := by
    intro insn hmem
    have hform := h.form insn hmem
    cases insn with
    | verbatim opcode bytes =>
        rcases hform with hverbatim | ⟨hload, hlength, hnone⟩
        · exact .inl hverbatim
        · refine .inr ⟨hload, hlength, ?_⟩
          rwa [hq.resolve?_eq (hloads.le_size hmem (loadIndex?_verbatim hload bytes))]
    | switch fallback cases => cases cases <;> exact hform
    | _ => exact hform

/-- A slot in use is looked up alike in a later pool. -/
theorem loaded?_of_extends {q : π} {opcode : Opcode} {bytes : Bytes} (hq : Pool.Extends pool q)
    (h : loaded? pool opcode bytes = none → Form.ofOpcode opcode = .poolConstant →
      (UInt16.ofNat (ofBigEndian bytes)).toNat ≤ Pool.size pool) :
    loaded? q opcode bytes = loaded? pool opcode bytes := by
  by_cases hform : Form.ofOpcode opcode = .poolConstant
  · have hresolve : Pool.resolve? q (UInt16.ofNat (ofBigEndian bytes)) =
        Pool.resolve? pool (UInt16.ofNat (ofBigEndian bytes)) := by
      cases hp : Pool.resolve? pool (UInt16.ofNat (ofBigEndian bytes)) with
      | some v => exact hq.resolve?_eq_some hp
      | none =>
          have hnone : loaded? pool opcode bytes = none := by simp [loaded?, hp]
          rw [hq.resolve?_eq (h hnone hform), hp]
    simp only [loaded?, hresolve]
  · simp only [loaded?, if_neg hform]

/-- A pool with more in it gives the same instruction, unless the load is of an
index that was not in use. -/
theorem lookUp_of_extends {q : π} {insn : Instruction τ} (hq : Pool.Extends pool q)
    (h : ∀ {index}, loadIndex? (lookUp pool insn) = some index →
      index.toNat ≤ Pool.size pool) : lookUp q insn = lookUp pool insn := by
  cases insn with
  | verbatim opcode bytes =>
      have hloaded : loaded? q opcode bytes = loaded? pool opcode bytes := by
        refine loaded?_of_extends hq fun hnone hform => h ?_
        simp only [lookUp, hnone]
        exact loadIndex?_verbatim hform bytes
      simp only [lookUp, hloaded]
  | _ => rfl

/-- **A later pool decodes alike**, if loads that are not resolved name slots in
use. -/
theorem decode_of_extends {q : π} (hq : Pool.Extends pool q)
    (hloads : ∀ {m}, decode pool code exceptions = .ok m → LoadsInUse pool m) :
    decode q code exceptions = decode pool code exceptions := by
  cases hraw : decode ({} : LiteralPool) code exceptions with
  | error e =>
      rw [decode_eq_lookUp, hraw, decode_eq_lookUp, hraw]
      rfl
  | ok raw =>
      have hpool : decode pool code exceptions =
          .ok { raw with code := raw.code.map (lookUp pool) } := by
        rw [decode_eq_lookUp, hraw]
        rfl
      have hsame : raw.code.map (lookUp q) = raw.code.map (lookUp pool) := by
        refine List.map_congr_left fun insn hmem => lookUp_of_extends hq ?_
        exact (hloads hpool).le_size (List.mem_map_of_mem hmem)
      rw [decode_eq_lookUp, hraw, hpool, ← hsame]
      rfl

end Later

end JvmOptimizer.Code
