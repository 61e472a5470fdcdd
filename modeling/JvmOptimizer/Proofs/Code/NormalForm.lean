import JvmOptimizer.Proofs.Code.Decoded

/-!
# The normal form of a code array

A body can be spelled in many ways: variables and jumps with `wide` forms, small
constants through the pool, one of several equal constants, any bytes between a
switch and its operands. Encoding chooses one spelling for each body, so decoding
and encoding again brings every code array to a normal form
(`Code.recode_normalForm`).

No constant has to be added for this. Every number that a decoded body pushes is
written without the pool or was found in it (`Code.stocked_decode`), and a
number that stands in the pool is found again.
-/

namespace JvmOptimizer.Code

open Reader

variable {π : Type} [Pool π] {pool : π}

/-! ### Numbers of a decoded body -/

/-- The number that the form itself pushes. -/
def Form.named? : Form → Option Value
  | .constant value => some value
  | _ => none

/-- A number that an opcode names is written as this opcode. -/
theorem not_needsPool_of_named {opcode : Opcode} {value : Value}
    (h : Form.ofOpcode opcode = .constant value) : needsPool value = false := by
  have htable : ∀ n < 256, (Form.ofOpcode (UInt8.ofNat n)).named?.all
      fun v => !needsPool v := by
    decide +kernel
  have hopcode := htable opcode.toNat opcode.toNat_lt
  rw [UInt8.ofNat_toNat, h] at hopcode
  simpa [Form.named?] using hopcode

/-- So is a number of at most 16 bits, with its bytes behind the opcode. -/
theorem not_needsPool_of_short {v : Int32} (hlow : -32768 ≤ v.toInt)
    (hhigh : v.toInt ≤ 32767) : needsPool (.int v) = false := by
  simp [needsPool, hlow, hhigh]

/-- A number that the instruction pushes is written without the pool or stands in
it. -/
def Drawn {τ : Type} (pool : π) (insn : Instruction τ) : Prop :=
  ∀ value, insn = .const value →
    needsPool value = false ∨ ∃ index, Pool.resolve? pool index = some value

/-- A load that turns into a number has found it at an index of the pool. -/
theorem drawn_poolLoad (opcode : Opcode) (bytes : Bytes) :
    Drawn pool (poolLoad pool opcode bytes) := by
  intro value hvalue
  unfold poolLoad at hvalue
  split at hvalue
  · rename_i found hfound
    split at hvalue
    · cases hvalue
      exact .inr ⟨_, hfound⟩
    · cases hvalue
  · cases hvalue

/-- Where the numbers of an instruction come from, form by form. -/
theorem yields_drawn {pc : Nat} {opcode : Opcode} {form : Form}
    (hform : Form.ofOpcode opcode = form) :
    Yields (operands pool pc opcode form) (Drawn pool) := by
  -- Four forms push a number. The opcode names it, its one or two bytes follow, or the
  -- pool has it.
  cases form with
  | constant value =>
      refine Yields.pure fun v hv => .inl ?_
      cases hv
      exact not_needsPool_of_named hform
  | byteConstant =>
      refine Yields.bind_any fun byte => Yields.pure fun v hv => .inl ?_
      cases hv
      have hlow := byte.le_toInt
      have hhigh := byte.toInt_lt
      refine not_needsPool_of_short ?_ ?_ <;> rw [Int8.toInt_toInt32] <;> omega
  | shortConstant =>
      refine Yields.bind_any fun word => Yields.pure fun v hv => .inl ?_
      cases hv
      have hlow := word.le_toInt
      have hhigh := word.toInt_lt
      refine not_needsPool_of_short ?_ ?_ <;> rw [Int16.toInt_toInt32] <;> omega
  | poolConstant => exact Yields.bind_any fun bytes => Yields.pure (drawn_poolLoad opcode bytes)
  | tableSwitch | lookupSwitch =>
      exact Yields.bind_any fun _ => Yields.bind_any fun _ => Yields.bind_any fun _ =>
        Yields.pure (by simp [Drawn])
  | wide =>
      refine Yields.bind_any fun opcode => ?_
      split
      · exact Yields.bind_any fun _ => Yields.pure (by simp [Drawn])
      · exact Yields.bind_any fun _ => Yields.pure (by simp [Drawn])
      · exact Yields.bind_any fun _ => Yields.bind_any fun _ => Yields.pure (by simp [Drawn])
      · exact Yields.throw
  | increment =>
      exact Yields.bind_any fun _ => Yields.bind_any fun _ => Yields.pure (by simp [Drawn])
  | loadAt | storeAt | arith | convert | compare => exact Yields.pure (by simp [Drawn])
  | unsupported => exact Yields.throw
  | _ => exact Yields.bind_any fun _ => Yields.pure (by simp [Drawn])

/-- Every number of the body that goes through the pool stands in it. -/
def Stocked (pool : π) (m : Method) : Prop :=
  ∀ insn ∈ m.code, ∀ value ∈ pooled? insn, ∃ index, Pool.resolve? pool index = some value

/-- **A decoded body needs no further constants.** -/
theorem stocked_decode {code : Bytes} {exceptions : List ExceptionEntry} {m : Method}
    (h : decode pool code exceptions = .ok m) : Stocked pool m := by
  have hread : Yields (instruction pool) (Drawn pool) :=
    Yields.bind_any fun _ => Yields.bind_any fun _ => yields_drawn rfl
  intro insn hmem value hvalue
  obtain ⟨rfl, hneeds⟩ := pooled?_eq_some hvalue
  obtain ⟨x, place, hx, heq, -⟩ := exists_read_of_decode hread h hmem
  cases x with
  | const v =>
      cases heq
      rcases hx value rfl with hnot | hindex
      · rw [hnot] at hneeds
        cases hneeds
      · exact hindex
  | _ => cases heq

/-! ### Encoding it again -/

section Encode

variable [SearchedPool π] {m : Method}

/-- A number that stands somewhere in the pool is found, though perhaps at an
earlier index. -/
theorem interned_of_resolve? {value : Value} {index : UInt16}
    (h : Pool.resolve? pool index = some value) :
    ∃ first, interned value pool = (.ok first, pool) ∧ Pool.resolve? pool first = some value := by
  obtain ⟨first, -, hintern, hfirst⟩ := SearchedPool.intern_of_resolve? h
  exact ⟨first, by rw [interned_apply, hintern], hfirst⟩

/-- Making a piece takes nothing but what is in the pool. -/
theorem exists_stands {insn : Instruction Nat}
    (hstocked : ∀ value ∈ pooled? insn, ∃ index, Pool.resolve? pool index = some value) :
    ∃ made, piece insn pool = (.ok made, pool) ∧ Stands pool insn made := by
  cases hpooled : pooled? insn with
  | some value =>
      obtain ⟨rfl, -⟩ := pooled?_eq_some hpooled
      obtain ⟨index, hindex⟩ := hstocked value hpooled
      obtain ⟨first, hinterned, hfirst⟩ := interned_of_resolve? hindex
      refine ⟨_, ?_, stands_of_resolve? hfirst⟩
      rw [piece_of_pooled? hpooled, hinterned]
      rfl
  | none =>
      exact ⟨_, piece_of_pooled?_eq_none hpooled pool, stands_of_pooled?_eq_none hpooled⟩

/-- The pool stays the same from piece to piece, so one stock is enough for all.
-/
theorem exists_stands_mapM {code : List (Instruction Nat)}
    (hstocked : ∀ insn ∈ code, ∀ value ∈ pooled? insn,
      ∃ index, Pool.resolve? pool index = some value) :
    ∃ pieces, code.mapM piece pool = (.ok pieces, pool) ∧
      List.Forall₂ (Stands pool) code pieces := by
  induction code with
  | nil => exact ⟨[], rfl, .nil⟩
  | cons insn code ih =>
      rw [List.forall_mem_cons] at hstocked
      obtain ⟨made, hmade, hstands⟩ := exists_stands hstocked.1
      obtain ⟨pieces, hpieces, hothers⟩ := ih hstocked.2
      exact ⟨made :: pieces, Steps.mapM_cons_eq_ok.2 ⟨made, pool, pieces, hmade, hpieces, rfl⟩,
        .cons hstands hothers⟩

/-- A body whose numbers stand in the pool leaves the pool as it is, whether it
has bytes or not. -/
theorem encode_of_stocked (hstocked : Stocked pool m) :
    ∃ pieces, encode m pool = (assemble pieces m.handlers, pool) ∧
      List.Forall₂ (Stands pool) m.code pieces := by
  obtain ⟨pieces, hpieces, hstands⟩ := exists_stands_mapM hstocked
  refine ⟨pieces, ?_, hstands⟩
  unfold encode
  rw [hpieces]

end Encode

/-- The limits of a method are no part of its code. -/
theorem eq_of_decode {code : Bytes} {exceptions : List ExceptionEntry} {m : Method}
    (h : decode pool code exceptions = .ok m) :
    m = { code := m.code, handlers := m.handlers } := by
  obtain ⟨found, -, h⟩ := Except.bind_eq_ok.1 h
  obtain ⟨body, -, h⟩ := Except.bind_eq_ok.1 h
  obtain ⟨handlers, -, h⟩ := Except.bind_eq_ok.1 h
  cases h
  rfl

/-- **Encoding what was decoded gives a normal form.** In a decoded body, targets
are positions, tables list a target for each key, and handlers protect something.
Encoding it leaves the pool as it is, also where it fails. The bytes, if there are
any, are decoded as the same body, and encoding that gives the same bytes. -/
theorem recode_normalForm [SearchedPool π] {code : Bytes} {exceptions : List ExceptionEntry}
    {m : Method} (h : decode pool code exceptions = .ok m) :
    (∀ insn ∈ m.code, ∀ t ∈ insn.targets, t < m.code.length) ∧
    (∀ fallback low high targets, .switch fallback (.table low high targets) ∈ m.code →
      (targets.length : Int) = high.toInt - low.toInt + 1) ∧
    (∀ hd ∈ m.handlers, hd.start < hd.stop ∧ hd.stop ≤ m.code.length ∧
      hd.entry < m.code.length) ∧
    (encode m pool).2 = pool ∧
    ∀ e, (encode m pool).1 = .ok e →
      decode pool e.code e.exceptions = .ok m ∧
      ∀ m', decode pool e.code e.exceptions = .ok m' → encode m' pool = (.ok e, pool) := by
  obtain ⟨hwell, hkeys⟩ := wellFormed_decode h
  obtain ⟨pieces, hencode, hstands⟩ := encode_of_stocked (stocked_decode h)
  refine ⟨hwell.target, fun fallback low high targets hmem => hwell.form _ hmem, hwell.handler,
    by rw [hencode], fun e he => ?_⟩
  have hassemble : assemble pieces m.handlers = .ok e := by rwa [hencode] at he
  obtain ⟨l, hlarge, hcount, hlength, hexceptions, hwritten⟩ :=
    exists_written hwell hkeys hstands hassemble
  have hdecode : decode pool e.code e.exceptions = .ok m := by
    rw [eq_of_decode h, hexceptions]
    exact hwritten.decode hwell hcount hlength hlarge
  refine ⟨hdecode, fun m' hm' => ?_⟩
  obtain rfl : m = m' := Except.ok.inj (hdecode.symm.trans hm')
  rw [hencode, hassemble]

/-- A code array that is longer than it has to be: it loads the second of two
equal constants with a wide index, a small one through the pool, and variable 1
with a wide index; it jumps far to what comes next, and has a byte in front of the
operands of its switch that nobody reads. -/
def roundabout : Bytes :=
  [0x13, 0, 2, 0x12, 3, 0xc4, 0x15, 0, 1, 0xc8, 0, 0, 0, 5,
    0xaa, 0xff, 0xff, 0xff, 0xff, 0xf2, 0, 0, 0, 0, 0, 0, 0, 0, 0, 0, 0, 18, 0xb1]

/-- The pool of `roundabout`. -/
def equalLiterals : LiteralPool :=
  ⟨#[.literal (.int 100000), .literal (.int 100000), .literal (.int 7)]⟩

/-- The same pool in a class. -/
def equalConstants : ConstantPool :=
  ⟨#[.number (.int 100000), .number (.int 100000), .number (.int 7)]⟩

/-- The body of `roundabout`. -/
def roundaboutBody : Method where
  code := [.const (.int 100000), .const (.int 7), .load (.number .int) 1, .jump 4,
    .switch 0 (.table 0 0 [5]), .verbatim 0xb1 []]
  handlers := [⟨0, 6, 5, 0⟩]

/-- The normal form of `roundabout`. -/
def straight : Encoded where
  code := [0x12, 1, 0x10, 7, 0x1b, 0xa7, 0, 3,
    0xaa, 0, 0, 0, 0xff, 0xff, 0xff, 0xf8, 0, 0, 0, 0, 0, 0, 0, 0, 0, 0, 0, 20, 0xb1]
  exceptions := [⟨0, 29, 28, 0⟩]

/-- The long way round becomes the straight one in either kind of pool. -/
theorem recode_normalForm_roundabout :
    (decode equalLiterals roundabout [⟨0, 33, 32, 0⟩] = .ok roundaboutBody ∧
      (encode roundaboutBody equalLiterals).2 = equalLiterals ∧
      decode equalLiterals straight.code straight.exceptions = .ok roundaboutBody ∧
      encode roundaboutBody equalLiterals = (.ok straight, equalLiterals)) ∧
    (decode equalConstants roundabout [⟨0, 33, 32, 0⟩] = .ok roundaboutBody ∧
      (encode roundaboutBody equalConstants).2 = equalConstants ∧
      decode equalConstants straight.code straight.exceptions = .ok roundaboutBody ∧
      encode roundaboutBody equalConstants = (.ok straight, equalConstants)) := by
  have hliterals : decode equalLiterals roundabout [⟨0, 33, 32, 0⟩] = .ok roundaboutBody := by
    rfl
  have hconstants : decode equalConstants roundabout [⟨0, 33, 32, 0⟩] = .ok roundaboutBody := by
    rfl
  obtain ⟨-, -, -, hpool, hnormal⟩ := recode_normalForm hliterals
  obtain ⟨-, -, -, hpool', hnormal'⟩ := recode_normalForm hconstants
  obtain ⟨hdecode, hencode⟩ := hnormal straight (by decide +kernel)
  obtain ⟨hdecode', hencode'⟩ := hnormal' straight (by decide +kernel)
  exact ⟨⟨hliterals, hpool, hdecode, hencode _ hdecode⟩,
    hconstants, hpool', hdecode', hencode' _ hdecode'⟩

end JvmOptimizer.Code
