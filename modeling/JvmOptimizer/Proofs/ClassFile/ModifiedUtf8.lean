import JvmOptimizer.ClassFile.ModifiedUtf8
import Mathlib.Data.List.Basic

/-!
# Modified UTF-8 is read back

Every text is read back from its bytes. The other way round a text may have more
than one spelling, because reading does not look at all bits; the one that is
written is never longer than the one that was read.
-/

namespace JvmOptimizer.ModifiedUtf8

variable {unit : Nat} {units found : List Nat} {bytes rest : Bytes}

/-! ### Code units -/

/-- A code unit is read back from its one, two or three bytes. Zero takes two, so
that no byte is zero. -/
theorem unitsAfter?_unitBytes (h : unit < 0x10000) :
    unitsAfter? found (unitBytes unit ++ rest) = unitsAfter? (unit :: found) rest := by
  rw [unitBytes]
  split_ifs with h₁ h₂
  · rw [List.singleton_append, unitsAfter?.eq_def]
    simp only [UInt8.toNat_ofNat_of_lt' (show unit < 256 by omega), if_pos h₁]
  · rw [List.cons_append, List.singleton_append, unitsAfter?.eq_def]
    simp only [UInt8.toNat_ofNat_of_lt' (show 0xc0 + unit / 64 < 256 by omega),
      UInt8.toNat_ofNat_of_lt' (show 0x80 + unit % 64 < 256 by omega)]
    rw [if_neg (by omega), if_pos (by omega)]
    congr 2
    omega
  · rw [List.cons_append, List.cons_append, List.singleton_append, unitsAfter?.eq_def]
    simp only [UInt8.toNat_ofNat_of_lt' (show 0xe0 + unit / 4096 < 256 by omega),
      UInt8.toNat_ofNat_of_lt' (show 0x80 + unit / 64 % 64 < 256 by omega),
      UInt8.toNat_ofNat_of_lt' (show 0x80 + unit % 64 < 256 by omega)]
    rw [if_neg (by omega), if_neg (by omega), if_pos (by omega)]
    congr 2
    omega

/-- The units found so far are kept the wrong way round. -/
theorem unitsAfter?_flatMap (h : ∀ unit ∈ units, unit < 0x10000) :
    unitsAfter? found (units.flatMap unitBytes) = some (found.reverse ++ units) := by
  induction units generalizing found with
  | nil => simp [unitsAfter?]
  | cons unit units ih =>
      rw [List.forall_mem_cons] at h
      rw [List.flatMap_cons, unitsAfter?_unitBytes h.1, ih h.2]
      simp

theorem length_unitBytes : (unitBytes unit).length =
    if 0 < unit ∧ unit < 0x80 then 1 else if unit < 0x800 then 2 else 3 := by
  unfold unitBytes
  split_ifs <;> rfl

theorem ofNat_range {n : Nat} (hpos : 0 < n) (hlt : n < 0xf0) :
    0 < UInt8.ofNat n ∧ UInt8.ofNat n < 0xf0 := by
  rw [UInt8.lt_iff_toNat_lt, UInt8.lt_iff_toNat_lt, UInt8.toNat_ofNat_of_lt' (show _ < 256 by omega)]
  exact ⟨hpos, hlt⟩

/-- No byte of a unit is zero, and none is from `0xf0` on. -/
theorem unitBytes_range (h : unit < 0x10000) :
    ∀ byte ∈ unitBytes unit, 0 < byte ∧ byte < 0xf0 := by
  rw [unitBytes]
  split_ifs with h₁ h₂
  · rw [List.forall_mem_singleton]
    exact ofNat_range h₁.1 (by omega)
  · rw [List.forall_mem_cons, List.forall_mem_singleton]
    exact ⟨ofNat_range (by omega) (by omega), ofNat_range (by omega) (by omega)⟩
  · rw [List.forall_mem_cons, List.forall_mem_cons, List.forall_mem_singleton]
    exact ⟨ofNat_range (by omega) (by omega), ofNat_range (by omega) (by omega),
      ofNat_range (by omega) (by omega)⟩

/-- One more unit in front of those that are spelled with as many bytes or
fewer. -/
theorem exists_cons_units (hunit : unit < 0x10000)
    (hlength : rest.length + (unitBytes unit).length ≤ bytes.length)
    (h : ∃ read, units = (unit :: found).reverse ++ read ∧ (∀ unit ∈ read, unit < 0x10000) ∧
      (read.flatMap unitBytes).length ≤ rest.length) :
    ∃ read, units = found.reverse ++ read ∧ (∀ unit ∈ read, unit < 0x10000) ∧
      (read.flatMap unitBytes).length ≤ bytes.length := by
  obtain ⟨read, rfl, hread, hrest⟩ := h
  refine ⟨unit :: read, by simp, List.forall_mem_cons.2 ⟨hunit, hread⟩, ?_⟩
  rw [List.flatMap_cons, List.length_append]
  omega

/-- The units that bytes spell can be spelled with as many bytes or fewer. -/
theorem unitsAfter?_eq_some (h : unitsAfter? found bytes = some units) :
    ∃ read, units = found.reverse ++ read ∧ (∀ unit ∈ read, unit < 0x10000) ∧
      (read.flatMap unitBytes).length ≤ bytes.length := by
  fun_induction unitsAfter? found bytes with
  | case1 found =>
      cases h
      exact ⟨[], by simp, by simp, by simp⟩
  | case2 found b rest n hn ih =>
      refine exists_cons_units ?_ ?_ (ih h)
      · omega
      · simp only [length_unitBytes, if_pos hn, List.length_cons]
        omega
  | case3 found b n _ hn b₁ rest ih =>
      refine exists_cons_units ?_ ?_ (ih h)
      · omega
      · rw [length_unitBytes, List.length_cons, List.length_cons]
        split_ifs <;> omega
  | case5 found b n _ _ hn b₁ b₂ rest ih =>
      refine exists_cons_units ?_ ?_ (ih h)
      · omega
      · rw [length_unitBytes, List.length_cons, List.length_cons, List.length_cons]
        split_ifs <;> omega
  -- A byte that starts no unit, or one whose continuation is missing.
  | case4 => cases h
  | case6 => cases h
  | case7 => cases h

/-! ### Characters -/

/-- Characters outside the basic plane take two units, and each half fits in 16
bits. -/
theorem charUnits_lt {c : Char} (h : unit ∈ charUnits c) : unit < 0x10000 := by
  have hvalid : c.toNat.isValidChar := c.valid
  simp only [Nat.isValidChar] at hvalid
  rw [charUnits] at h
  split at h
  · rw [List.mem_singleton] at h
    omega
  · simp only [List.mem_cons, List.not_mem_nil, or_false] at h
    omega

/-- A high half is always followed by its low half, so no character is read from
the halves of two others. -/
theorem charsAfter?_charUnits (c : Char) (found : List Char) (rest : List Nat) :
    charsAfter? found (charUnits c ++ rest) = charsAfter? (c :: found) rest := by
  have hvalid : c.toNat.isValidChar := c.valid
  simp only [Nat.isValidChar] at hvalid
  rw [charUnits]
  split
  · -- A character of the basic plane is no surrogate.
    have hhigh : isHigh c.toNat = false := by simp [isHigh]; omega
    have hlow : isLow c.toNat = false := by simp [isLow]; omega
    cases rest with
    | nil => simp [charsAfter?, hhigh, hlow, Char.ofNat_toNat]
    | cons next rest => simp [charsAfter?, hhigh, hlow, Char.ofNat_toNat]
  · have hhigh : isHigh (0xd800 + (c.toNat - 0x10000) / 0x400) = true := by
      simp [isHigh]
      omega
    have hlow : isLow (0xdc00 + (c.toNat - 0x10000) % 0x400) = true := by
      simp [isLow]
      omega
    have hn : 0x10000 + (0xd800 + (c.toNat - 0x10000) / 0x400 - 0xd800) * 0x400 +
        (0xdc00 + (c.toNat - 0x10000) % 0x400 - 0xdc00) = c.toNat := by omega
    rw [List.cons_append, List.singleton_append, charsAfter?, if_pos hhigh, if_pos hlow]
    simp only [hn, Char.ofNat_toNat]

theorem charsAfter?_flatMap (chars found : List Char) :
    charsAfter? found (chars.flatMap charUnits) = some (found.reverse ++ chars) := by
  induction chars generalizing found with
  | nil => simp [charsAfter?]
  | cons c chars ih =>
      rw [List.flatMap_cons, charsAfter?_charUnits, ih]
      simp

/-- A code point of a character is the one that the character has. -/
theorem toNat_charOfNat {n : Nat} (h : n.isValidChar) : (Char.ofNat n).toNat = n := by
  rw [Char.ofNat, dif_pos h]
  rfl

/-- A unit that is no surrogate is that of its character. -/
theorem charUnits_ofNat (hhigh : ¬ isHigh unit) (hlow : ¬ isLow unit) (h : unit < 0x10000) :
    charUnits (Char.ofNat unit) = [unit] := by
  have hvalid : unit.isValidChar := by
    simp only [isHigh, isLow, Bool.and_eq_true, decide_eq_true_eq] at hhigh hlow
    simp only [Nat.isValidChar]
    omega
  rw [charUnits, toNat_charOfNat hvalid, if_pos h]

/-- Two surrogates are those of their character. -/
theorem charUnits_ofNat_pair {next : Nat} (hhigh : isHigh unit) (hlow : isLow next) :
    charUnits (Char.ofNat (0x10000 + (unit - 0xd800) * 0x400 + (next - 0xdc00))) =
      [unit, next] := by
  simp only [isHigh, isLow, Bool.and_eq_true, decide_eq_true_eq] at hhigh hlow
  have hvalid : (0x10000 + (unit - 0xd800) * 0x400 + (next - 0xdc00)).isValidChar := by
    simp only [Nat.isValidChar]
    omega
  rw [charUnits, toNat_charOfNat hvalid, if_neg (by omega)]
  simp only [List.cons.injEq, and_true]
  omega

/-- The units are those of the characters that they spell. -/
theorem charsAfter?_eq_some {found chars : List Char} (h : charsAfter? found units = some chars)
    (hunits : ∀ unit ∈ units, unit < 0x10000) :
    ∃ read, chars = found.reverse ++ read ∧ read.flatMap charUnits = units := by
  fun_induction charsAfter? found units with
  | case1 found =>
      cases h
      exact ⟨[], by simp, rfl⟩
  | case3 found unit hnot =>
      cases h
      rw [Bool.or_eq_true, not_or] at hnot
      refine ⟨[Char.ofNat unit], by simp, ?_⟩
      simp [charUnits_ofNat hnot.1 hnot.2 (hunits unit (by simp))]
  -- Two halves make one character.
  | case4 found unit next rest hhigh hlow n ih =>
      simp only [List.forall_mem_cons] at hunits
      obtain ⟨read, rfl, rfl⟩ := ih h hunits.2.2
      refine ⟨Char.ofNat n :: read, by simp, ?_⟩
      rw [List.flatMap_cons, charUnits_ofNat_pair hhigh hlow]
      rfl
  -- A unit that is no half of a pair is a character by itself.
  | case7 found unit next rest hhigh hlow ih =>
      rw [List.forall_mem_cons] at hunits
      obtain ⟨read, rfl, hread⟩ := ih h hunits.2
      refine ⟨Char.ofNat unit :: read, by simp, ?_⟩
      rw [List.flatMap_cons, charUnits_ofNat hhigh hlow hunits.1, hread]
      rfl
  -- What is left are halves without their partner.
  | case2 => cases h
  | case5 => cases h
  | case6 => cases h

/-! ### Texts -/

theorem units_lt (text : String) : ∀ unit ∈ text.toList.flatMap charUnits, unit < 0x10000 := by
  intro unit hunit
  obtain ⟨c, -, hc⟩ := List.mem_flatMap.1 hunit
  exact charUnits_lt hc

/-- **Every text is read back.** -/
theorem decode?_encode (text : String) : decode? (encode text) = some text := by
  simp [decode?, encode, unitsAfter?_flatMap (units_lt text), charsAfter?_flatMap]

/-- **What is written is no longer than what was read.** -/
theorem length_encode_le {text : String} (h : decode? bytes = some text) :
    (encode text).length ≤ bytes.length := by
  obtain ⟨units, hunits, h⟩ := Option.bind_eq_some_iff.1 h
  obtain ⟨chars, hchars, h⟩ := Option.bind_eq_some_iff.1 h
  cases h
  obtain ⟨read, rfl, hlt, hlength⟩ := unitsAfter?_eq_some hunits
  obtain ⟨chars, rfl, rfl⟩ := charsAfter?_eq_some hchars hlt
  simpa [encode] using hlength

/-- No byte of a text is zero, and none starts a sequence of four. -/
theorem encode_range (text : String) : ∀ byte ∈ encode text, 0 < byte ∧ byte < 0xf0 := by
  intro byte hbyte
  obtain ⟨unit, hunit, hbyte⟩ := List.mem_flatMap.1 hbyte
  exact unitBytes_range (units_lt text unit hunit) byte hbyte

/-- **Texts and their spellings.** Every text is read back from what is written
for it, which has no zero byte and no byte from `0xf0` on; and of the spellings
that are read as a text, the one that is written is a shortest. -/
theorem encode_canonical :
    (∀ text : String, decode? (encode text) = some text ∧
        ∀ byte ∈ encode text, 0 < byte ∧ byte < 0xf0) ∧
      ∀ (bytes : Bytes) (text : String), decode? bytes = some text →
        (encode text).length ≤ bytes.length :=
  ⟨fun text => ⟨decode?_encode text, encode_range text⟩, fun _ _ h => length_encode_le h⟩

/-- A letter in two bytes with a stray continuation, the zero character, and a
character outside the basic plane. -/
def unusualSpelling : Bytes := [0xc1, 0x01, 0xc0, 0x80, 0xed, 0xa0, 0xbd, 0xed, 0xb8, 0x80]

/-- Ten bytes that spell three characters in a way that is never written. -/
theorem encode_canonical_unusualSpelling :
    decode? unusualSpelling = some "A\x00😀" ∧ (encode "A\x00😀").length ≤ 10 := by
  have hdecode : decode? unusualSpelling = some "A\x00😀" := by decide +kernel
  exact ⟨hdecode, encode_canonical.2 _ _ hdecode⟩

end JvmOptimizer.ModifiedUtf8
