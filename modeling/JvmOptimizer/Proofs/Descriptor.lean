import JvmOptimizer.Bytes
import JvmOptimizer.Descriptor
import Mathlib.Algebra.GroupWithZero.Nat
import Mathlib.Data.List.TakeWhile

/-!
# The grammar of descriptors

A descriptor is read character by character, while its grammar is about bytes:
the name of a class may hold any byte but the one that ends it. The two agree
because every letter of the grammar is a character of one byte, and such a byte
is no part of any other character (`exists_cons_of_utf8_eq`, `dropWhile_utf8`).

`FieldType` and `MethodType` are the derivations of the grammar. Each reader is
compared with them in both directions: what it takes from the front of a text is
the spelling of a type of the size it reports, and a text that starts with the
spelling of a type has this type taken from its front.
-/

namespace JvmOptimizer.Descriptor

/-! ### Characters and bytes -/

/-- The bytes of a text. -/
def utf8 (s : List Char) : Bytes := s.flatMap String.utf8EncodeChar

theorem toList_toUTF8 (d : String) : d.toUTF8.data.toList = utf8 d.toList := by
  have h : d.toUTF8 = d.toList.utf8Encode := String.utf8Encode_toList.symm
  rw [h, List.utf8Encode, List.data_toByteArray]
  rfl

@[simp]
theorem utf8_eq_nil {s : List Char} : utf8 s = [] ↔ s = [] := by
  cases s <;> simp [utf8]

theorem utf8_cons (c : Char) (s : List Char) : utf8 (c :: s) = String.utf8EncodeChar c ++ utf8 s :=
  List.flatMap_cons

/-- All bytes of a character that takes several have their highest bit set. -/
theorem le_of_mem_utf8EncodeChar {c : Char} {b : UInt8} (hc : 128 ≤ c.toNat)
    (hb : b ∈ String.utf8EncodeChar c) : 128 ≤ b.toNat := by
  have hlong : ¬ c.val.toNat ≤ 0x7f := Nat.not_le.2 hc
  obtain ⟨n, rfl, hn, hlt⟩ : ∃ n, b = UInt8.ofNat n ∧ 128 ≤ n ∧ n < 256 := by
    simp only [String.utf8EncodeChar, if_neg hlong] at hb
    split at hb
    · simp only [List.mem_cons, List.not_mem_nil, or_false] at hb
      rcases hb with rfl | rfl <;> exact ⟨_, rfl, by omega, by omega⟩
    · split at hb
      · simp only [List.mem_cons, List.not_mem_nil, or_false] at hb
        rcases hb with rfl | rfl | rfl <;> exact ⟨_, rfl, by omega, by omega⟩
      · simp only [List.mem_cons, List.not_mem_nil, or_false] at hb
        rcases hb with rfl | rfl | rfl | rfl <;> exact ⟨_, rfl, by omega, by omega⟩
  rwa [UInt8.toNat_ofNat_of_lt' hlt]

section Ascii

variable {c : Char} (hc : c.toNat < 128)
include hc

/-- A character of one byte is written as its number. -/
theorem utf8EncodeChar_of_lt : String.utf8EncodeChar c = [c.toUInt8] := by
  have h : c.val.toNat ≤ 0x7f := Nat.le_of_lt_succ hc
  simp only [String.utf8EncodeChar, if_pos h]
  rfl

theorem utf8_cons_of_lt (s : List Char) : utf8 (c :: s) = c.toUInt8 :: utf8 s := by
  rw [utf8_cons, utf8EncodeChar_of_lt hc, List.singleton_append]

/-- Its number is no byte of any other character. -/
theorem eq_of_toUInt8_mem {c' : Char} (h : c.toUInt8 ∈ String.utf8EncodeChar c') : c' = c := by
  have hnat : ∀ {c : Char}, c.toNat < 128 → c.toUInt8.toNat = c.toNat := fun hlt =>
    Nat.mod_eq_of_lt (Nat.lt_trans hlt (by decide))
  by_cases hc' : c'.toNat < 128
  · rw [utf8EncodeChar_of_lt hc', List.mem_singleton] at h
    exact Char.toNat_inj.1 (by rw [← hnat hc, ← hnat hc', h])
  · have hle := le_of_mem_utf8EncodeChar (Nat.le_of_not_lt hc') h
    rw [hnat hc] at hle
    omega

/-- If a text starts with the byte of the character, it starts with the
character. -/
theorem exists_cons_of_utf8_eq {s : List Char} {w : Bytes} (h : utf8 s = c.toUInt8 :: w) :
    ∃ s', s = c :: s' ∧ utf8 s' = w := by
  cases s with
  | nil => simp [utf8] at h
  | cons c' s =>
      have hmem : c.toUInt8 ∈ String.utf8EncodeChar c' := by
        cases hb : String.utf8EncodeChar c' with
        | nil => exact absurd hb String.utf8EncodeChar_ne_nil
        | cons b bs =>
            rw [utf8_cons, hb] at h
            rw [← (List.cons.inj h).1]
            exact List.mem_cons_self
      obtain rfl := eq_of_toUInt8_mem hc hmem
      rw [utf8_cons_of_lt hc] at h
      exact ⟨s, rfl, (List.cons.inj h).2⟩

/-- Looking for the byte in the bytes of a text is looking for the character. -/
theorem dropWhile_utf8 (s : List Char) :
    (utf8 s).dropWhile (· != c.toUInt8) = utf8 (s.dropWhile (· != c)) := by
  induction s with
  | nil => rfl
  | cons c' s ih =>
      by_cases heq : c' = c
      · subst heq
        rw [utf8_cons_of_lt hc, List.dropWhile_cons_of_neg (by simp),
          List.dropWhile_cons_of_neg (by simp), utf8_cons_of_lt hc]
      · rw [utf8_cons, List.dropWhile_append_of_pos, ih, List.dropWhile_cons_of_pos (by simpa)]
        intro b hb
        rw [bne_iff_ne]
        rintro rfl
        exact heq (eq_of_toUInt8_mem hc hb)

end Ascii

/-! ### Types -/

/-- The types that are one letter. -/
inductive Primitive
  | byte
  | char
  | float
  | int
  | short
  | boolean
  | long
  | double
  deriving DecidableEq

namespace Primitive

/-- The letter of a type. -/
def letter : Primitive → Char
  | byte => 'B'
  | char => 'C'
  | float => 'F'
  | int => 'I'
  | short => 'S'
  | boolean => 'Z'
  | long => 'J'
  | double => 'D'

/-- Slots that a value of the type takes. -/
def slots : Primitive → Nat
  | long => 2
  | double => 2
  | _ => 1

theorem letter_lt (p : Primitive) : p.letter.toNat < 128 := by
  cases p <;> decide

theorem exists_of_mem {c : Char} (h : c ∈ ['B', 'C', 'F', 'I', 'S', 'Z']) :
    ∃ p : Primitive, p.letter = c ∧ p.slots = 1 := by
  simp only [List.mem_cons, List.not_mem_nil, or_false] at h
  rcases h with rfl | rfl | rfl | rfl | rfl | rfl
  exacts [⟨byte, rfl, rfl⟩, ⟨char, rfl, rfl⟩, ⟨float, rfl, rfl⟩, ⟨int, rfl, rfl⟩,
    ⟨short, rfl, rfl⟩, ⟨boolean, rfl, rfl⟩]

theorem exists_of_mem_wide {c : Char} (h : c ∈ ['J', 'D']) :
    ∃ p : Primitive, p.letter = c ∧ p.slots = 2 := by
  simp only [List.mem_cons, List.not_mem_nil, or_false] at h
  rcases h with rfl | rfl
  exacts [⟨long, rfl, rfl⟩, ⟨double, rfl, rfl⟩]

theorem fieldType?_letter (p : Primitive) (rest : List Char) :
    fieldType? (p.letter :: rest) = some (p.slots, rest) := by
  cases p <;> rfl

end Primitive

/-- A type of a field: a derivation of the grammar. -/
inductive FieldType
  | primitive (p : Primitive)
  /-- A class, whose name does not hold the byte that ends it. -/
  | object (name : Bytes) (closed : ';'.toUInt8 ∉ name)
  | array (element : FieldType)

namespace FieldType

/-- The spelling of a type. -/
def bytes : FieldType → Bytes
  | primitive p => [p.letter.toUInt8]
  | object name _ => 'L'.toUInt8 :: (name ++ [';'.toUInt8])
  | array element => '['.toUInt8 :: element.bytes

/-- The size of a type. -/
def slots : FieldType → Nat
  | primitive p => p.slots
  | object _ _ => 1
  | array _ => 1

end FieldType

/-- A type of a method. -/
structure MethodType where
  parameters : List FieldType
  /-- The type of the result, if there is one. -/
  result : Option FieldType

namespace MethodType

/-- The spelling of a type. -/
def bytes (t : MethodType) : Bytes :=
  '('.toUInt8 :: (t.parameters.flatMap FieldType.bytes ++ ')'.toUInt8 ::
    (t.result.map FieldType.bytes).getD ['V'.toUInt8])

/-- The sizes that a type gives. -/
def shape (t : MethodType) : MethodShape where
  parameterSlots := (t.parameters.map FieldType.slots).sum
  returnSlots := (t.result.map FieldType.slots).getD 0

end MethodType

/-! ### Readers -/

section Readers

variable {s rest : List Char} {n : Nat} {w : Bytes}

/-- What is read as a field type is the spelling of one of this size. -/
theorem exists_fieldType (h : fieldType? s = some (n, rest)) :
    ∃ t : FieldType, utf8 s = t.bytes ++ utf8 rest ∧ t.slots = n := by
  fun_induction fieldType? s generalizing n rest with
  | case1 element ih =>
    obtain ⟨⟨size, rest⟩, hread, heq⟩ := Option.map_eq_some_iff.1 h
    cases heq
    obtain ⟨t, ht, -⟩ := ih hread
    refine ⟨.array t, ?_, rfl⟩
    rw [utf8_cons_of_lt (by decide), ht]
    rfl
  | case2 name c rest' hdrop =>
    cases h
    have hend : c = ';' := by
      have := List.head?_dropWhile_not (· != ';') name
      rw [hdrop] at this
      simpa using this
    subst hend
    have hopen : ';'.toUInt8 ∉ (utf8 name).takeWhile (· != ';'.toUInt8) := fun hmem => by
      simpa using List.mem_takeWhile_imp hmem
    have hname := List.takeWhile_append_dropWhile (p := (· != ';'.toUInt8)) (l := utf8 name)
    rw [dropWhile_utf8 (by decide), hdrop, utf8_cons_of_lt (by decide)] at hname
    refine ⟨.object _ hopen, ?_, rfl⟩
    simp only [utf8_cons_of_lt (show 'L'.toNat < 128 by decide), FieldType.bytes,
      List.cons_append, List.append_assoc, List.nil_append, hname]
  | case3 => cases h
  | case4 c rest' hnot hnot' hmem =>
    cases h
    obtain ⟨p, rfl, hp⟩ := Primitive.exists_of_mem hmem
    exact ⟨.primitive p, utf8_cons_of_lt p.letter_lt _, hp⟩
  | case5 c rest' hnot hnot' hmem' hmem =>
    cases h
    obtain ⟨p, rfl, hp⟩ := Primitive.exists_of_mem_wide hmem
    exact ⟨.primitive p, utf8_cons_of_lt p.letter_lt _, hp⟩
  | case6 => cases h
  | case7 => cases h

/-- The spelling of a field type is read as such. -/
theorem fieldType?_of_utf8_eq {t : FieldType} (h : utf8 s = t.bytes ++ w) :
    ∃ rest, fieldType? s = some (t.slots, rest) ∧ utf8 rest = w := by
  induction t generalizing s with
  | primitive p =>
      obtain ⟨rest, rfl, hw⟩ := exists_cons_of_utf8_eq p.letter_lt h
      exact ⟨rest, p.fieldType?_letter rest, hw⟩
  | object name closed =>
      simp only [FieldType.bytes, List.cons_append, List.append_assoc, List.nil_append] at h
      obtain ⟨s, rfl, hs⟩ := exists_cons_of_utf8_eq (by decide) h
      have hopen : ∀ b ∈ name, (b != ';'.toUInt8) = true := fun b hb =>
        bne_iff_ne.2 fun heq => closed (heq ▸ hb)
      have hdrop : utf8 (s.dropWhile (· != ';')) = ';'.toUInt8 :: w := by
        rw [← dropWhile_utf8 (by decide), hs, List.dropWhile_append_of_pos hopen,
          List.dropWhile_cons_of_neg (by simp)]
      obtain ⟨rest, hrest, hw⟩ := exists_cons_of_utf8_eq (by decide) hdrop
      exact ⟨rest, by rw [fieldType?, hrest]; rfl, hw⟩
  | array element ih =>
      obtain ⟨s, rfl, hs⟩ := exists_cons_of_utf8_eq (by decide) h
      obtain ⟨rest, hread, hw⟩ := ih hs
      exact ⟨rest, by rw [fieldType?, hread]; rfl, hw⟩

/-- What is read as parameters is the spelling of some with this sum of sizes. -/
theorem exists_parameters (h : parameters? s = some (n, rest)) :
    ∃ ts : List FieldType, utf8 s = ts.flatMap FieldType.bytes ++ ')'.toUInt8 :: utf8 rest ∧
      (ts.map FieldType.slots).sum = n := by
  fun_induction parameters? s generalizing n rest with
  | case1 s hclose =>
    cases h
    obtain ⟨rest, rfl⟩ := List.head?_eq_some_iff.1 hclose
    exact ⟨[], utf8_cons_of_lt (by decide) rest, rfl⟩
  | case2 => cases h
  | case3 s hopen size next hread hlt ih =>
    obtain ⟨⟨others, rest⟩, hothers, heq⟩ := Option.map_eq_some_iff.1 h
    cases heq
    obtain ⟨t, ht, hsize⟩ := exists_fieldType hread
    obtain ⟨ts, hts, hsum⟩ := ih hothers
    refine ⟨t :: ts, ?_, by simp [hsize, hsum]⟩
    rw [ht, hts, List.flatMap_cons, List.append_assoc]

/-- The spelling of parameters is read as such. -/
theorem parameters?_of_utf8_eq {ts : List FieldType}
    (h : utf8 s = ts.flatMap FieldType.bytes ++ ')'.toUInt8 :: w) :
    ∃ rest, parameters? s = some ((ts.map FieldType.slots).sum, rest) ∧ utf8 rest = w := by
  induction ts generalizing s with
  | nil =>
      obtain ⟨rest, rfl, hw⟩ := exists_cons_of_utf8_eq (by decide) h
      exact ⟨rest, by rw [parameters?]; rfl, hw⟩
  | cons t ts ih =>
      rw [List.flatMap_cons, List.append_assoc] at h
      obtain ⟨next, hread, hnext⟩ := fieldType?_of_utf8_eq h
      obtain ⟨rest, hrest, hw⟩ := ih hnext
      refine ⟨rest, ?_, hw⟩
      have hopen : s.head? ≠ some ')' := by
        intro hclose
        obtain ⟨s', rfl⟩ := List.head?_eq_some_iff.1 hclose
        cases hread
      rw [parameters?, if_neg hopen]
      split
      · rename_i hnone
        rw [hread] at hnone
        cases hnone
      · rename_i size next' hsome
        rw [hread] at hsome
        cases hsome
        rw [hrest, List.map_cons, List.sum_cons]
        rfl

/-- A field type that is the whole text. -/
theorem fieldType?_eq_some_nil_iff :
    fieldType? s = some (n, []) ↔ ∃ t : FieldType, t.bytes = utf8 s ∧ t.slots = n := by
  constructor
  · intro h
    obtain ⟨t, ht, hsize⟩ := exists_fieldType h
    exact ⟨t, by rw [ht]; simp [utf8], hsize⟩
  · rintro ⟨t, ht, rfl⟩
    obtain ⟨rest, hread, hrest⟩ := fieldType?_of_utf8_eq (w := []) (by rw [ht, List.append_nil])
    rwa [utf8_eq_nil.1 hrest] at hread

/-- The letter of a method without result, or the type of the result. -/
theorem returnSlots?_eq_some_iff :
    returnSlots? s = some n ↔ s = ['V'] ∧ n = 0 ∨ fieldType? s = some (n, []) := by
  unfold returnSlots?
  split
  · have hnone : fieldType? ['V'] = none := rfl
    simp [hnone, eq_comm]
  · rename_i hvoid
    rw [or_iff_right fun h => hvoid h.1]
    cases fieldType? s with
    | none => simp
    | some r =>
        obtain ⟨size, rest⟩ := r
        cases rest <;> simp

theorem returnSlots?_eq_some_iff_exists :
    returnSlots? s = some n ↔ ∃ result : Option FieldType,
      (result.map FieldType.bytes).getD ['V'.toUInt8] = utf8 s ∧
        (result.map FieldType.slots).getD 0 = n := by
  rw [returnSlots?_eq_some_iff, fieldType?_eq_some_nil_iff]
  constructor
  · rintro (⟨rfl, rfl⟩ | ⟨t, ht, hsize⟩)
    · exact ⟨none, rfl, rfl⟩
    · exact ⟨some t, ht, hsize⟩
  · rintro ⟨_ | t, ht, hsize⟩
    · obtain ⟨s, rfl, hs⟩ := exists_cons_of_utf8_eq (c := 'V') (by decide) ht.symm
      exact .inl ⟨by rw [utf8_eq_nil.1 hs], hsize.symm⟩
    · exact .inr ⟨t, ht, hsize⟩

end Readers

/-! ### Descriptors -/

theorem fieldSlots?_eq_some_iff {d : String} {n : Nat} :
    fieldSlots? d = some n ↔ fieldType? d.toList = some (n, []) := by
  unfold fieldSlots?
  cases fieldType? d.toList with
  | none => simp
  | some r =>
      obtain ⟨size, rest⟩ := r
      cases rest <;> simp

theorem methodShape?_eq_some_iff {d : String} {shape : MethodShape} :
    methodShape? d = some shape ↔ ∃ s rest, d.toList = '(' :: s ∧
      parameters? s = some (shape.parameterSlots, rest) ∧
      returnSlots? rest = some shape.returnSlots ∧ shape.parameterSlots ≤ 65535 := by
  unfold methodShape?
  split
  · rename_i s hd
    rw [hd]
    constructor
    · intro h
      obtain ⟨⟨size, rest⟩, hparameters, h⟩ := Option.bind_eq_some_iff.1 h
      obtain ⟨result, hresult, h⟩ := Option.bind_eq_some_iff.1 h
      simp only [Option.ite_none_right_eq_some, Option.some.injEq] at h
      obtain ⟨hsum, rfl⟩ := h
      exact ⟨s, rest, rfl, hparameters, hresult, hsum⟩
    · rintro ⟨s', rest, heq, hparameters, hresult, hsum⟩
      cases heq
      rw [hparameters]
      simp [hresult, hsum]
  · rename_i hd
    constructor
    · intro h
      cases h
    · rintro ⟨s, rest, heq, -⟩
      exact absurd heq (hd s)

/-- Argument slots are counted exactly, except that 65535 of them and a receiver
come to none. -/
theorem toNat_argumentSlots {d : String} {shape : MethodShape} (h : methodShape? d = some shape)
    (receiver : Bool) : (shape.argumentSlots receiver).toNat =
      if shape.parameterSlots = 65535 ∧ receiver then 0
      else shape.parameterSlots + receiver.toNat := by
  obtain ⟨s, rest, -, -, -, hle⟩ := methodShape?_eq_some_iff.1 h
  rw [MethodShape.argumentSlots, UInt16.toNat_ofNat']
  split_ifs with hfull
  · obtain ⟨hfull, rfl⟩ := hfull
    rw [hfull]
    rfl
  · refine Nat.mod_eq_of_lt ?_
    cases receiver <;> simp at hfull ⊢ <;> omega

/-- **Descriptors are read by their grammar.** A text has the size of a field
type if and only if its bytes spell a field type of this size, and it has the
sizes of a method if and only if its bytes spell the type of a method with these
sizes whose parameters take at most 65535 slots. -/
theorem reads_exactly_grammar (d : String) :
    (∀ n, fieldSlots? d = some n ↔
      ∃ t : FieldType, t.bytes = d.toUTF8.data.toList ∧ t.slots = n) ∧
    (∀ shape, methodShape? d = some shape ↔
      ∃ t : MethodType, t.bytes = d.toUTF8.data.toList ∧ t.shape = shape ∧
        t.shape.parameterSlots ≤ 65535) := by
  simp only [toList_toUTF8, fieldSlots?_eq_some_iff, fieldType?_eq_some_nil_iff,
    methodShape?_eq_some_iff, implies_true, true_and]
  intro shape
  constructor
  · rintro ⟨s, rest, hd, hparameters, hresult, hsum⟩
    obtain ⟨ts, hts, hsize⟩ := exists_parameters hparameters
    obtain ⟨result, hbytes, hslots⟩ := returnSlots?_eq_some_iff_exists.1 hresult
    have hshape : (⟨ts, result⟩ : MethodType).shape = shape := by
      simp only [MethodType.shape, hsize, hslots]
    refine ⟨⟨ts, result⟩, ?_, hshape, hshape ▸ hsum⟩
    rw [hd, utf8_cons_of_lt (by decide), hts, MethodType.bytes, hbytes]
  · rintro ⟨t, ht, rfl, hsum⟩
    obtain ⟨s, hd, hs⟩ := exists_cons_of_utf8_eq (by decide) ht.symm
    obtain ⟨rest, hparameters, hrest⟩ := parameters?_of_utf8_eq hs
    have hresult := returnSlots?_eq_some_iff_exists.2 ⟨t.result, hrest.symm, rfl⟩
    exact ⟨s, rest, hd, hparameters, hresult, hsum⟩

end JvmOptimizer.Descriptor
