import JvmOptimizer.Proofs.Bytes
import JvmOptimizer.Proofs.ClassFile.ModifiedUtf8
import JvmOptimizer.Proofs.Pool
import Mathlib.Data.List.Forall2

/-!
# Constants in a class file

The bytes of a class file determine its constants, but not the other way round:
a text can be spelled in several ways, of which only one is ever written. So the
bytes are described by `RawConstant`s, in which a text is kept as it is spelled,
and reading goes in two steps from bytes to raw constants to constants.

A file declares constants for the indices below a number that it states first
(`Declares`), and the bytes can be cut into such a row in one way only
(`Declares.eq_of_append`). A wide number at the last index declared takes one
index more, and only then has the pool not the size that the file states
(`Declares.slots_eq_iff`).
-/

namespace JvmOptimizer

open Reader

theorem length_wordBytes (w : UInt16) : (wordBytes w).length = 2 := length_bigEndian 2 _

theorem wordBytes_inj {w w' : UInt16} (h : wordBytes w = wordBytes w') : w = w' := by
  have hread : Reads (ε := FormatError) u16 0 (wordBytes w) w := Reads.wordBytes w
  have hread' : Reads (ε := FormatError) u16 0 (wordBytes w') w' := Reads.wordBytes w'
  rw [← h] at hread'
  have heq := (hread []).symm.trans (hread' [])
  injection heq with heq
  exact congrArg Prod.fst heq

/-! ### Constants -/

/-- A constant as a class file spells it. -/
inductive RawConstant
  /-- A text, by the bytes that are to be decoded. -/
  | text (payload : Bytes)
  /-- Any other constant. -/
  | plain (c : Constant)

namespace RawConstant

/-- The bytes of the constant, with its tag. -/
def toBytes : RawConstant → Bytes
  | text payload => 1 :: wordBytes (UInt16.ofNat payload.length) ++ payload
  | plain c => c.toBytes

/-- The constant, if its text can be decoded. -/
def value? : RawConstant → Option Constant
  | text payload => (ModifiedUtf8.decode? payload).map .utf8
  | plain c => some c

/-- Does the constant take two indices? -/
def isWide : RawConstant → Bool
  | text _ => false
  | plain c => c.isWide

/-- Number of indices that the constant takes. -/
def slots (raw : RawConstant) : Nat := if raw.isWide then 2 else 1

/-- The constant can stand in a class file: a text has a length that fits into
its word, and the second slot of a wide number is not written. -/
def Fits : RawConstant → Prop
  | text payload => payload.length < 65536
  | plain (.utf8 _) => False
  | plain .upperHalf => False
  | plain _ => True

/-- A text is spelled as it is going to be written. -/
def IsCanonical : RawConstant → Prop
  | text payload => ∃ text, ModifiedUtf8.decode? payload = some text ∧
      ModifiedUtf8.encode text = payload
  | plain _ => True

end RawConstant

namespace Constant

/-- The constant can be written: a text has a length that fits into its word,
and there is no second slot without a wide number. -/
def Fits : Constant → Prop
  | utf8 text => (ModifiedUtf8.encode text).length < 65536
  | upperHalf => False
  | _ => True

variable {c : Constant} {index start : Nat}

theorem reads_readIndex (make : UInt16 → Constant) (w : UInt16) :
    Reads (readIndex make) start (wordBytes w) (make w) :=
  (Reads.wordBytes w).map make

theorem reads_readPair (make : UInt16 → UInt16 → Constant) (v w : UInt16) :
    Reads (readPair make) start (wordBytes v ++ wordBytes w) (make v w) :=
  (Reads.wordBytes v).bind ((Reads.wordBytes w).map (make v))

/-- A number is read back bit by bit, also one that is no number of its format. -/
theorem reads_number (v : Value) : Reads (read index) start (numberBytes v) (number v) := by
  cases v with
  | int v =>
      have h : Reads (ε := FormatError) i32 (start + 1) (doubleWordBytes v.toUInt32) v :=
        (Reads.doubleWordBytes v.toUInt32).map UInt32.toInt32
      exact (Reads.u8 3).bind (h.map fun v => number (.int v))
  | float bits =>
      exact (Reads.u8 4).bind ((Reads.doubleWordBytes bits).map fun bits => number (.float bits))
  | long v =>
      have h : Reads (ε := FormatError) i64 (start + 1) (quadWordBytes v.toUInt64) v :=
        (Reads.quadWordBytes v.toUInt64).map UInt64.toInt64
      exact (Reads.u8 5).bind (h.map fun v => number (.long v))
  | double bits =>
      exact (Reads.u8 6).bind ((Reads.quadWordBytes bits).map fun bits => number (.double bits))

/-- A text is read back from any spelling that the decoder takes for it, not only
from the one that is written. -/
theorem reads_text {payload : Bytes} {text : String} (hlength : payload.length < 65536)
    (h : ModifiedUtf8.decode? payload = some text) :
    Reads (read index) start (RawConstant.text payload).toBytes (utf8 text) := by
  have hcount : (UInt16.ofNat payload.length).toNat = payload.length :=
    UInt16.toNat_ofNat_of_lt' hlength
  have hpayload : Reads (readUtf8 index) (start + 1)
      (wordBytes (UInt16.ofNat payload.length) ++ (payload ++ [])) (utf8 text) := by
    refine (Reads.wordBytes _).bind ?_
    rw [hcount]
    refine (Reads.take payload).bind ?_
    simp only [h]
    exact Reads.pure _
  rw [List.append_nil] at hpayload
  exact (Reads.u8 1).bind hpayload

theorem reads_plain (h : (RawConstant.plain c).Fits) :
    Reads (read index) start c.toBytes c := by
  cases c with
  | utf8 text => exact h.elim
  | upperHalf => exact h.elim
  | number v => exact reads_number v
  | className name => exact (Reads.u8 7).bind (reads_readIndex className name)
  | string text => exact (Reads.u8 8).bind (reads_readIndex string text)
  | fieldRef owner nt => exact (Reads.u8 9).bind (reads_readPair fieldRef owner nt)
  | methodRef owner nt => exact (Reads.u8 10).bind (reads_readPair methodRef owner nt)
  | interfaceMethodRef owner nt =>
      exact (Reads.u8 11).bind (reads_readPair interfaceMethodRef owner nt)
  | nameAndType name descriptor =>
      exact (Reads.u8 12).bind (reads_readPair nameAndType name descriptor)
  | methodHandle kind reference =>
      exact (Reads.u8 15).bind <| (Reads.u8 kind).bind <|
        (Reads.wordBytes reference).map (methodHandle kind)
  | methodType descriptor => exact (Reads.u8 16).bind (reads_readIndex methodType descriptor)
  | dynamic bootstrap nt => exact (Reads.u8 17).bind (reads_readPair dynamic bootstrap nt)
  | invokeDynamic bootstrap nt =>
      exact (Reads.u8 18).bind (reads_readPair invokeDynamic bootstrap nt)
  | moduleName name => exact (Reads.u8 19).bind (reads_readIndex moduleName name)
  | packageName name => exact (Reads.u8 20).bind (reads_readIndex packageName name)

/-- A constant that fits is read back. -/
theorem reads_toBytes (h : c.Fits) : Reads (read index) start c.toBytes c := by
  cases c with
  | utf8 text => exact reads_text h (ModifiedUtf8.decode?_encode text)
  | upperHalf => exact h.elim
  | _ => exact reads_plain trivial

/-- The bytes spell the constant. -/
def Spelled (c : Constant) (bytes : Bytes) : Prop :=
  ∃ raw : RawConstant, raw.Fits ∧ raw.value? = some c ∧ raw.toBytes = bytes

/-- Constants that are a tag and one field, whatever the field is. -/
theorem consumes_plain {α : Type} {read : Reader FormatError α} {spell : α → Bytes} {tag : UInt8}
    (hread : Consumes read fun a bytes => bytes = spell a) (make : α → Constant)
    (hfits : ∀ a, (RawConstant.plain (make a)).Fits)
    (hmake : ∀ a, (make a).toBytes = tag :: spell a) :
    Consumes (do return make (← read)) fun c back => c.Spelled ([tag] ++ back) := by
  refine hread.map make fun a bytes hbytes => ?_
  subst hbytes
  exact ⟨.plain (make a), hfits a, rfl, hmake a⟩

theorem consumes_readPair {tag : UInt8} (make : UInt16 → UInt16 → Constant)
    (hfits : ∀ v w, (RawConstant.plain (make v w)).Fits)
    (hmake : ∀ v w, (make v w).toBytes = tag :: wordBytes v ++ wordBytes w) :
    Consumes (readPair make) fun c back => c.Spelled ([tag] ++ back) := by
  refine Consumes.u16.bind fun v front hfront => Consumes.u16.map (make v) fun w back hback => ?_
  subst hfront hback
  exact ⟨.plain (make v w), hfits v w, rfl, hmake v w⟩

/-- Of a text only the spelling is kept: the decoder may take several for the same
characters. -/
theorem consumes_readUtf8 :
    Consumes (readUtf8 index) fun c back => c.Spelled ([1] ++ back) := by
  refine Consumes.u16.bind fun length front hfront => ?_
  refine (Consumes.take _).bind fun _ payload hpayload => ?_
  obtain ⟨rfl, hlength⟩ := hpayload
  subst hfront
  cases hdecode : ModifiedUtf8.decode? payload with
  | none =>
      simp only
      exact Consumes.throw
  | some text =>
      simp only
      refine Consumes.pure ⟨.text payload, ?_, by simp [RawConstant.value?, hdecode], ?_⟩
      · rw [RawConstant.Fits, hlength]
        exact length.toNat_lt
      · simp [RawConstant.toBytes, hlength]

private theorem tag_eq {tag : UInt8} {n : Nat} (h : tag.toNat = n) : tag = UInt8.ofNat n := by
  rw [← h, UInt8.ofNat_toNat]

/-- What is read is spelled by the bytes taken for it. -/
theorem consumes_read : Consumes (read index) Spelled := by
  refine Consumes.u8.bind fun tag front hfront => ?_
  subst hfront
  have hint : Consumes (ε := FormatError) i32 fun v bytes => bytes = doubleWordBytes v.toUInt32 :=
    Consumes.u32.map UInt32.toInt32 fun w bytes hw => by simpa using hw
  have hlong : Consumes (ε := FormatError) i64 fun v bytes => bytes = quadWordBytes v.toUInt64 :=
    Consumes.u64.map UInt64.toInt64 fun w bytes hw => by simpa using hw
  -- The kinds of constants, in the order of their tags.
  split <;> rename_i h
  all_goals try rw [tag_eq h]
  · exact consumes_readUtf8
  · exact consumes_plain hint (number <| .int ·) (fun _ => trivial) fun _ => rfl
  · exact consumes_plain Consumes.u32 (number <| .float ·) (fun _ => trivial) fun _ => rfl
  · exact consumes_plain hlong (number <| .long ·) (fun _ => trivial) fun _ => rfl
  · exact consumes_plain Consumes.u64 (number <| .double ·) (fun _ => trivial) fun _ => rfl
  · exact consumes_plain Consumes.u16 className (fun _ => trivial) fun _ => rfl
  · exact consumes_plain Consumes.u16 string (fun _ => trivial) fun _ => rfl
  · exact consumes_readPair fieldRef (fun _ _ => trivial) fun _ _ => rfl
  · exact consumes_readPair methodRef (fun _ _ => trivial) fun _ _ => rfl
  · exact consumes_readPair interfaceMethodRef (fun _ _ => trivial) fun _ _ => rfl
  · exact consumes_readPair nameAndType (fun _ _ => trivial) fun _ _ => rfl
  · refine Consumes.u8.bind fun kind front hfront =>
      Consumes.u16.map (methodHandle kind) fun reference back hback => ?_
    subst hfront hback
    exact ⟨.plain (methodHandle kind reference), trivial, rfl, rfl⟩
  · exact consumes_plain Consumes.u16 methodType (fun _ => trivial) fun _ => rfl
  · exact consumes_readPair dynamic (fun _ _ => trivial) fun _ _ => rfl
  · exact consumes_readPair invokeDynamic (fun _ _ => trivial) fun _ _ => rfl
  · exact consumes_plain Consumes.u16 moduleName (fun _ => trivial) fun _ => rfl
  · exact consumes_plain Consumes.u16 packageName (fun _ => trivial) fun _ => rfl
  · exact Consumes.throw

end Constant

namespace RawConstant

variable {raw raw' : RawConstant} {c : Constant}

/-- A raw constant takes the slots of the constant that it spells. -/
theorem slots_of_value? (h : raw.value? = some c) : c.slots = raw.slots := by
  cases raw with
  | text payload =>
      obtain ⟨text, -, rfl⟩ := Option.map_eq_some_iff.1 h
      rfl
  | plain c' =>
      cases h
      rfl

/-- The constant is written with no more bytes than it was read from. -/
theorem length_toBytes_le (h : raw.value? = some c) : c.toBytes.length ≤ raw.toBytes.length := by
  cases raw with
  | text payload =>
      obtain ⟨text, hdecode, rfl⟩ := Option.map_eq_some_iff.1 h
      have hlength := ModifiedUtf8.length_encode_le hdecode
      simp only [Constant.toBytes, toBytes, List.length_append, List.length_cons,
        length_wordBytes]
      omega
  | plain c' =>
      cases h
      exact Nat.le_refl _

/-- A spelling that fits its length field spells a text that fits it, since the
spelling that is written is never longer. -/
theorem fits_of_value? (hfits : raw.Fits) (h : raw.value? = some c) : c.Fits := by
  cases raw with
  | text payload =>
      obtain ⟨text, hdecode, rfl⟩ := Option.map_eq_some_iff.1 h
      exact Nat.lt_of_le_of_lt (ModifiedUtf8.length_encode_le hdecode) hfits
  | plain c' =>
      cases h
      cases c <;> trivial

/-- The same bytes are written exactly for a text in the canonical spelling. -/
theorem toBytes_eq_iff (h : raw.value? = some c) : c.toBytes = raw.toBytes ↔ raw.IsCanonical := by
  cases raw with
  | text payload =>
      obtain ⟨text, hdecode, rfl⟩ := Option.map_eq_some_iff.1 h
      simp only [IsCanonical, hdecode, Option.some.injEq, exists_eq_left']
      constructor
      · intro heq
        simp only [Constant.toBytes, toBytes, List.cons_append, List.cons.injEq] at heq
        exact (List.append_inj heq.2 (by simp only [length_wordBytes])).2
      · intro heq
        simp only [Constant.toBytes, toBytes, heq]
  | plain c' =>
      cases h
      exact iff_of_true rfl trivial

/-- A constant that is not a text has a tag of its own. -/
theorem exists_tag (h : (plain c).Fits) : ∃ tag bytes, c.toBytes = tag :: bytes ∧ tag ≠ 1 := by
  cases c with
  | utf8 text => exact h.elim
  | upperHalf => exact h.elim
  | number v => cases v <;> exact ⟨_, _, rfl, by decide⟩
  | _ => exact ⟨_, _, rfl, by decide⟩

/-- No spelling of a constant is the beginning of another one. -/
theorem eq_of_append {rest rest' : Bytes} (hfits : raw.Fits) (hfits' : raw'.Fits)
    (h : raw.toBytes ++ rest = raw'.toBytes ++ rest') : raw = raw' ∧ rest = rest' := by
  -- The tag tells a text from the rest. A text states its length; of the others the
  -- reader knows where they end.
  cases raw with
  | text payload =>
      cases raw' with
      | text payload' =>
          simp only [toBytes, List.cons_append, List.append_assoc, List.cons.injEq,
            true_and] at h
          obtain ⟨hlength, hpayload⟩ := List.append_inj h (by simp only [length_wordBytes])
          have hlength' := congrArg UInt16.toNat (wordBytes_inj hlength)
          rw [UInt16.toNat_ofNat_of_lt' hfits, UInt16.toNat_ofNat_of_lt' hfits'] at hlength'
          obtain ⟨rfl, rfl⟩ := List.append_inj hpayload hlength'
          exact ⟨rfl, rfl⟩
      | plain c' =>
          obtain ⟨tag, bytes, hbytes, htag⟩ := exists_tag hfits'
          simp only [toBytes, hbytes, List.cons_append, List.cons.injEq] at h
          exact absurd h.1.symm htag
  | plain c =>
      cases raw' with
      | text payload' =>
          obtain ⟨tag, bytes, hbytes, htag⟩ := exists_tag hfits
          simp only [toBytes, hbytes, List.cons_append, List.cons.injEq] at h
          exact absurd h.1 htag
      | plain c' =>
          have hread : Constant.read 0 ⟨0, c.toBytes ++ rest⟩ = _ := Constant.reads_plain hfits rest
          have hread' : Constant.read 0 ⟨0, c'.toBytes ++ rest'⟩ = _ :=
            Constant.reads_plain hfits' rest'
          rw [show c.toBytes ++ rest = c'.toBytes ++ rest' from h, hread'] at hread
          simp only [Except.ok.injEq, Prod.mk.injEq, Cursor.mk.injEq] at hread
          exact ⟨by rw [hread.1], hread.2.2.symm⟩

end RawConstant

/-! ### Rows of constants -/

/-- A row of constants with their indices, as a file declares it from an index
on for all indices below `count`. -/
inductive Declares (count : Nat) : Nat → List (Nat × RawConstant) → Prop
  | done {index : Nat} : count ≤ index → Declares count index []
  | next {index : Nat} {raw : RawConstant} {entries : List (Nat × RawConstant)} :
      index < count → raw.Fits → Declares count (index + raw.slots) entries →
      Declares count index ((index, raw) :: entries)

/-- The bytes of a row of constants. -/
def entryBytes (entries : List (Nat × RawConstant)) : Bytes := entries.flatMap (·.2.toBytes)

/-- Number of indices that a row of constants takes. -/
def entrySlots (entries : List (Nat × RawConstant)) : Nat := (entries.map (·.2.slots)).sum

namespace Declares

variable {count index : Nat} {entries entries' : List (Nat × RawConstant)}

theorem fits (h : Declares count index entries) : ∀ e ∈ entries, e.2.Fits := by
  induction h with
  | done _ => simp
  | next _ hfits _ ih => exact List.forall_mem_cons.2 ⟨hfits, ih⟩

/-- A byte string is cut into a row of constants in one way only. -/
theorem eq_of_append (h : Declares count index entries) (h' : Declares count index entries')
    {rest rest' : Bytes} (heq : entryBytes entries ++ rest = entryBytes entries' ++ rest') :
    entries = entries' := by
  induction h generalizing entries' with
  | done hle =>
      cases h' with
      | done _ => rfl
      | next hlt _ _ => omega
  | next hlt hfits _ ih =>
      cases h' with
      | done hle => omega
      | next _ hfits' hrest =>
          simp only [entryBytes, List.flatMap_cons, List.append_assoc] at heq
          obtain ⟨rfl, htail⟩ := RawConstant.eq_of_append hfits hfits' heq
          rw [ih hrest htail]

/-- The row takes just the indices that are declared, unless a wide number
stands at the last one. -/
theorem slots_eq_iff (h : Declares count index entries) (hle : index ≤ count) :
    index + entrySlots entries = count ↔
      ∀ e ∈ entries, e.2.isWide → e.1 + 1 ≠ count := by
  induction h with
  | done hge => simpa [entrySlots] using by omega
  | @next index raw entries hlt hfits hrest ih =>
      have hslots : raw.slots = if raw.isWide then 2 else 1 := rfl
      rw [List.forall_mem_cons]
      by_cases hfit : index + raw.slots ≤ count
      · have hhead : raw.isWide → index + 1 ≠ count := by
          intro hwide
          rw [hslots, if_pos hwide] at hfit
          omega
        rw [← ih hfit, entrySlots, List.map_cons, List.sum_cons, ← Nat.add_assoc]
        exact ⟨fun heq => ⟨hhead, heq⟩, fun hall => hall.2⟩
      · -- The constant is wide and the last, and its second index is not declared.
        have hwide : raw.isWide = true := by
          by_contra hnarrow
          rw [hslots, if_neg hnarrow] at hfit
          omega
        rw [hslots, if_pos hwide] at hfit
        refine iff_of_false ?_ fun hall => hall.1 hwide (by omega)
        rw [entrySlots, List.map_cons, List.sum_cons, hslots, if_pos hwide]
        omega

end Declares

/-- The constants are what the entries of a row spell. -/
abbrev HasValues (entries : List (Nat × RawConstant)) (values : List Constant) : Prop :=
  List.Forall₂ (fun e c => e.2.value? = some c) entries values

namespace HasValues

variable {entries : List (Nat × RawConstant)} {values : List Constant}

theorem fits (h : HasValues entries values) (hfits : ∀ e ∈ entries, e.2.Fits) :
    ∀ c ∈ values, c.Fits := by
  induction h with
  | nil => simp
  | cons hvalue _ ih =>
      rw [List.forall_mem_cons] at hfits
      exact List.forall_mem_cons.2 ⟨RawConstant.fits_of_value? hfits.1 hvalue, ih hfits.2⟩

theorem sum_slots (h : HasValues entries values) :
    (values.map Constant.slots).sum = entrySlots entries := by
  induction h with
  | nil => rfl
  | cons hvalue _ ih =>
      simp only [entrySlots, List.map_cons, List.sum_cons,
        RawConstant.slots_of_value? hvalue] at ih ⊢
      rw [ih]

/-- Writing the values of a file again gives no more bytes than the file had. -/
theorem length_flatMap_le (h : HasValues entries values) :
    (values.flatMap Constant.toBytes).length ≤ (entryBytes entries).length := by
  induction h with
  | nil => exact Nat.le_refl _
  | cons hvalue _ ih =>
      have hle := RawConstant.length_toBytes_le hvalue
      simp only [entryBytes, List.flatMap_cons, List.length_append] at ih ⊢
      omega

/-- The constants are written as they were spelled exactly if every text is in
its canonical spelling. -/
theorem flatMap_eq_iff (h : HasValues entries values) :
    values.flatMap Constant.toBytes = entryBytes entries ↔ ∀ e ∈ entries, e.2.IsCanonical := by
  induction h with
  | nil => simp [entryBytes]
  | @cons e c entries values hvalue htail ih =>
      rw [List.forall_mem_cons, ← ih, ← RawConstant.toBytes_eq_iff hvalue]
      simp only [entryBytes, List.flatMap_cons]
      constructor
      · intro heq
        -- No constant is written longer than it was spelled, so all are as long.
        have hlength := congrArg List.length heq
        have hle := RawConstant.length_toBytes_le hvalue
        have htails := length_flatMap_le htail
        simp only [entryBytes, List.length_append] at hlength htails
        exact List.append_inj heq (by omega)
      · rintro ⟨hhead, htail⟩
        rw [hhead, htail]

end HasValues

/-! ### Pools -/

/-- An empty slot stands exactly behind each wide number. -/
def IsPaired (slots : List Constant) : Prop :=
  slots[0]? ≠ some .upperHalf ∧
    ∀ i, slots[i + 1]? = some .upperHalf ↔ ∃ c, slots[i]? = some c ∧ c.isWide

namespace IsPaired

variable {c : Constant} {slots : List Constant}

/-- A constant of one slot can be put in front, if it is not itself an empty slot.
-/
theorem cons_iff (hne : c ≠ .upperHalf) (hnarrow : c.isWide = false) :
    IsPaired (c :: slots) ↔ IsPaired slots := by
  rw [IsPaired, IsPaired, ← Nat.and_forall_add_one]
  simp [hne, hnarrow]

theorem cons_cons_iff (hwide : c.isWide) :
    IsPaired (c :: .upperHalf :: slots) ↔ IsPaired slots := by
  have hne : c ≠ .upperHalf := by
    rintro rfl
    cases hwide
  have hupper : Constant.upperHalf.isWide = false := rfl
  rw [IsPaired, IsPaired, ← Nat.and_forall_add_one, ← Nat.and_forall_add_one]
  simp [hne, hwide, hupper]

/-- The slots are those of a row of constants. -/
theorem exists_values (h : IsPaired slots) :
    ∃ values : List Constant,
      (∀ c ∈ values, c ≠ .upperHalf) ∧ slots = values.flatMap Constant.row := by
  -- Each step takes one constant with the slots it needs, one or two.
  induction hlength : slots.length using Nat.strong_induction_on generalizing slots with
  | _ length ih =>
      cases slots with
      | nil => exact ⟨[], by simp, rfl⟩
      | cons c slots =>
          have hne : c ≠ .upperHalf := by
            rintro rfl
            exact h.1 rfl
          cases hwide : c.isWide with
          | false =>
              have hlt : slots.length < length := by
                rw [← hlength, List.length_cons]
                omega
              obtain ⟨values, hvalues, rfl⟩ := ih _ hlt ((cons_iff hne hwide).1 h) rfl
              exact ⟨c :: values, List.forall_mem_cons.2 ⟨hne, hvalues⟩,
                by simp [Constant.row, hwide]⟩
          | true =>
              have hnext : slots[0]? = some .upperHalf := (h.2 0).2 ⟨c, rfl, hwide⟩
              cases slots with
              | nil => cases hnext
              | cons next slots =>
                  obtain rfl : next = .upperHalf := by simpa using hnext
                  have hlt : slots.length < length := by
                    rw [← hlength, List.length_cons, List.length_cons]
                    omega
                  obtain ⟨values, hvalues, rfl⟩ := ih _ hlt ((cons_cons_iff hwide).1 h) rfl
                  exact ⟨c :: values, List.forall_mem_cons.2 ⟨hne, hvalues⟩,
                    by simp [Constant.row, hwide]⟩

/-- Constants in their own slots leave no empty slot but those behind wide ones.
-/
theorem flatMap_row {values : List Constant} (h : ∀ c ∈ values, c ≠ .upperHalf) :
    IsPaired (values.flatMap Constant.row) := by
  induction values with
  | nil => simp [IsPaired]
  | cons c values ih =>
      rw [List.forall_mem_cons] at h
      cases hwide : c.isWide with
      | false => simpa [Constant.row, hwide] using (cons_iff h.1 hwide).2 (ih h.2)
      | true => simpa [Constant.row, hwide] using (cons_cons_iff hwide).2 (ih h.2)

end IsPaired

namespace ConstantPool

/-- The pool can be written: its indices and the lengths of its texts fit into
their words, and empty slots stand where they belong. -/
structure Fits (p : ConstantPool) : Prop where
  size_le : p.size ≤ 65534
  paired : IsPaired p.constants.toList
  texts : ∀ text, .utf8 text ∈ p.constants.toList → (ModifiedUtf8.encode text).length < 65536

variable {p : ConstantPool} {values : List Constant} {index start : Nat}

/-- The pool of a row of constants. -/
abbrev ofValues (values : List Constant) : ConstantPool := values.foldl push {}

/-- Adding constants one by one lays their slots side by side. -/
theorem toList_foldl_push (values : List Constant) (p : ConstantPool) :
    (values.foldl push p).constants.toList = p.constants.toList ++ values.flatMap Constant.row := by
  induction values generalizing p with
  | nil => simp
  | cons c values ih => simp [ih, toList_push]

theorem toList_ofValues (values : List Constant) :
    (ofValues values).constants.toList = values.flatMap Constant.row := by
  rw [toList_foldl_push]
  rfl

theorem size_ofValues (values : List Constant) :
    (ofValues values).size = (values.map Constant.slots).sum := by
  rw [size, ← Array.length_toList, toList_ofValues, List.length_flatMap]
  congr 1
  refine List.map_congr_left fun c _ => ?_
  unfold Constant.row Constant.slots
  split <;> rfl

/-- A pool that fits comes from constants that do. -/
theorem Fits.exists_values (h : p.Fits) :
    ∃ values, (∀ c ∈ values, c.Fits) ∧ p = ofValues values := by
  obtain ⟨values, hne, hslots⟩ := h.paired.exists_values
  refine ⟨values, fun c hc => ?_, ?_⟩
  · have hmem : c ∈ p.constants.toList := by
      rw [hslots]
      exact List.mem_flatMap.2 ⟨c, hc, List.mem_cons_self⟩
    cases c with
    | utf8 text => exact h.texts text hmem
    | upperHalf => exact hne _ hc rfl
    | _ => trivial
  · rw [← toList_ofValues, Array.toList_inj] at hslots
    exact congrArg ConstantPool.mk hslots

theorem fits_ofValues (hsize : (ofValues values).size ≤ 65534) (h : ∀ c ∈ values, c.Fits) :
    (ofValues values).Fits := by
  refine ⟨hsize, ?_, fun text htext => ?_⟩
  · rw [toList_ofValues]
    refine IsPaired.flatMap_row ?_
    rintro c hc rfl
    exact h _ hc
  · rw [toList_ofValues, List.mem_flatMap] at htext
    obtain ⟨c, hc, hrow⟩ := htext
    obtain rfl : .utf8 text = c := by
      unfold Constant.row at hrow
      split at hrow <;> simpa using hrow
    exact h _ hc

/-- The count that is written is that of the slots, and one more for index zero.
-/
theorem toNat_count (hsize : (ofValues values).size ≤ 65534) :
    (ofValues values).count.toNat = 1 + (values.map Constant.slots).sum := by
  rw [count, UInt16.toNat_ofNat_of_lt', size_ofValues, Nat.add_comm]
  exact Nat.lt_of_le_of_lt (Nat.succ_le_succ hsize) (by decide)

/-- The second slot of a wide number has no bytes. -/
theorem toBytes_ofValues (values : List Constant) : (ofValues values).toBytes =
    wordBytes (ofValues values).count ++ values.flatMap Constant.toBytes := by
  have hrow : ∀ c : Constant, c.row.flatMap Constant.toBytes = c.toBytes := by
    intro c
    unfold Constant.row
    split <;> simp [Constant.toBytes]
  rw [toBytes, toList_ofValues, List.flatMap_assoc]
  simp only [hrow]

/-- **The bytes of a declared pool are written again** exactly if the number of
indices is stated, every text is in its canonical spelling, and no wide number
stands at the last index declared. -/
theorem toBytes_eq_iff {count : UInt16} {entries : List (Nat × RawConstant)}
    (hentries : Declares count.toNat 1 entries) (hvalues : HasValues entries values)
    (hsize : (ofValues values).size ≤ 65534) :
    (ofValues values).toBytes = wordBytes count ++ entryBytes entries ↔
      count ≠ 0 ∧ (∀ e ∈ entries, e.2.IsCanonical) ∧
        ∀ e ∈ entries, e.2.isWide → e.1 + 1 ≠ count.toNat := by
  have hsplit : (ofValues values).toBytes = wordBytes count ++ entryBytes entries ↔
      (ofValues values).count.toNat = count.toNat ∧
        values.flatMap Constant.toBytes = entryBytes entries := by
    rw [toBytes_ofValues, UInt16.toNat_inj]
    constructor
    · intro heq
      have hparts := List.append_inj heq (by simp only [length_wordBytes])
      exact ⟨wordBytes_inj hparts.1, hparts.2⟩
    · rintro ⟨hcount, hrow⟩
      rw [hcount, hrow]
  rw [hsplit, hvalues.flatMap_eq_iff, toNat_count hsize, hvalues.sum_slots]
  by_cases hzero : count = 0
  · subst hzero
    exact iff_of_false (fun h => by simp at h) fun h => h.1 rfl
  · have hpos : 1 ≤ count.toNat := Nat.pos_of_ne_zero fun h => hzero (UInt16.toNat_inj.1 h)
    rw [hentries.slots_eq_iff hpos, and_iff_right hzero]
    exact and_comm

/-! ### Reading -/

/-- A wide number moves the index by two, so the loop does not count the
constants. -/
theorem readFrom_of_lt {count : Nat} (h : index < count) (p : ConstantPool) :
    readFrom count index p =
      Constant.read index >>= fun c => readFrom count (index + c.slots) (p.push c) := by
  rw [readFrom, if_pos h]
  congr 1
  funext c
  unfold Constant.slots
  split <;> rfl

/-- Constants that fit are read back behind those of a pool. -/
theorem reads_readFrom (h : ∀ c ∈ values, c.Fits) (p : ConstantPool) :
    Reads (readFrom (index + (values.map Constant.slots).sum) index p) start
      (values.flatMap Constant.toBytes) (values.foldl push p) := by
  induction values generalizing index start p with
  | nil =>
      rw [readFrom, if_neg (by simp)]
      exact Reads.pure p
  | cons c values ih =>
      rw [List.forall_mem_cons] at h
      have hpos := c.slots_pos
      rw [List.map_cons, List.sum_cons, readFrom_of_lt (by omega), ← Nat.add_assoc]
      exact (Constant.reads_toBytes h.1).bind (ih h.2 (p.push c))

/-- **A pool that fits is read back.** -/
theorem reads_toBytes (h : p.Fits) : Reads ConstantPool.read start p.toBytes p := by
  obtain ⟨values, hvalues, rfl⟩ := h.exists_values
  rw [toBytes_ofValues]
  refine (Reads.wordBytes _).bind ?_
  rw [toNat_count h.size_le]
  exact reads_readFrom hvalues {}

/-- What the loop consumes is a declaration of constants, entry by entry, whose
values are pushed in turn. The last one may be wide and reach behind the count. -/
theorem consumes_readFrom (count index : Nat) (p : ConstantPool) :
    Consumes (readFrom count index p) fun q bytes => ∃ entries values,
      Declares count index entries ∧ HasValues entries values ∧ q = values.foldl push p ∧
        bytes = entryBytes entries := by
  induction hleft : count - index using Nat.strong_induction_on generalizing index p with
  | _ left ih =>
      by_cases hlt : index < count
      · rw [readFrom_of_lt hlt]
        refine Constant.consumes_read.bind fun c front hfront => ?_
        obtain ⟨raw, hfits, hvalue, rfl⟩ := hfront
        have hpos := c.slots_pos
        refine (ih _ (by omega) (index + c.slots) (p.push c) rfl).mono ?_
        rintro q back ⟨entries, values, hentries, hvalues, rfl, rfl⟩
        rw [RawConstant.slots_of_value? hvalue] at hentries
        exact ⟨(index, raw) :: entries, c :: values, .next hlt hfits hentries,
          .cons hvalue hvalues, rfl, rfl⟩
      · rw [readFrom, if_neg hlt]
        exact Consumes.pure ⟨[], [], .done (by omega), .nil, rfl, rfl⟩

/-- What is read comes from a row of constants that the bytes declare. -/
theorem consumes_read : Consumes ConstantPool.read fun p bytes => ∃ count entries values,
    Declares (UInt16.toNat count) 1 entries ∧ HasValues entries values ∧ p = ofValues values ∧
      bytes = wordBytes count ++ entryBytes entries := by
  refine Consumes.u16.bind fun count front hfront => (consumes_readFrom _ _ _).mono ?_
  rintro p back ⟨entries, values, hentries, hvalues, rfl, rfl⟩
  subst hfront
  exact ⟨count, entries, values, hentries, hvalues, rfl, rfl⟩

end ConstantPool

end JvmOptimizer
