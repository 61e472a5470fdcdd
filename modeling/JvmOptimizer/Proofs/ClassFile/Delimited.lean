import JvmOptimizer.ClassFile.Basic
import JvmOptimizer.Proofs.ClassFile.Constants

/-!
# A class file tells where it ends

All lengths in a class file stand in front of what they count, so a reader knows
at every byte whether more is to come. `Reader.Delimited read` says so of a
reader: what it took is taken whatever follows, and the bytes run out on every
strict prefix of it. The notion composes like the readers do.

A reader that ends by checking that nothing is left over (`Reader.Sealed`) then
accepts a byte string but nothing shorter and nothing longer that begins like it:
a cut is reported as missing bytes, an addition as bytes too many.
-/

namespace JvmOptimizer

namespace Reader

variable {ε α β : Type}

theorem bind_eq_error {read : Reader ε α} {next : α → Reader ε β} {cursor : Cursor} {e : ε}
    (h : read cursor = .error e) : (read >>= next) cursor = .error e := by
  change (read cursor >>= fun p => next p.1 p.2) = _
  rw [h]
  rfl

theorem runOn_eq_error {read : Reader ε α} {bytes : Bytes} {e : ε}
    (h : read (Cursor.start bytes) = .error e) : read.runOn bytes = .error e := by
  rw [runOn, h]
  rfl

variable [Truncation ε]

/-! ### Running out of bytes -/

/-- On the bytes in `front` the reader says that they end too early: at a place
that it has come to, and with no more bytes missing than `whole` has. -/
def CutShort (read : Reader ε α) (start : Nat) (front whole : Bytes) : Prop :=
  ∃ offset missing, read ⟨start, front⟩ = .error (Truncation.truncated offset missing) ∧
    offset ≤ start + front.length ∧ 0 < missing ∧ front.length + missing ≤ whole.length

/-- The reader is cut short by a cut anywhere in the bytes. -/
def Needs (read : Reader ε α) (start : Nat) (bytes : Bytes) : Prop :=
  ∀ front back, bytes = front ++ back → back ≠ [] → CutShort read start front bytes

section

variable {read : Reader ε α} {next : α → Reader ε β} {start : Nat}
  {bytes bytes' front whole : Bytes} {a : α}

/-- No byte can be missing from nothing. -/
theorem needs_nil (read : Reader ε α) (start : Nat) : Needs read start [] := by
  intro front back heq hback
  exact absurd (List.append_eq_nil_iff.1 heq.symm).2 hback

/-- A reader that runs out of bytes has run out of them for what follows too. -/
theorem CutShort.bind (h : CutShort read start front whole) (more : Bytes) :
    CutShort (read >>= next) start front (whole ++ more) := by
  obtain ⟨offset, missing, hread, hoffset, hpos, hlength⟩ := h
  refine ⟨offset, missing, bind_eq_error hread, hoffset, hpos, ?_⟩
  rw [List.length_append]
  omega

/-- The bytes run out behind those that were read. -/
theorem CutShort.bind_of_reads (hread : Reads read start bytes a)
    (h : CutShort (next a) (start + bytes.length) front whole) :
    CutShort (read >>= next) start (bytes ++ front) (bytes ++ whole) := by
  obtain ⟨offset, missing, hnext, hoffset, hpos, hlength⟩ := h
  refine ⟨offset, missing, ?_, ?_, hpos, ?_⟩
  · rw [hread.bind_apply]
    exact hnext
  · rw [List.length_append]
    omega
  · rw [List.length_append, List.length_append]
    omega

/-- **A cut in two steps** is in what the first one takes, or behind it. -/
theorem Needs.bind (hread : Reads read start bytes a) (h : Needs read start bytes)
    (hnext : Needs (next a) (start + bytes.length) bytes') :
    Needs (read >>= next) start (bytes ++ bytes') := by
  intro front back heq hback
  rcases List.append_eq_append_iff.1 heq with ⟨more, rfl, hmore⟩ | ⟨more, rfl, rfl⟩
  · exact (hnext more back hmore hback).bind_of_reads hread
  · cases more with
    | nil =>
        -- The first step has all its bytes, and the second has none.
        rw [List.append_nil] at hread hnext ⊢
        have hcut := hnext [] bytes' rfl hback
        simpa using hcut.bind_of_reads hread
    | cons byte more => exact (h front (byte :: more) rfl (List.cons_ne_nil _ _)).bind bytes'

end

/-! ### Readers that know where they end -/

/-- Whatever follows the bytes that the reader took, it takes the same; and it
needs all of them. -/
def Delimited (read : Reader ε α) : Prop :=
  ∀ cursor a cursor', read cursor = .ok (a, cursor') → ∃ bytes,
    cursor.rest = bytes ++ cursor'.rest ∧ cursor'.offset = cursor.offset + bytes.length ∧
      Reads read cursor.offset bytes a ∧ Needs read cursor.offset bytes

namespace Delimited

variable {read : Reader ε α} {next : α → Reader ε β}

theorem pure (a : α) : Delimited (Pure.pure a : Reader ε α) := by
  intro cursor b cursor' hread
  cases hread
  exact ⟨[], rfl, rfl, Reads.pure a, needs_nil _ _⟩

theorem throw {e : ε} : Delimited (throw e : Reader ε α) := by
  intro cursor a cursor' hread
  cases hread

/-- Delimited readers stay so one behind the other: if the front of the bytes is
cut, the first one runs out, and if their end is, the second does. -/
theorem bind (h : Delimited read) (hnext : ∀ a, Delimited (next a)) :
    Delimited (read >>= next) := by
  intro cursor b cursor' hread
  obtain ⟨a, middle, ha, hb⟩ := bind_eq_ok.1 hread
  obtain ⟨bytes, hrest, hoffset, hreads, hneeds⟩ := h _ _ _ ha
  obtain ⟨bytes', hrest', hoffset', hreads', hneeds'⟩ := hnext a _ _ _ hb
  rw [hoffset] at hoffset' hreads' hneeds'
  refine ⟨bytes ++ bytes', ?_, ?_, hreads.bind hreads', hneeds.bind hreads hneeds'⟩
  · rw [hrest, hrest', List.append_assoc]
  · rw [hoffset', List.length_append, Nat.add_assoc]

theorem map (h : Delimited read) (f : α → β) : Delimited (do return f (← read)) :=
  h.bind fun a => pure (f a)

/-- The number of bytes that are missing is the number that were asked for, less
those that are there. -/
theorem take (n : Nat) : Delimited (take n : Reader ε Bytes) := by
  intro cursor bytes cursor' hread
  simp only [Reader.take] at hread
  split at hread
  · rename_i hlength
    cases hread
    have hreads : Reads (Reader.take _ : Reader ε Bytes) cursor.offset _ _ :=
      Reads.take (cursor.rest.take n)
    rw [hlength] at hreads
    refine ⟨_, (List.take_append_drop n cursor.rest).symm, ?_, hreads, ?_⟩
    · rw [hlength]
    · intro front back heq hback
      have hpos : 0 < back.length := List.length_pos_of_ne_nil hback
      rw [heq, List.length_append] at hlength
      rw [heq]
      refine ⟨cursor.offset, n - front.length, ?_, by omega, by omega, ?_⟩
      · simp only [Reader.take, List.length_take]
        rw [if_neg (by omega)]
      · rw [List.length_append]
        omega
  · cases hread

theorem u8 : Delimited (u8 : Reader ε UInt8) := ((take 1).map ofBigEndian).map UInt8.ofNat

theorem u16 : Delimited (u16 : Reader ε UInt16) := ((take 2).map ofBigEndian).map UInt16.ofNat

theorem u32 : Delimited (u32 : Reader ε UInt32) := ((take 4).map ofBigEndian).map UInt32.ofNat

theorem u64 : Delimited (u64 : Reader ε UInt64) := ((take 8).map ofBigEndian).map UInt64.ofNat

/-- A loop runs out where the reader for one item does. -/
theorem many (h : Delimited read) (count : Nat) : Delimited (many read count) := by
  have hafter : ∀ count found, Delimited (manyAfter read count found) := by
    intro count
    induction count with
    | zero => exact fun found => pure found.reverse
    | succ count ih => exact fun found => h.bind fun a => ih (a :: found)
  exact hafter count []

end Delimited

/-! ### Readers that leave nothing over -/

/-- The reader needs all the bytes that it is given, and reports how many there
are too many. -/
def Sealed (read : Reader ε α) (surplus : Nat → ε) : Prop :=
  ∀ cursor a cursor', read cursor = .ok (a, cursor') →
    Needs read cursor.offset cursor.rest ∧ ∀ extra, extra ≠ [] →
      read ⟨cursor.offset, cursor.rest ++ extra⟩ = .error (surplus extra.length)

namespace Sealed

variable {surplus : Nat → ε}

theorem bind {read : Reader ε α} {next : α → Reader ε β} (h : Delimited read)
    (hnext : ∀ a, Sealed (next a) surplus) : Sealed (read >>= next) surplus := by
  intro cursor b cursor' hread
  obtain ⟨a, middle, ha, hb⟩ := bind_eq_ok.1 hread
  obtain ⟨bytes, hrest, hoffset, hreads, hneeds⟩ := h _ _ _ ha
  obtain ⟨hneeds', hsurplus⟩ := hnext a _ _ _ hb
  rw [hoffset] at hneeds' hsurplus
  rw [hrest]
  refine ⟨hneeds.bind hreads hneeds', fun extra hextra => ?_⟩
  rw [List.append_assoc, hreads.bind_apply]
  exact hsurplus extra hextra

theorem guard {c : Prop} [Decidable c] {e : ε} {next : Reader ε β} (h : Sealed next surplus) :
    Sealed (if c then (do throw e; next) else next) surplus := by
  split
  · exact bind Delimited.throw fun _ => h
  · exact h

/-- A reader that ends by checking what is left over. -/
theorem check (surplus : Nat → ε) (a : α) : Sealed (do
    let rest := (← get).rest.length
    if rest ≠ 0 then
      throw (surplus rest)
    return a) surplus := by
  intro cursor b cursor' hread
  change (ite (cursor.rest.length ≠ 0) _ _ : Reader ε α) cursor = _ at hread
  have hnil : cursor.rest = [] := by
    by_contra hne
    rw [if_pos (mt List.length_eq_zero_iff.1 hne)] at hread
    cases hread
  rw [hnil]
  refine ⟨needs_nil _ _, fun extra hextra => ?_⟩
  change (ite (extra.length ≠ 0) _ _ : Reader ε α) _ = _
  rw [if_pos (mt List.length_eq_zero_iff.1 hextra)]
  rfl

/-- What is read from a whole string needs all of it, and nothing may follow. -/
theorem runOn {read : Reader ε α} (h : Sealed read surplus) {bytes : Bytes} {a : α}
    (hrun : read.runOn bytes = .ok a) : Needs read 0 bytes ∧
      ∀ extra, extra ≠ [] → read.runOn (bytes ++ extra) = .error (surplus extra.length) := by
  obtain ⟨cursor, hread⟩ := exists_of_runOn hrun
  obtain ⟨hneeds, hsurplus⟩ := h _ _ _ hread
  exact ⟨hneeds, fun extra hextra => runOn_eq_error (hsurplus extra hextra)⟩

end Sealed

end Reader

open Reader

/-! ### Attributes, members, constants -/

theorem delimited_counted {α : Type} {read : Reader FormatError α} (h : Delimited read) :
    Delimited (readCounted read) :=
  Delimited.u16.bind fun count => h.many count.toNat

theorem Attribute.delimited_read : Delimited Attribute.read :=
  Delimited.u16.bind fun _ => Delimited.u32.bind fun _ => (Delimited.take _).map _

theorem Member.delimited_read : Delimited Member.read :=
  Delimited.u16.bind fun _ => Delimited.u16.bind fun _ => Delimited.u16.bind fun _ =>
    (delimited_counted Attribute.delimited_read).map _

namespace Constant

theorem delimited_readIndex (make : UInt16 → Constant) : Delimited (readIndex make) :=
  Delimited.u16.map make

theorem delimited_readPair (make : UInt16 → UInt16 → Constant) : Delimited (readPair make) :=
  Delimited.u16.bind fun first => Delimited.u16.map (make first)

/-- A text is decoded when all its bytes are there, so a cut comes before a bad
spelling. -/
theorem delimited_readUtf8 (index : Nat) : Delimited (readUtf8 index) := by
  refine Delimited.u16.bind fun length => (Delimited.take _).bind fun bytes => ?_
  split
  · exact .pure _
  · exact .throw

theorem delimited_read (index : Nat) : Delimited (read index) := by
  refine Delimited.u8.bind fun tag => ?_
  -- The kinds of constants, in the order of their tags.
  split
  · exact delimited_readUtf8 index
  · exact (Delimited.u32.map _).map _
  · exact Delimited.u32.map _
  · exact (Delimited.u64.map _).map _
  · exact Delimited.u64.map _
  · exact delimited_readIndex className
  · exact delimited_readIndex string
  · exact delimited_readPair fieldRef
  · exact delimited_readPair methodRef
  · exact delimited_readPair interfaceMethodRef
  · exact delimited_readPair nameAndType
  · exact Delimited.u8.bind fun kind => Delimited.u16.map (methodHandle kind)
  · exact delimited_readIndex methodType
  · exact delimited_readPair dynamic
  · exact delimited_readPair invokeDynamic
  · exact delimited_readIndex moduleName
  · exact delimited_readIndex packageName
  · exact .throw

end Constant

namespace ConstantPool

theorem delimited_readFrom (count index : Nat) (p : ConstantPool) :
    Delimited (readFrom count index p) := by
  induction hleft : count - index using Nat.strong_induction_on generalizing index p with
  | _ left ih =>
      by_cases hlt : index < count
      · rw [readFrom_of_lt hlt]
        refine (Constant.delimited_read index).bind fun c => ?_
        have hpos := c.slots_pos
        exact ih _ (by omega) (index + c.slots) (p.push c) rfl
      · rw [readFrom, if_neg hlt]
        exact .pure p

theorem delimited_read : Delimited ConstantPool.read :=
  Delimited.u16.bind fun count => delimited_readFrom count.toNat 1 {}

end ConstantPool

/-! ### Classes -/

namespace ClassFile

/-- A class ends with a check that no bytes are left, so it is sealed, and all
that comes before is delimited. -/
theorem sealed_read : Sealed read FormatError.trailingBytes := by
  refine .bind .u32 fun start => .guard ?_
  refine .bind .u16 fun minor => .bind .u16 fun major => ?_
  refine .bind ConstantPool.delimited_read fun pool => ?_
  refine .bind .u16 fun access => .bind .u16 fun this => .bind .u16 fun super => ?_
  refine .bind (delimited_counted .u16) fun interfaces => ?_
  refine .bind (delimited_counted Member.delimited_read) fun fields => ?_
  refine .bind (delimited_counted Member.delimited_read) fun methods => ?_
  refine .bind (delimited_counted Attribute.delimited_read) fun attributes => ?_
  exact .check _ _

/-- **A class file ends where it says.** On every strict prefix of an accepted
byte string the bytes run out, at a place within the prefix and with no more
missing than was cut off. With bytes behind it, an accepted byte string is refused
for them, and they are counted. -/
theorem parse_selfDelimiting {bytes : Bytes} {c : ClassFile} (h : parse bytes = .ok c) :
    (∀ front, front <+: bytes → front ≠ bytes → ∃ offset missing,
        parse front = .error (.truncated offset missing) ∧ offset ≤ front.length ∧
          0 < missing ∧ front.length + missing ≤ bytes.length) ∧
      ∀ extra, extra ≠ [] → parse (bytes ++ extra) = .error (.trailingBytes extra.length) := by
  obtain ⟨hneeds, hsurplus⟩ := sealed_read.runOn h
  refine ⟨fun front hfront hne => ?_, hsurplus⟩
  obtain ⟨back, rfl⟩ := hfront
  have hback : back ≠ [] := by
    intro hnil
    rw [hnil, List.append_nil] at hne
    exact hne rfl
  obtain ⟨offset, missing, hcut, hoffset, hpos, hlength⟩ := hneeds front back rfl hback
  rw [Nat.zero_add] at hoffset
  exact ⟨offset, missing, runOn_eq_error hcut, hoffset, hpos, hlength⟩

/-- A class file with a text, a wide number and a field that has an attribute. -/
def oneField : Bytes :=
  [0xca, 0xfe, 0xba, 0xbe, 0, 0, 0, 50, 0, 4, 1, 0, 1, 0x66, 5, 0, 0, 0, 0, 0, 0, 0, 1,
    0, 0, 0, 0, 0, 0, 0, 1, 0, 1, 0, 1, 0, 0, 0, 1, 0, 1, 0, 1, 0, 1, 0, 0, 0, 2, 0xab, 0xcd,
    0, 0, 0, 0]

/-- The class in it. -/
def oneFieldClass : ClassFile :=
  ⟨0, 50, ⟨#[.utf8 "f", .number (.long 1), .upperHalf]⟩, 0, 0, 0, [1],
    [⟨0, 1, 1, [⟨1, [0xab, 0xcd]⟩]⟩], [], []⟩

theorem parse_selfDelimiting_oneField :
    parse oneField = .ok oneFieldClass ∧
      (∃ offset missing, parse (oneField.take 50) = .error (.truncated offset missing) ∧
        offset ≤ 50 ∧ 0 < missing ∧ 50 + missing ≤ 55) ∧
      parse (oneField ++ [0, 0]) = .error (.trailingBytes 2) := by
  have hparse : parse oneField = .ok oneFieldClass := by decide +kernel
  obtain ⟨hcut, hsurplus⟩ := parse_selfDelimiting hparse
  exact ⟨hparse, hcut _ (List.take_prefix 50 oneField) (by decide), hsurplus [0, 0] (by decide)⟩

end ClassFile

end JvmOptimizer
