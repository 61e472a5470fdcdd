import JvmOptimizer.Proofs.ClassFile.CodeAttribute
import JvmOptimizer.Proofs.ClassFile.Constants

/-!
# Reading and writing class files

A class whose parts fit into the words for their lengths is read back from its
bytes (`ClassFile.parse_toBytes`). The other way round, a byte string that is a
class file has the parts of the class in their order, and everything but the
constants can be spelled in one way only. So a class is written as it was read
just if its pool is (`ConstantPool.toBytes_eq_iff`): the file states a number of
indices, no text is spelled in an unusual way, and no wide number stands at the
last index. In any case the bytes written are read as the same class.
-/

namespace JvmOptimizer

open Reader

/-! ### Attributes and members -/

/-- A counted list has one spelling if its items have. -/
theorem consumes_counted {α : Type} {read : Reader FormatError α} {spell : α → Bytes}
    {P : α → Prop} (h : Consumes read fun a bytes => bytes = spell a ∧ P a) :
    Consumes (readCounted read) fun items bytes =>
      bytes = countedBytes spell items ∧ items.length < 65536 ∧ ∀ a ∈ items, P a := by
  refine Consumes.u16.bind fun count front hfront => ?_
  refine (h.many (fun a bytes ha => ha) count.toNat).mono ?_
  rintro items back ⟨hlength, rfl, hall⟩
  rw [countedBytes, hlength, UInt16.ofNat_toNat, hfront]
  exact ⟨rfl, count.toNat_lt, hall⟩

theorem Attribute.consumes_read :
    Consumes Attribute.read fun a bytes => bytes = a.toBytes ∧ a.Fits := by
  refine Consumes.u16.bind fun name front hfront => Consumes.u32.bind fun length middle hmiddle =>
    (Consumes.take _).map _ ?_
  rintro info back ⟨rfl, hlength⟩
  rw [toBytes, sizedBytes, Fits, hlength, UInt32.ofNat_toNat, hfront, hmiddle]
  exact ⟨rfl, length.toNat_lt⟩

namespace Member

/-- The lengths of the parts fit into their words. -/
structure Fits (m : Member) : Prop where
  attributes : m.attributes.length < 65536
  contents : ∀ a ∈ m.attributes, a.Fits

/-- A member is read back if its attributes can be counted and each fits. -/
theorem reads_toBytes {m : Member} {start : Nat} (h : m.Fits) :
    Reads Member.read start m.toBytes m := by
  have hattributes : ∀ start, Reads (readCounted Attribute.read) start
      (countedBytes Attribute.toBytes m.attributes) m.attributes := fun start =>
    reads_counted h.attributes fun a ha _ => Attribute.reads_toBytes (h.contents a ha)
  have hread : Reads Member.read start (wordBytes m.access ++ (wordBytes m.name ++
      (wordBytes m.descriptor ++ countedBytes Attribute.toBytes m.attributes))) m :=
    (Reads.wordBytes _).bind <| (Reads.wordBytes _).bind <| (Reads.wordBytes _).bind <|
      (hattributes _).map fun attributes =>
        (⟨m.access, m.name, m.descriptor, attributes⟩ : Member)
  simpa [toBytes] using hread

theorem consumes_read : Consumes Member.read fun m bytes => bytes = m.toBytes ∧ m.Fits := by
  refine Consumes.u16.bind fun access front₁ h₁ => Consumes.u16.bind fun name front₂ h₂ =>
    Consumes.u16.bind fun descriptor front₃ h₃ =>
      (consumes_counted Attribute.consumes_read).map _ ?_
  rintro attributes back ⟨rfl, hlength, hall⟩
  subst h₁ h₂ h₃
  exact ⟨by simp [toBytes], hlength, hall⟩

end Member

/-! ### Classes -/

namespace ClassFile

/-- The lengths of the parts behind the pool fit into their words. -/
structure PartsFit (c : ClassFile) : Prop where
  interfaces : c.interfaces.length < 65536
  fields : c.fields.length < 65536
  methods : c.methods.length < 65536
  attributes : c.attributes.length < 65536
  members : ∀ m ∈ c.fields ++ c.methods, m.Fits
  contents : ∀ a ∈ c.attributes, a.Fits

/-- The class can be written: all its parts fit, the pool among them. -/
structure Fits (c : ClassFile) : Prop extends PartsFit c where
  pool : c.pool.Fits

/-- What stands in front of the pool. -/
def front (c : ClassFile) : Bytes :=
  doubleWordBytes magic ++ wordBytes c.minorVersion ++ wordBytes c.majorVersion

/-- What stands behind the pool. -/
def back (c : ClassFile) : Bytes :=
  wordBytes c.access ++ wordBytes c.thisClass ++ wordBytes c.superClass
    ++ countedBytes wordBytes c.interfaces
    ++ countedBytes Member.toBytes c.fields
    ++ countedBytes Member.toBytes c.methods
    ++ countedBytes Attribute.toBytes c.attributes

theorem toBytes_eq (c : ClassFile) : c.toBytes = c.front ++ (c.pool.toBytes ++ c.back) := by
  simp [toBytes, front, back]

theorem length_front (c : ClassFile) : c.front.length = 8 := by
  simp [front, doubleWordBytes, wordBytes]

/-- **A class that fits is read back from its bytes.** -/
theorem parse_toBytes {c : ClassFile} (h : c.Fits) : parse c.toBytes = .ok c := by
  have hbytes : c.toBytes = doubleWordBytes magic ++ (wordBytes c.minorVersion ++
      (wordBytes c.majorVersion ++ (c.pool.toBytes ++ (wordBytes c.access ++
        (wordBytes c.thisClass ++ (wordBytes c.superClass ++
          (countedBytes wordBytes c.interfaces ++ (countedBytes Member.toBytes c.fields ++
            (countedBytes Member.toBytes c.methods ++
              (countedBytes Attribute.toBytes c.attributes ++ [])))))))))) := by
    simp [toBytes]
  have hmembers := List.forall_mem_append.1 h.members
  rw [parse, runOn, Cursor.start, hbytes, read]
  rw [Reads.bind_apply (Reads.doubleWordBytes _)]
  simp only [ne_eq, not_true_eq_false, if_false]
  rw [Reads.bind_apply (Reads.wordBytes _), Reads.bind_apply (Reads.wordBytes _),
    Reads.bind_apply (ConstantPool.reads_toBytes h.pool),
    Reads.bind_apply (Reads.wordBytes _), Reads.bind_apply (Reads.wordBytes _),
    Reads.bind_apply (Reads.wordBytes _),
    Reads.bind_apply (reads_counted h.interfaces fun w _ _ => Reads.wordBytes w),
    Reads.bind_apply (reads_counted h.fields fun m hm _ => Member.reads_toBytes (hmembers.1 m hm)),
    Reads.bind_apply (reads_counted h.methods fun m hm _ =>
      Member.reads_toBytes (hmembers.2 m hm)),
    Reads.bind_apply (reads_counted h.attributes fun a ha _ =>
      Attribute.reads_toBytes (h.contents a ha))]
  rfl

theorem exhausts_read : Exhausts read := by
  refine Exhausts.bind fun start => Exhausts.guard ?_
  iterate 10 refine Exhausts.bind fun _ => ?_
  exact Exhausts.check _ _

/-- What the bytes of a class are, field by field. Only the constants leave a
choice: the file may spell them in ways that are never written, and declare one
slot less than they take. -/
theorem consumes_read : Consumes read fun c bytes => c.PartsFit ∧ ∃ count entries values,
    Declares (UInt16.toNat count) 1 entries ∧ HasValues entries values ∧
      c.pool = .ofValues values ∧
      bytes = c.front ++ (wordBytes count ++ entryBytes entries ++ c.back) := by
  have hwords : Consumes (ε := FormatError) u16 fun w bytes => bytes = wordBytes w ∧ True :=
    Consumes.u16.mono fun _ _ h => ⟨h, trivial⟩
  -- In the order of the file: magic number, version, constants, the flags and names of
  -- the class, and then the four counted lists.
  refine Consumes.u32.bind fun start front₁ h₁ => Consumes.guard fun hmagic => ?_
  refine Consumes.u16.bind fun minor front₂ h₂ => Consumes.u16.bind fun major front₃ h₃ => ?_
  refine ConstantPool.consumes_read.bind fun pool front₄ hpool => ?_
  refine Consumes.u16.bind fun access front₅ h₅ => Consumes.u16.bind fun this front₆ h₆ =>
    Consumes.u16.bind fun super front₇ h₇ => ?_
  refine (consumes_counted hwords).bind fun interfaces front₈ h₈ =>
    (consumes_counted Member.consumes_read).bind fun fields front₉ h₉ =>
    (consumes_counted Member.consumes_read).bind fun methods front₁₀ h₁₀ =>
    (consumes_counted Attribute.consumes_read).bind fun attributes front₁₁ h₁₁ => ?_
  refine Consumes.get.bind fun cursor nothing hnothing => Consumes.guard fun _ => Consumes.pure ?_
  obtain ⟨count, entries, values, hentries, hvalues, rfl, rfl⟩ := hpool
  obtain ⟨rfl, hinterfaces, -⟩ := h₈
  obtain ⟨rfl, hfields, hfields'⟩ := h₉
  obtain ⟨rfl, hmethods, hmethods'⟩ := h₁₀
  obtain ⟨rfl, hattributes, hattributes'⟩ := h₁₁
  obtain rfl : start = magic := not_not.1 hmagic
  -- All parts but the constants are now the bytes of the fields that they were read as.
  subst h₁ h₂ h₃ h₅ h₆ h₇ hnothing
  refine ⟨⟨hinterfaces, hfields, hmethods, hattributes,
    List.forall_mem_append.2 ⟨hfields', hmethods'⟩, hattributes'⟩, count, entries, values,
    hentries, hvalues, rfl, ?_⟩
  simp [front, back]

/-- Behind its first eight bytes, the byte string states a number and declares
constants for the indices below it. -/
def DeclaresPool (bytes : Bytes) (count : UInt16) (entries : List (Nat × RawConstant)) : Prop :=
  ∃ front back : Bytes, front.length = 8 ∧
    bytes = front ++ (wordBytes count ++ entryBytes entries ++ back) ∧
    Declares count.toNat 1 entries

/-- The constants that a byte string declares are determined by it. -/
theorem DeclaresPool.eq {bytes : Bytes} {count count' : UInt16}
    {entries entries' : List (Nat × RawConstant)} (h : DeclaresPool bytes count entries)
    (h' : DeclaresPool bytes count' entries') : count = count' ∧ entries = entries' := by
  obtain ⟨front, back, hfront, rfl, hentries⟩ := h
  obtain ⟨front', back', hfront', heq, hentries'⟩ := h'
  have hpool := (List.append_inj heq (hfront.trans hfront'.symm)).2
  rw [List.append_assoc, List.append_assoc] at hpool
  obtain ⟨hcount, hrow⟩ := List.append_inj hpool (by simp only [length_wordBytes])
  obtain rfl := wordBytes_inj hcount
  exact ⟨rfl, hentries.eq_of_append hentries' hrow⟩

/-- What is read from a byte string can be written. -/
theorem fits_of_parse {bytes : Bytes} {c : ClassFile} (h : parse bytes = .ok c)
    (hsize : c.pool.size ≤ 65534) : c.Fits := by
  obtain ⟨hparts, count, entries, values, hentries, hvalues, hpool, -⟩ :=
    consumes_read.runOn exhausts_read h
  refine ⟨hparts, ?_⟩
  rw [hpool] at hsize ⊢
  exact ConstantPool.fits_ofValues hsize (hvalues.fits hentries.fits)

/-- **Class files are read back, and written as they were read.** A class that
fits is what its bytes are read as. A byte string that is a class file declares
its constants in one way, and comes back from reading and writing exactly if it
states the number of indices, spells every text canonically and has no wide
number at the last index; what is written is read as the same class in any
case. Left aside is a wide number at index 65534, whose second index is out of
range. -/
theorem round_trip :
    (∀ c : ClassFile, c.Fits → parse c.toBytes = .ok c) ∧
      ∀ (bytes : Bytes) (c : ClassFile), parse bytes = .ok c → c.pool.size ≤ 65534 →
        (∃ count entries, DeclaresPool bytes count entries) ∧
        (∀ count entries, DeclaresPool bytes count entries →
          (c.toBytes = bytes ↔ count ≠ 0 ∧ (∀ e ∈ entries, e.2.IsCanonical) ∧
            ∀ e ∈ entries, e.2.isWide → e.1 + 1 ≠ count.toNat)) ∧
        parse c.toBytes = .ok c := by
  refine ⟨fun c hc => parse_toBytes hc, fun bytes c hparse hsize => ?_⟩
  obtain ⟨-, count, entries, values, hentries, hvalues, hpool, rfl⟩ :=
    consumes_read.runOn exhausts_read hparse
  have hdeclares : DeclaresPool (c.front ++ (wordBytes count ++ entryBytes entries ++ c.back))
      count entries := ⟨c.front, c.back, c.length_front, rfl, hentries⟩
  refine ⟨⟨count, entries, hdeclares⟩, fun count' entries' hdeclares' => ?_,
    parse_toBytes (fits_of_parse hparse hsize)⟩
  obtain ⟨rfl, rfl⟩ := hdeclares.eq hdeclares'
  rw [hpool] at hsize
  rw [toBytes_eq, List.append_cancel_left_eq, List.append_cancel_right_eq, hpool]
  exact ConstantPool.toBytes_eq_iff hentries hvalues hsize

/-- A class file with a text in an unusual spelling, and with a wide number at
its last index. -/
def misspelt : Bytes :=
  [0xca, 0xfe, 0xba, 0xbe, 0, 0, 0, 50, 0, 3, 1, 0, 2, 0xc1, 0x81, 5, 0, 0, 0, 0, 0, 0, 0, 1,
    0, 0, 0, 0, 0, 0, 0, 0, 0, 0, 0, 0, 0, 0]

/-- The class in it. -/
def misspeltClass : ClassFile :=
  ⟨0, 50, ⟨#[.utf8 "A", .number (.long 1), .upperHalf]⟩, 0, 0, 0, [], [], [], []⟩

/-- A class with a name that is spelled in an unusual way: it is read and written,
but not byte by byte as it was. -/
theorem round_trip_misspelt :
    misspeltClass.Fits ∧ parse misspelt = .ok misspeltClass ∧ misspeltClass.toBytes ≠ misspelt ∧
      parse misspeltClass.toBytes = .ok misspeltClass := by
  have hparse : parse misspelt = .ok misspeltClass := by decide +kernel
  have hfits : misspeltClass.Fits := fits_of_parse hparse (by decide)
  have hdeclares : DeclaresPool misspelt 3
      [(1, .text [0xc1, 0x81]), (2, .plain (.number (.long 1)))] := by
    refine ⟨misspelt.take 8, List.replicate 14 0, by decide, by decide, ?_⟩
    exact .next (by decide) (by simp [RawConstant.Fits])
      (.next (by decide) trivial (.done (by decide)))
  obtain ⟨-, hwritten, -⟩ := round_trip.2 misspelt misspeltClass hparse (by decide)
  refine ⟨hfits, hparse, fun heq => ?_, round_trip.1 misspeltClass hfits⟩
  have hlast := ((hwritten 3 _ hdeclares).1 heq).2.2
  exact hlast _ (List.mem_cons_of_mem _ List.mem_cons_self) rfl rfl

/-- A class file that states 0 for its number of indices, where an empty pool
has the number 1. -/
def uncounted : Bytes :=
  [0xca, 0xfe, 0xba, 0xbe, 0, 0, 0, 50, 0, 0, 0, 0, 0, 0, 0, 0, 0, 0, 0, 0, 0, 0, 0, 0]

/-- The stated number has to be looked at: spellings and the last index alone do
not decide whether a class is written as it was read. -/
theorem round_trip_fails_uncounted :
    ¬ ∀ (bytes : Bytes) (c : ClassFile), parse bytes = .ok c → c.pool.size ≤ 65534 →
      ∀ count entries, DeclaresPool bytes count entries →
        (c.toBytes = bytes ↔ (∀ e ∈ entries, e.2.IsCanonical) ∧
          ∀ e ∈ entries, e.2.isWide → e.1 + 1 ≠ count.toNat) := by
  intro h
  have hparse : parse uncounted = .ok ⟨0, 50, {}, 0, 0, 0, [], [], [], []⟩ := by decide +kernel
  have hdeclares : DeclaresPool uncounted 0 [] :=
    ⟨uncounted.take 8, List.replicate 14 0, by decide, by decide, .done (by decide)⟩
  have heq := (h _ _ hparse (by decide) 0 [] hdeclares).2 ⟨by simp, by simp⟩
  exact absurd heq (by decide)

end ClassFile

end JvmOptimizer
