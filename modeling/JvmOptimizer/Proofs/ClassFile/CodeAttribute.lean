import JvmOptimizer.ClassFile.Basic
import JvmOptimizer.Proofs.Bytes

/-!
# Reading back the contents of a `Code` attribute

The parts of a `Code` attribute stand behind each other, with their lengths in
front. They are read back as they were if the words for the lengths can hold
them (`CodeAttribute.Fits`), which is so of everything that was read.
-/

namespace JvmOptimizer

open Reader

/-! ### Lists and attributes -/

section Counted

variable {α : Type} {read : Reader FormatError α} {spell : α → Bytes} {items : List α}
  {start : Nat}

/-- A counted list is read back if the count fits into its 16 bits. -/
theorem reads_counted (hlength : items.length < 65536)
    (h : ∀ a ∈ items, ∀ start, Reads read start (spell a) a) :
    Reads (readCounted read) start (countedBytes spell items) items := by
  have hcount : (UInt16.ofNat items.length).toNat = items.length :=
    UInt16.toNat_ofNat_of_lt' hlength
  have hitems : Reads (many read items.length)
      (start + (wordBytes (UInt16.ofNat items.length)).length) (items.flatMap spell) items := by
    simpa using Reads.many h
  refine (Reads.wordBytes _).bind ?_
  rwa [hcount]

/-- What a counted list is read as has a count of 16 bits, whatever the items are.
-/
theorem yields_counted {P : α → Prop} (h : Yields read P) :
    Yields (readCounted read) fun items => items.length < 65536 ∧ ∀ a ∈ items, P a := by
  refine Yields.bind_any fun count => ?_
  intro cursor items cursor' hread
  obtain ⟨hlength, hall⟩ := h.many count.toNat _ _ _ hread
  exact ⟨hlength ▸ count.toNat_lt, hall⟩

end Counted

namespace Attribute

/-- The length of the contents fits into its word. -/
def Fits (a : Attribute) : Prop := a.info.length < 2 ^ 32

theorem reads_toBytes {a : Attribute} {start : Nat} (h : a.Fits) :
    Reads Attribute.read start a.toBytes a := by
  have hlength : (UInt32.ofNat a.info.length).toNat = a.info.length :=
    UInt32.toNat_ofNat_of_lt' h
  refine (Reads.wordBytes a.name).bind ((Reads.doubleWordBytes _).bind ?_)
  rw [hlength]
  exact (Reads.take a.info).map fun info => (⟨a.name, info⟩ : Attribute)

theorem yields_read : Yields Attribute.read Fits := by
  refine Yields.bind_any fun name => Yields.bind_any fun length => ?_
  refine (Yields.take _).bind fun info hinfo => Yields.pure ?_
  rw [Fits, hinfo]
  exact length.toNat_lt

end Attribute

/-! ### Method bodies -/

namespace CodeAttribute

theorem reads_exception {start : Nat} (e : ExceptionEntry) :
    Reads readException start e.toBytes e := by
  have h : Reads readException start (wordBytes e.startPc ++ (wordBytes e.endPc ++
      (wordBytes e.handlerPc ++ wordBytes e.catchType))) e :=
    (Reads.wordBytes _).bind <| (Reads.wordBytes _).bind <| (Reads.wordBytes _).bind <|
      (Reads.wordBytes e.catchType).map fun catchType =>
        (⟨e.startPc, e.endPc, e.handlerPc, catchType⟩ : ExceptionEntry)
  simpa [ExceptionEntry.toBytes] using h

/-- There is code, and all lengths fit into their words. -/
structure Fits (c : CodeAttribute) : Prop where
  code_ne : c.code ≠ []
  code_lt : c.code.length < 2 ^ 32
  exceptions : c.exceptions.length < 65536
  attributes : c.attributes.length < 65536
  contents : ∀ a ∈ c.attributes, a.Fits

/-- Without some of its attributes the body fits as before. -/
theorem Fits.strip {c : CodeAttribute} (h : c.Fits) (pool : ConstantPool) (names : List String) :
    (c.strip pool names).Fits where
  code_ne := h.code_ne
  code_lt := h.code_lt
  exceptions := h.exceptions
  attributes := Nat.lt_of_le_of_lt (List.length_filter_le _ _) h.attributes
  contents a ha := h.contents a (List.mem_filter.1 ha).1

/-- **The contents of a `Code` attribute are read back.** -/
theorem parse_toBytes {c : CodeAttribute} (h : c.Fits) : parse c.toBytes = .ok c := by
  have hlength : (UInt32.ofNat c.code.length).toNat = c.code.length :=
    UInt32.toNat_ofNat_of_lt' h.code_lt
  have hne : UInt32.ofNat c.code.length ≠ 0 := by
    intro h0
    rw [h0] at hlength
    exact h.code_ne (List.length_eq_zero_iff.1 hlength.symm)
  have hbytes : c.toBytes = wordBytes c.maxStack ++ (wordBytes c.maxLocals ++
      (doubleWordBytes (UInt32.ofNat c.code.length) ++ (c.code ++
        (countedBytes ExceptionEntry.toBytes c.exceptions ++
          (countedBytes Attribute.toBytes c.attributes ++ []))))) := by
    simp [toBytes, sizedBytes]
  rw [parse, runOn, Cursor.start, hbytes, read]
  rw [Reads.bind_apply (Reads.wordBytes _), Reads.bind_apply (Reads.wordBytes _),
    Reads.bind_apply (Reads.doubleWordBytes _)]
  simp only [if_neg hne, hlength]
  rw [Reads.bind_apply (Reads.take _),
    Reads.bind_apply (reads_counted h.exceptions fun e _ _ => reads_exception e),
    Reads.bind_apply (reads_counted h.attributes fun a ha _ =>
      Attribute.reads_toBytes (h.contents a ha))]
  rfl

/-- A body without code can be written, but not read. -/
theorem parse_toBytes_of_nil {c : CodeAttribute} (h : c.code = []) :
    parse c.toBytes = .error .emptyCode := by
  have hbytes : c.toBytes = wordBytes c.maxStack ++ (wordBytes c.maxLocals ++
      (doubleWordBytes 0 ++ (countedBytes ExceptionEntry.toBytes c.exceptions ++
        countedBytes Attribute.toBytes c.attributes))) := by
    simp [toBytes, sizedBytes, h]
  rw [parse, runOn, Cursor.start, hbytes, read]
  rw [Reads.bind_apply (Reads.wordBytes _), Reads.bind_apply (Reads.wordBytes _),
    Reads.bind_apply (Reads.doubleWordBytes _)]
  rfl

theorem yields_read : Yields read Fits := by
  refine Yields.bind_any fun maxStack => Yields.bind_any fun maxLocals =>
    Yields.bind_any fun length => Yields.guard fun hzero => ?_
  refine (Yields.take _).bind fun code hcode => ?_
  refine (yields_counted (Yields.any _)).bind fun exceptions hexceptions => ?_
  refine (yields_counted Attribute.yields_read).bind fun attributes hattributes => ?_
  refine Yields.bind_any fun cursor => Yields.guard fun _ => Yields.pure ?_
  refine ⟨fun hnil => ?_, ?_, hexceptions.1, hattributes.1, hattributes.2⟩
  · rw [show code = [] from hnil] at hcode
    exact hzero (UInt32.toNat_inj.1 hcode.symm)
  · rw [hcode]
    exact length.toNat_lt

/-- What was read fits. -/
theorem fits_of_parse {info : Bytes} {c : CodeAttribute} (h : parse info = .ok c) : c.Fits :=
  yields_read.runOn h

end CodeAttribute

end JvmOptimizer
