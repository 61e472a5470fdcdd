import JvmOptimizer.Proofs.ClassFile.RoundTrip

/-!
# Payloads of `Code` attributes

Unlike a class file with its constants, the contents of a `Code` attribute can be
spelled in one way only: every count and every length stands where it is read,
and nothing is read leniently. So reading and writing are inverse to each other.
Taking nested attributes out keeps what is written readable, since the counts are
written anew and only get smaller.
-/

namespace JvmOptimizer.CodeAttribute

open Reader

variable {c : CodeAttribute} {info : Bytes}

theorem consumes_exception : Consumes readException fun e bytes => bytes = e.toBytes ∧ True := by
  refine Consumes.u16.bind fun startPc front₁ h₁ => Consumes.u16.bind fun endPc front₂ h₂ =>
    Consumes.u16.bind fun handlerPc front₃ h₃ => Consumes.u16.map _ fun catchType back h₄ => ?_
  subst h₁ h₂ h₃ h₄
  exact ⟨by simp [ExceptionEntry.toBytes], trivial⟩

/-- A code attribute has one spelling: every field is of a fixed width or counted.
-/
theorem consumes_read : Consumes read fun c bytes => bytes = c.toBytes := by
  refine Consumes.u16.bind fun maxStack front₁ h₁ => Consumes.u16.bind fun maxLocals front₂ h₂ =>
    Consumes.u32.bind fun length front₃ h₃ => Consumes.guard fun _ => ?_
  refine (Consumes.take _).bind fun code front₄ h₄ => ?_
  refine (consumes_counted consumes_exception).bind fun exceptions front₅ h₅ => ?_
  refine (consumes_counted Attribute.consumes_read).bind fun attributes front₆ h₆ => ?_
  refine Consumes.get.bind fun cursor nothing hnothing => Consumes.guard fun _ => Consumes.pure ?_
  obtain ⟨rfl, hlength⟩ := h₄
  obtain ⟨rfl, -⟩ := h₅
  obtain ⟨rfl, -⟩ := h₆
  -- The word in front of the code is the one that its length gives.
  have hword : UInt32.ofNat front₄.length = length := by rw [hlength, UInt32.ofNat_toNat]
  subst h₁ h₂ h₃ hnothing
  simp [toBytes, sizedBytes, hword]

/-- The contents of an attribute end where the attribute does. -/
theorem exhausts_read : Exhausts read := by
  refine Exhausts.bind fun maxStack => Exhausts.bind fun maxLocals =>
    Exhausts.bind fun length => Exhausts.guard ?_
  refine Exhausts.bind fun code => Exhausts.bind fun exceptions =>
    Exhausts.bind fun attributes => ?_
  exact Exhausts.check _ _

/-- What is read is written as it was. -/
theorem toBytes_of_parse (h : parse info = .ok c) : c.toBytes = info :=
  (consumes_read.runOn exhausts_read h).symm

/-- An attribute stays unless its name is one of those to be taken out. -/
theorem strip_eq (pool : ConstantPool) (names : List String) (c : CodeAttribute) :
    c.strip pool names = { c with
      attributes := c.attributes.filter fun a => ∀ name ∈ names, a.name? pool ≠ some name } := by
  have hkeep : ∀ a : Attribute, (!(a.name? pool).any names.contains) =
      decide (∀ name ∈ names, a.name? pool ≠ some name) := by
    intro a
    cases hname : a.name? pool with
    | none => simp
    | some name =>
        rw [Bool.eq_iff_iff]
        simp only [Option.any_some, Bool.not_eq_true', List.contains_eq_mem, decide_eq_false_iff_not,
          decide_eq_true_eq, ne_eq, Option.some.injEq]
        constructor
        · intro hnot other hmem heq
          exact hnot (heq ▸ hmem)
        · intro hall hmem
          exact hall name hmem rfl
  simp only [strip, hkeep]

/-- **Payloads are read and written exactly.** What was read is written with the
same bytes; what fits is read back; and what was read can lose nested attributes
by their names and is still read back, with the others in their order and
everything else as it was. -/
theorem payload_round_trip :
    (∀ (info : Bytes) (c : CodeAttribute), parse info = .ok c → c.toBytes = info) ∧
      (∀ c : CodeAttribute, c.Fits → parse c.toBytes = .ok c) ∧
      ∀ (info : Bytes) (c : CodeAttribute) (pool : ConstantPool) (names : List String),
        parse info = .ok c → parse (c.strip pool names).toBytes = .ok { c with
          attributes := c.attributes.filter fun a =>
            ∀ name ∈ names, a.name? pool ≠ some name } := by
  refine ⟨fun info c h => toBytes_of_parse h, fun c h => parse_toBytes h, ?_⟩
  intro info c pool names h
  have hfits := (fits_of_parse h).strip pool names
  rw [parse_toBytes hfits, strip_eq]

/-- A body with a handler and two attributes, of which the first has a name. -/
def numberedLines : Bytes :=
  [0, 2, 0, 3, 0, 0, 0, 3, 0x04, 0x3c, 0xb1, 0, 1, 0, 0, 0, 2, 0, 2, 0, 0,
    0, 2, 0, 1, 0, 0, 0, 2, 0, 0, 0, 9, 0, 0, 0, 1, 7]

/-- The contents of the body. -/
def numberedLinesCode : CodeAttribute :=
  ⟨2, 3, [0x04, 0x3c, 0xb1], [⟨0, 2, 2, 0⟩], [⟨1, [0, 0]⟩, ⟨9, [7]⟩]⟩

/-- A body with line numbers, which are dropped, and with another attribute. -/
theorem payload_round_trip_numberedLines :
    parse numberedLines = .ok numberedLinesCode ∧ numberedLinesCode.toBytes = numberedLines ∧
      numberedLinesCode.Fits ∧ parse numberedLinesCode.toBytes = .ok numberedLinesCode ∧
      parse (numberedLinesCode.strip ⟨#[.utf8 "LineNumberTable"]⟩ ["LineNumberTable"]).toBytes =
        .ok { numberedLinesCode with attributes := [⟨9, [7]⟩] } := by
  have hparse : parse numberedLines = .ok numberedLinesCode := by decide +kernel
  have hfits : numberedLinesCode.Fits := fits_of_parse hparse
  refine ⟨hparse, payload_round_trip.1 _ _ hparse, hfits, payload_round_trip.2.1 _ hfits, ?_⟩
  exact (payload_round_trip.2.2 _ _ ⟨#[.utf8 "LineNumberTable"]⟩ ["LineNumberTable"] hparse).trans
    (by decide +kernel)

end JvmOptimizer.CodeAttribute
