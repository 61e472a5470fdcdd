/-!
# Descriptors

The text that gives the type of a field or method. Only sizes matter here: a
`long` or `double` takes two slots, every other type one.

```text
field  ::= B | C | F | I | S | Z | J | D | L name ; | [ field
method ::= ( field* ) (field | V)
```
-/

namespace JvmOptimizer.Descriptor

/-- Read one field type: its slots and the text behind it. An array is one slot
whatever its elements are. -/
def fieldType? : List Char → Option (Nat × List Char)
  | '[' :: element => (fieldType? element).map fun r => (1, r.2)
  | 'L' :: name =>
      match name.dropWhile (· != ';') with
      | _ :: rest => some (1, rest)
      | [] => none
  | c :: rest =>
      if c ∈ ['B', 'C', 'F', 'I', 'S', 'Z'] then some (1, rest)
      else if c ∈ ['J', 'D'] then some (2, rest)
      else none
  | [] => none

private theorem length_dropWhile_le (p : Char → Bool) (s : List Char) :
    (s.dropWhile p).length ≤ s.length :=
  (List.dropWhile_sublist p).length_le

/-- A field type takes at least one character. -/
theorem length_lt_of_fieldType? {s rest : List Char} {slots : Nat}
    (h : fieldType? s = some (slots, rest)) : rest.length < s.length := by
  fun_induction fieldType? s generalizing slots rest with
  | case1 element ih =>
    obtain ⟨r, hr, heq⟩ := Option.map_eq_some_iff.1 h
    cases heq
    exact Nat.lt_succ_of_lt (ih hr)
  | case2 name c rest' hdrop =>
    cases h
    have := length_dropWhile_le (· != ';') name
    rw [hdrop] at this
    simp only [List.length_cons] at this ⊢
    omega
  | case3 => simp at h
  | case4 => cases h; simp
  | case5 => cases h; simp
  | case6 => simp at h
  | case7 => simp at h

/-- Read field types up to a closing parenthesis: the sum of their slots and
the text behind the parenthesis. -/
def parameters? (s : List Char) : Option (Nat × List Char) :=
  if s.head? = some ')' then
    some (0, s.tail)
  else
    match h : fieldType? s with
    | none => none
    | some (slots, rest) =>
        have := length_lt_of_fieldType? h
        (parameters? rest).map fun r => (slots + r.1, r.2)
termination_by s.length

/-- The sizes that a method descriptor gives. -/
structure MethodShape where
  /-- Slots of the declared parameters, without a receiver. -/
  parameterSlots : Nat
  /-- Slots of the result, zero for a method without one. -/
  returnSlots : Nat
  deriving DecidableEq

/-- Slots that the arguments of a call take, with or without a receiver. They are
counted in 16 bits, so 65535 slots and a receiver come to none. -/
def MethodShape.argumentSlots (shape : MethodShape) (receiver : Bool) : UInt16 :=
  UInt16.ofNat (shape.parameterSlots + receiver.toNat)

/-- The slots of a result type that is the whole text. -/
def returnSlots? : List Char → Option Nat
  | ['V'] => some 0
  | s =>
      match fieldType? s with
      | some (slots, []) => some slots
      | _ => none

/-- The slots of a field descriptor. -/
def fieldSlots? (descriptor : String) : Option Nat :=
  match fieldType? descriptor.toList with
  | some (slots, []) => some slots
  | _ => none

/-- The sizes of a method descriptor. Parameters take at most 65535 slots. -/
def methodShape? (descriptor : String) : Option MethodShape :=
  match descriptor.toList with
  | '(' :: rest => do
      let (parameterSlots, result) ← parameters? rest
      let returnSlots ← returnSlots? result
      if parameterSlots ≤ 65535 then some ⟨parameterSlots, returnSlots⟩ else none
  | _ => none

end JvmOptimizer.Descriptor
