import JvmOptimizer.ClassFile.FormatError
import JvmOptimizer.ClassFile.ModifiedUtf8
import JvmOptimizer.Pool.Basic

/-!
# The constant pool of a class

Constants refer to each other and are referred to by index. Indices start at 1;
a `long` or `double` takes two, of which the second holds nothing and is not
written to the file.

A pool only grows, and an equal constant is never put in twice, so an index
keeps its meaning once it is given out.
-/

namespace JvmOptimizer

/-- A constant. Parameters of type `UInt16` are indices of other constants. -/
inductive Constant
  | utf8 (text : String)
  /-- One of the four kinds of numbers. -/
  | number (value : Value)
  | className (name : UInt16)
  | string (text : UInt16)
  | fieldRef (owner nameAndType : UInt16)
  | methodRef (owner nameAndType : UInt16)
  | interfaceMethodRef (owner nameAndType : UInt16)
  | nameAndType (name descriptor : UInt16)
  | methodHandle (kind : UInt8) (reference : UInt16)
  | methodType (descriptor : UInt16)
  /-- A constant computed by a bootstrap method. -/
  | dynamic (bootstrap nameAndType : UInt16)
  /-- A call site linked by a bootstrap method. -/
  | invokeDynamic (bootstrap nameAndType : UInt16)
  | moduleName (name : UInt16)
  | packageName (name : UInt16)
  /-- The second slot of a wide number. -/
  | upperHalf
  deriving DecidableEq

namespace Constant

/-- Does the constant take two indices? -/
def isWide : Constant → Bool
  | number v => v.slots == 2
  | _ => false

/-- Number of indices that the constant takes. -/
def slots (c : Constant) : Nat := if c.isWide then 2 else 1

/-- Is a constant the one that is looked for? The second slot of a wide number is
no constant and never found. -/
def isSame (c sought : Constant) : Bool := c = sought && c ≠ .upperHalf

/-- Does the constant need a class version with dynamic linkage? -/
def isDynamic : Constant → Bool
  | methodHandle .. => true
  | methodType _ => true
  | dynamic .. => true
  | invokeDynamic .. => true
  | _ => false

/-- Does the constant need a class version with modules? -/
def isModular : Constant → Bool
  | moduleName _ => true
  | packageName _ => true
  | _ => false

/-! ### Bytes -/

/-- The bytes of a number, with its tag. -/
def numberBytes : Value → Bytes
  | .int v => 3 :: doubleWordBytes v.toUInt32
  | .float bits => 4 :: doubleWordBytes bits
  | .long v => 5 :: quadWordBytes v.toUInt64
  | .double bits => 6 :: quadWordBytes bits

/-- The bytes of a constant, with its tag. -/
def toBytes : Constant → Bytes
  | utf8 text =>
      let bytes := ModifiedUtf8.encode text
      1 :: wordBytes (UInt16.ofNat bytes.length) ++ bytes
  | number v => numberBytes v
  | className name => 7 :: wordBytes name
  | string text => 8 :: wordBytes text
  | fieldRef owner nt => 9 :: wordBytes owner ++ wordBytes nt
  | methodRef owner nt => 10 :: wordBytes owner ++ wordBytes nt
  | interfaceMethodRef owner nt => 11 :: wordBytes owner ++ wordBytes nt
  | nameAndType name descriptor => 12 :: wordBytes name ++ wordBytes descriptor
  | methodHandle kind reference => 15 :: kind :: wordBytes reference
  | methodType descriptor => 16 :: wordBytes descriptor
  | dynamic bootstrap nt => 17 :: wordBytes bootstrap ++ wordBytes nt
  | invokeDynamic bootstrap nt => 18 :: wordBytes bootstrap ++ wordBytes nt
  | moduleName name => 19 :: wordBytes name
  | packageName name => 20 :: wordBytes name
  | upperHalf => []

open Reader

/-- A constant made from an index. -/
def readIndex (make : UInt16 → Constant) : Reader FormatError Constant := return make (← u16)

/-- A constant made from two indices. -/
def readPair (make : UInt16 → UInt16 → Constant) : Reader FormatError Constant := do
  let first ← u16
  return make first (← u16)

/-- A text constant, for the index that it is going to have. -/
def readUtf8 (index : Nat) : Reader FormatError Constant := do
  let length ← u16
  let bytes ← take length.toNat
  match ModifiedUtf8.decode? bytes with
  | some text => return utf8 text
  | none => throw (.badUtf8 index)

/-- A constant, for the index that it is going to have. -/
def read (index : Nat) : Reader FormatError Constant := do
  let tag ← u8
  match tag.toNat with
  | 1 => readUtf8 index
  | 3 => return number (.int (← i32))
  | 4 => return number (.float (← u32))
  | 5 => return number (.long (← i64))
  | 6 => return number (.double (← u64))
  | 7 => readIndex className
  | 8 => readIndex string
  | 9 => readPair fieldRef
  | 10 => readPair methodRef
  | 11 => readPair interfaceMethodRef
  | 12 => readPair nameAndType
  | 15 => do
      let kind ← u8
      return methodHandle kind (← u16)
  | 16 => readIndex methodType
  | 17 => readPair dynamic
  | 18 => readPair invokeDynamic
  | 19 => readIndex moduleName
  | 20 => readIndex packageName
  | _ => throw (.badConstantTag tag index)

end Constant

/-- The constants of a class, from index 1 on. -/
structure ConstantPool where
  constants : Array Constant := #[]
  deriving DecidableEq

namespace ConstantPool

variable (p : ConstantPool)

/-- Number of indices in use. -/
def size : Nat := p.constants.size

/-- The number that a class file states in front of its constants: one more
than the last index. -/
def count : UInt16 := UInt16.ofNat (p.size + 1)

/-- The pool with a constant at the end. -/
def push (c : Constant) : ConstantPool :=
  let constants := p.constants.push c
  ⟨if c.isWide then constants.push .upperHalf else constants⟩

/-! ### Looking up -/

/-- The constant at an index. -/
def get? (index : UInt16) : Option Constant :=
  if index = 0 then none else (p.constants[index.toNat - 1]?).filter (· ≠ .upperHalf)

/-- The text at an index. -/
def utf8? (index : UInt16) : Option String :=
  match p.get? index with
  | some (.utf8 text) => some text
  | _ => none

/-- The name of the class at an index. -/
def className? (index : UInt16) : Option String :=
  match p.get? index with
  | some (.className name) => p.utf8? name
  | _ => none

/-- The descriptor of the name and type at an index. -/
def typeDescriptor? (index : UInt16) : Option String :=
  match p.get? index with
  | some (.nameAndType _ descriptor) => p.utf8? descriptor
  | _ => none

/-- The descriptor of the field, method or call site at an index. -/
def memberDescriptor? (index : UInt16) : Option String :=
  match p.get? index with
  | some (.fieldRef _ nt) => p.typeDescriptor? nt
  | some (.methodRef _ nt) => p.typeDescriptor? nt
  | some (.interfaceMethodRef _ nt) => p.typeDescriptor? nt
  | some (.dynamic _ nt) => p.typeDescriptor? nt
  | some (.invokeDynamic _ nt) => p.typeDescriptor? nt
  | _ => none

/-- The number at an index. -/
def number? (index : UInt16) : Option Value :=
  match p.get? index with
  | some (.number v) => some v
  | _ => none

/-- Does an interface method stand at an index? -/
def isInterfaceMethod (index : UInt16) : Bool :=
  match p.get? index with
  | some (.interfaceMethodRef ..) => true
  | _ => false

/-- Does any constant need a class version with dynamic linkage? -/
def hasDynamic : Bool := p.constants.any (·.isDynamic)

/-- Does any constant need a class version with modules? -/
def hasModular : Bool := p.constants.any (·.isModular)

/-! ### Adding -/

/-- The index of a constant, which is put at the end if it is not there yet.
The last index of a pool is 65534. -/
def add (c : Constant) : Except PoolError (UInt16 × ConstantPool) :=
  match p.constants.findIdx? (·.isSame c) with
  | some i => .ok (UInt16.ofNat (i + 1), p)
  | none =>
      if p.size + c.slots > 65534 then
        .error .outOfSpace
      else
        .ok (UInt16.ofNat (p.size + 1), p.push c)

instance : Pool ConstantPool where
  resolve? := number?
  intern v p := p.add (.number v)
  memberDescriptor? := memberDescriptor?

/-- Additions to a pool. One that fails keeps the constants put in before. -/
abbrev Addition := ExceptT PoolError (StateM ConstantPool)

namespace Addition

/-- Add a constant. -/
def constant (c : Constant) : Addition UInt16 := do
  match (← get).add c with
  | .ok (index, pool) =>
      set pool
      return index
  | .error e => throw e

/-- Add a text. -/
def utf8 (text : String) : Addition UInt16 := constant (.utf8 text)

/-- Add a class by its name. -/
def className (name : String) : Addition UInt16 := do
  constant (.className (← utf8 name))

/-- Add a string constant by its text. -/
def string (text : String) : Addition UInt16 := do
  constant (.string (← utf8 text))

/-- Add a name and type. -/
def nameAndType (name descriptor : String) : Addition UInt16 := do
  let name ← utf8 name
  constant (.nameAndType name (← utf8 descriptor))

/-- Add a field by its class, name and type. -/
def fieldRef (owner name descriptor : String) : Addition UInt16 := do
  let owner ← className owner
  constant (.fieldRef owner (← nameAndType name descriptor))

/-- Add a method by its class, name and type. -/
def methodRef (owner name descriptor : String) : Addition UInt16 := do
  let owner ← className owner
  constant (.methodRef owner (← nameAndType name descriptor))

end Addition

/-! ### Bytes -/

/-- The pool as it stands in a class file. -/
def toBytes : Bytes := wordBytes p.count ++ p.constants.toList.flatMap Constant.toBytes

/-- The constants up to the index `count`, behind those already read. -/
def readFrom (count index : Nat) (pool : ConstantPool) : Reader FormatError ConstantPool :=
  if index < count then do
    let c ← Constant.read index
    if c.isWide then
      readFrom count (index + 2) (pool.push c)
    else
      readFrom count (index + 1) (pool.push c)
  else
    return pool
termination_by count - index

/-- Read a pool. A wide number may be declared at the last index, and then takes
the one behind it as well. -/
def read : Reader FormatError ConstantPool := do
  let count ← Reader.u16
  readFrom count.toNat 1 {}

end ConstantPool

end JvmOptimizer
