import JvmOptimizer.ClassFile.ConstantPool
import JvmOptimizer.Method

/-!
# Class files

A class file has a fixed frame: version, constant pool, flags, names,
interfaces, fields, methods. Everything else is in attributes, which have a name
and a length, so that a reader can carry those it does not know.

Every part has a reader and a writer side by side, and the parts follow each
other without gaps.
-/

namespace JvmOptimizer

open Reader

/-- Read a list with its 16-bit length in front. -/
def readCounted {α : Type} (read : Reader FormatError α) : Reader FormatError (List α) := do
  let count ← u16
  many read count.toNat

/-- A list with its 16-bit length in front. -/
def countedBytes {α : Type} (bytes : α → Bytes) (items : List α) : Bytes :=
  wordBytes (UInt16.ofNat items.length) ++ items.flatMap bytes

/-- Bytes with their 32-bit length in front. -/
def sizedBytes (bytes : Bytes) : Bytes :=
  doubleWordBytes (UInt32.ofNat bytes.length) ++ bytes

/-! ### Attributes -/

/-- An attribute with its contents as they are. -/
structure Attribute where
  /-- Pool index of the name. -/
  name : UInt16
  info : Bytes
  deriving DecidableEq

namespace Attribute

/-- The name of the attribute. -/
def name? (pool : ConstantPool) (a : Attribute) : Option String := pool.utf8? a.name

/-- The attribute as it stands in a class file. -/
def toBytes (a : Attribute) : Bytes := wordBytes a.name ++ sizedBytes a.info

/-- Read an attribute. -/
def read : Reader FormatError Attribute := do
  let name ← u16
  let length ← u32
  return ⟨name, ← take length.toNat⟩

end Attribute

/-! ### Method bodies -/

/-- The contents of a `Code` attribute. -/
structure CodeAttribute where
  maxStack : UInt16
  maxLocals : UInt16
  code : Bytes
  exceptions : List ExceptionEntry
  attributes : List Attribute
  deriving DecidableEq

namespace CodeAttribute

/-- The contents as they stand in a class file. -/
def toBytes (c : CodeAttribute) : Bytes :=
  wordBytes c.maxStack ++ wordBytes c.maxLocals ++ sizedBytes c.code
    ++ countedBytes ExceptionEntry.toBytes c.exceptions
    ++ countedBytes Attribute.toBytes c.attributes

/-- Read a row of the exception table. -/
def readException : Reader FormatError ExceptionEntry := do
  let startPc ← u16
  let endPc ← u16
  let handlerPc ← u16
  return ⟨startPc, endPc, handlerPc, ← u16⟩

/-- Read the contents of a `Code` attribute. A body has code, and nothing comes
behind its attributes. -/
def read : Reader FormatError CodeAttribute := do
  let maxStack ← u16
  let maxLocals ← u16
  let length ← u32
  if length = 0 then
    throw .emptyCode
  let code ← take length.toNat
  let exceptions ← readCounted readException
  let attributes ← readCounted Attribute.read
  let rest := (← get).rest.length
  if rest ≠ 0 then
    throw (.trailingCode rest)
  return ⟨maxStack, maxLocals, code, exceptions, attributes⟩

/-- The contents of a `Code` attribute from its bytes. -/
def parse (info : Bytes) : Except FormatError CodeAttribute := read.runOn info

/-- The body without the attributes of these names. -/
def strip (pool : ConstantPool) (names : List String) (c : CodeAttribute) : CodeAttribute :=
  { c with attributes := c.attributes.filter fun a => !(a.name? pool).any names.contains }

end CodeAttribute

/-! ### Members -/

/-- A field or method. -/
structure Member where
  access : UInt16
  /-- Pool index of the name. -/
  name : UInt16
  /-- Pool index of the descriptor. -/
  descriptor : UInt16
  attributes : List Attribute
  deriving DecidableEq

namespace Member

/-- The name of the member. -/
def name? (pool : ConstantPool) (m : Member) : Option String := pool.utf8? m.name

/-- The descriptor of the member. -/
def descriptor? (pool : ConstantPool) (m : Member) : Option String := pool.utf8? m.descriptor

/-- Does the member belong to the class rather than to its instances? -/
def isStatic (m : Member) : Bool := m.access &&& 0x0008 != 0

/-- Does a method with these flags have a body? Abstract and native ones have
none. -/
def hasBody (m : Member) : Bool := m.access &&& 0x0500 == 0

/-- The place of the method body among the attributes. -/
def codeIndex? (pool : ConstantPool) (m : Member) : Option Nat :=
  m.attributes.findIdx? fun a => a.name? pool = some "Code"

/-- The bytes of the method body. -/
def code? (pool : ConstantPool) (m : Member) : Option Bytes :=
  (m.attributes.find? fun a => a.name? pool = some "Code").map (·.info)

/-- The method with another body. -/
def replaceCode (pool : ConstantPool) (info : Bytes) (m : Member) : Member :=
  match m.codeIndex? pool with
  | some i => { m with attributes := m.attributes.modify i fun a => { a with info } }
  | none => m

/-- The member as it stands in a class file. -/
def toBytes (m : Member) : Bytes :=
  wordBytes m.access ++ wordBytes m.name ++ wordBytes m.descriptor
    ++ countedBytes Attribute.toBytes m.attributes

/-- Read a member. -/
def read : Reader FormatError Member := do
  let access ← u16
  let name ← u16
  let descriptor ← u16
  return ⟨access, name, descriptor, ← readCounted Attribute.read⟩

end Member

/-! ### Classes -/

/-- A class. -/
structure ClassFile where
  minorVersion : UInt16
  majorVersion : UInt16
  pool : ConstantPool
  access : UInt16
  /-- Pool index of the class itself. -/
  thisClass : UInt16
  /-- Pool index of the superclass, zero for none. -/
  superClass : UInt16
  /-- Pool indices of the interfaces. -/
  interfaces : List UInt16
  fields : List Member
  methods : List Member
  attributes : List Attribute
  deriving DecidableEq

namespace ClassFile

/-- The first four bytes of every class file. -/
def magic : UInt32 := 0xcafebabe

/-- The name of the class. -/
def name? (c : ClassFile) : Option String := c.pool.className? c.thisClass

/-- Is the class an interface? -/
def isInterface (c : ClassFile) : Bool := c.access &&& 0x0200 != 0

/-- The bytes of a class file. -/
def toBytes (c : ClassFile) : Bytes :=
  doubleWordBytes magic ++ wordBytes c.minorVersion ++ wordBytes c.majorVersion
    ++ c.pool.toBytes
    ++ wordBytes c.access ++ wordBytes c.thisClass ++ wordBytes c.superClass
    ++ countedBytes wordBytes c.interfaces
    ++ countedBytes Member.toBytes c.fields
    ++ countedBytes Member.toBytes c.methods
    ++ countedBytes Attribute.toBytes c.attributes

/-- Read a class file, of which nothing may be left over. -/
def read : Reader FormatError ClassFile := do
  let start ← u32
  if start ≠ magic then
    throw (.badMagic start)
  let minorVersion ← u16
  let majorVersion ← u16
  let pool ← ConstantPool.read
  let access ← u16
  let thisClass ← u16
  let superClass ← u16
  let interfaces ← readCounted u16
  let fields ← readCounted Member.read
  let methods ← readCounted Member.read
  let attributes ← readCounted Attribute.read
  let rest := (← get).rest.length
  if rest ≠ 0 then
    throw (.trailingBytes rest)
  return {
    minorVersion, majorVersion, pool, access, thisClass, superClass
    interfaces, fields, methods, attributes }

/-- The class of a byte string. -/
def parse (bytes : Bytes) : Except FormatError ClassFile := read.runOn bytes

end ClassFile

end JvmOptimizer
