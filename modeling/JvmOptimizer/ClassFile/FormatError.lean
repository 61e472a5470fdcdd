import JvmOptimizer.Instruction.Text

/-!
# Class format errors

What can be wrong with the bytes of a class file.
-/

namespace JvmOptimizer

/-- Why bytes are not a class file. -/
inductive FormatError
  /-- The bytes end too early. -/
  | truncated (offset missing : Nat)
  /-- The file does not start like a class file. -/
  | badMagic (magic : UInt32)
  /-- A constant is of no known kind. -/
  | badConstantTag (tag : UInt8) (index : Nat)
  /-- A text constant is not modified UTF-8. -/
  | badUtf8 (index : Nat)
  /-- There are bytes behind the class. -/
  | trailingBytes (count : Nat)
  /-- A method has a body without code. -/
  | emptyCode
  /-- There are bytes behind the body of a method. -/
  | trailingCode (count : Nat)
  deriving DecidableEq

/-- The text of a format error. -/
def FormatError.message : FormatError → String
  | truncated offset missing =>
      s!"Class file truncated at offset {offset}, needed {missing} more byte(s)"
  | badMagic magic => s!"Bad magic number 0x{hexDigits 8 magic.toNat}"
  | badConstantTag tag index => s!"Unknown constant pool tag {tag.toNat} at index {index}"
  | badUtf8 index => s!"Constant {index} is not valid modified UTF-8"
  | trailingBytes count => s!"{count} trailing byte(s) after the class file"
  | emptyCode => "Malformed Code attribute: empty code array"
  | trailingCode count => s!"Malformed Code attribute: {count} byte(s) past the last attribute"

instance : Truncation FormatError where
  truncated := .truncated

end JvmOptimizer
