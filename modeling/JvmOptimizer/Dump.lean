import JvmOptimizer.ClassFile.Version
import JvmOptimizer.Descriptor

/-!
# Class listings

A class as text: its name and version, then every method with its limits and
instructions.
-/

namespace JvmOptimizer.ClassFile

/-- The heading of a method with a body. -/
def methodHeading (m : Member) (title descriptor : String) (code : CodeAttribute) : String :=
  let shape := (Descriptor.methodShape? descriptor).getD ⟨0, 0⟩
  let slots := shape.argumentSlots (!m.isStatic)
  let limits := s!"max_stack {code.maxStack.toNat}, max_locals {code.maxLocals.toNat}"
  s!"\n{title}: {limits}, {slots.toNat} parameter slot(s)\n"

/-- The listing of a method. -/
def methodText (pool : ConstantPool) (m : Member) : Except FormatError String := do
  let descriptor := (m.descriptor? pool).getD "?"
  let title := (m.name? pool).getD "?" ++ descriptor
  match m.code? pool with
  | none => return s!"\n{title}: no code\n"
  | some info =>
      let code ← CodeAttribute.parse info
      let body := match Code.decode pool code.code code.exceptions with
        | .ok body => body.text
        | .error e => s!"  cannot decode: {e.message}\n"
      return methodHeading m title descriptor code ++ body

/-- The listings of methods, behind `text`, up to the first that is malformed,
and what is wrong with that one. -/
def methodTexts (pool : ConstantPool) (text : String) :
    List Member → String × Option FormatError
  | [] => (text, none)
  | m :: rest =>
      match methodText pool m with
      | .ok listing => methodTexts pool (text ++ listing) rest
      | .error e => (text, some e)

/-- The listing of a class, and what kept it from being complete. -/
def dump (c : ClassFile) : String × Option FormatError :=
  let name := c.name?.getD "?"
  let heading := s!"class {name} (version {c.majorVersion.toNat}.{c.minorVersion.toNat})\n"
  methodTexts c.pool heading c.methods

end JvmOptimizer.ClassFile
