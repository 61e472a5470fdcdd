import JvmOptimizer.ClassFile.Basic
import JvmOptimizer.Code.Decode
import JvmOptimizer.Settings

/-!
# Class versions

Rewritten methods carry no stack map frames, so a class with such methods has to
be of a version that is checked without them. A newer class is lowered to the
target version, which is possible only if it uses nothing that its version
brought.
-/

namespace JvmOptimizer

/-- Why a class cannot be rewritten at a target version. -/
inductive LoweringBlocker
  /-- The version that the class would have needs stack map frames. -/
  | stackMapsRequired (version : UInt16)
  | dynamicConstants
  | moduleConstants
  /-- A class attribute has no meaning at the target version. -/
  | classAttribute (name : String)
  /-- An interface has methods with bodies. -/
  | interfaceBodies
  /-- An interface method is called directly. -/
  | interfaceMethodCall
  /-- A method body cannot be looked into. -/
  | undecodableMethod
  deriving DecidableEq

/-- The text of a blocker. -/
def LoweringBlocker.message : LoweringBlocker → String
  | stackMapsRequired version =>
      s!"version {version.toNat} needs stack map frames, which rewritten methods do not carry"
  | dynamicConstants => "the constant pool holds method handles or dynamic constants"
  | moduleConstants => "the constant pool names modules or packages"
  | classAttribute name => s!"the {name} attribute has no meaning at the target version"
  | interfaceBodies => "interface methods have bodies"
  | interfaceMethodCall =>
      "an interface method is called with invokestatic or invokespecial"
  | undecodableMethod => "a method body could not be decoded"

namespace ClassFile

/-- Class attributes that mean something only at later versions. -/
def versionBound : List String :=
  ["NestHost", "NestMembers", "Record", "PermittedSubclasses", "Module"]

/-- Does an instruction call an interface method directly? Older versions know
no such call. -/
def callsInterfaceMethod (pool : ConstantPool) : Instruction Nat → Bool
  | .verbatim opcode operands =>
      (opcode == Opcode.invokestatic || opcode == Opcode.invokespecial) &&
        (Instruction.poolIndex? opcode operands).any pool.isInterfaceMethod
  | _ => false

/-- The body of a method from the bytes of its `Code` attribute. -/
def decodeBody? (pool : ConstantPool) (info : Bytes) : Option Method := do
  let code ← (CodeAttribute.parse info).toOption
  (Code.decode pool code.code code.exceptions).toOption

/-- What keeps a method body from a lower version. -/
def bodyBlocker? (pool : ConstantPool) (info : Bytes) : Option LoweringBlocker :=
  match decodeBody? pool info with
  | none => some .undecodableMethod
  | some body =>
      if body.code.any (callsInterfaceMethod pool) then some .interfaceMethodCall else none

/-- The first class attribute that is bound to its version. -/
def versionBoundAttribute? (c : ClassFile) : Option String :=
  (c.attributes.filterMap (·.name? c.pool)).find? versionBound.contains

/-- Does an interface have methods with bodies, its initializer apart? -/
def hasInterfaceBodies (c : ClassFile) : Bool :=
  c.isInterface && c.methods.any fun m => m.hasBody && m.name? c.pool != some "<clinit>"

/-- The first reason why the class cannot be lowered, whatever the target. -/
def featureBlocker? (c : ClassFile) : Option LoweringBlocker :=
  if c.pool.hasDynamic then some .dynamicConstants
  else if c.pool.hasModular then some .moduleConstants
  else
    match c.versionBoundAttribute? with
    | some name => some (.classAttribute name)
    | none =>
        if c.hasInterfaceBodies then
          some .interfaceBodies
        else
          (c.methods.filterMap (·.code? c.pool)).findSome? (bodyBlocker? c.pool)

/-- The first reason why the class cannot be rewritten at a target version. -/
def loweringBlocker? (c : ClassFile) (target : UInt16) : Option LoweringBlocker :=
  let resulting := min c.majorVersion target
  if Settings.maxTargetVersion < resulting then some (.stackMapsRequired resulting)
  else if c.majorVersion ≤ target then none
  else c.featureBlocker?

end ClassFile

end JvmOptimizer
