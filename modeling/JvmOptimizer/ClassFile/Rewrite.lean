import JvmOptimizer.ClassFile.Version
import JvmOptimizer.Code.Encode
import JvmOptimizer.Optimize

/-!
# Rewriting a class

Every method body of a class is decoded, optimized and, if that changed it,
encoded again. Constants that the new bodies need are appended to the pool, so
the indices in all other places stay right. A body that cannot be decoded or
encoded is left as it is.

Attributes of a rewritten body that speak of code offsets are dropped, and a
class with a rewritten body is lowered to the target version.
-/

namespace JvmOptimizer

/-- What happened to a class. -/
structure ClassReport where
  /-- Methods with a body. -/
  methods : Nat := 0
  /-- Methods rewritten. -/
  changed : Nat := 0
  /-- Methods whose body could not be decoded or encoded. -/
  skipped : Nat := 0
  /-- The version that the class had, if it was lowered. -/
  loweredFrom : Option UInt16 := none
  /-- Was the class left alone because it cannot be lowered? -/
  passedThrough : Bool := false
  deriving DecidableEq

/-- What happened to a method. -/
inductive MethodOutcome
  /-- The body could not be decoded or encoded. -/
  | failed
  /-- There is nothing to optimize. -/
  | unchanged
  /-- The new contents of the `Code` attribute. -/
  | rewritten (info : Bytes)

namespace ClassFile

/-- Attributes of a method body that speak of offsets in its code. -/
def offsetDependent : List String :=
  ["StackMapTable", "LineNumberTable", "LocalVariableTable", "LocalVariableTypeTable"]

/-- The body of a method with its limits; none if it cannot be decoded or the
descriptor is not one of a method. -/
def methodBody? (pool : ConstantPool) (m : Member) (code : CodeAttribute) : Option Method := do
  let shape ← Descriptor.methodShape? (← m.descriptor? pool)
  let body ← (Code.decode pool code.code code.exceptions).toOption
  return { body with
    maxStack := code.maxStack
    maxLocals := code.maxLocals
    parameterSlots := shape.argumentSlots (!m.isStatic) }

/-- The contents of a `Code` attribute with another body. -/
def withBody (pool : ConstantPool) (code : CodeAttribute) (m : Method) (e : Code.Encoded) :
    CodeAttribute :=
  { code with
    maxStack := m.maxStack
    maxLocals := m.maxLocals
    code := e.code
    exceptions := e.exceptions }.strip pool offsetDependent

/-- Optimize a method body, given the bytes of its `Code` attribute. -/
def rewriteBody (settings : Settings) (m : Member) (info : Bytes) (pool : ConstantPool) :
    MethodOutcome × ConstantPool :=
  match CodeAttribute.parse info with
  | .error _ => (.failed, pool)
  | .ok code =>
      match methodBody? pool m code with
      | none => (.failed, pool)
      | some body =>
          let optimized := body.optimizeOrKeep pool settings
          if optimized.changed then
            match Code.encode optimized.method pool with
            | (.error _, pool) => (.failed, pool)
            | (.ok encoded, pool) =>
                (.rewritten (withBody pool code optimized.method encoded).toBytes, pool)
          else
            (.unchanged, pool)

/-- Optimize a method. -/
def rewriteMethod (settings : Settings) (m : Member) :
    StateM (ConstantPool × ClassReport) Member := do
  let (pool, report) ← get
  match m.code? pool with
  | none => return m
  | some info =>
      let report := { report with methods := report.methods + 1 }
      match rewriteBody settings m info pool with
      | (.failed, pool) =>
          set (pool, { report with skipped := report.skipped + 1 })
          return m
      | (.unchanged, pool) =>
          set (pool, report)
          return m
      | (.rewritten info, pool) =>
          set (pool, { report with changed := report.changed + 1 })
          return m.replaceCode pool info

/-- Optimize every method of a class that is of a suitable version. -/
def rewriteMethods (settings : Settings) (c : ClassFile) : ClassFile × ClassReport :=
  let (methods, pool, report) :=
    (c.methods.mapM (rewriteMethod settings)).run (c.pool, {})
  let rewritten := { c with methods, pool }
  if 0 < report.changed ∧ settings.targetVersion < c.majorVersion then
    ({ rewritten with majorVersion := settings.targetVersion, minorVersion := 0 },
      { report with loweredFrom := some c.majorVersion })
  else
    (rewritten, report)

/-- Optimize every method of a class, unless its version stands against it. -/
def optimize (settings : Settings) (c : ClassFile) : ClassFile × ClassReport :=
  match c.loweringBlocker? settings.targetVersion with
  | some _ => (c, { passedThrough := true })
  | none => c.rewriteMethods settings

end ClassFile

end JvmOptimizer
