import JvmOptimizer.Value

/-!
# Constant pools

The optimizer needs three things of a constant pool: the number behind an
index, an index for a number, and the descriptor of a member that an
instruction refers to. Indices start at 1, and a `long` or `double` takes two
of them.
-/

namespace JvmOptimizer

/-- Why a pool could not take a constant. -/
inductive PoolError
  /-- The indices are used up. -/
  | outOfSpace
  deriving DecidableEq

/-- The text of a pool error. -/
def PoolError.message : PoolError → String
  | outOfSpace => "Constant pool is out of space"

/-- What code needs of a constant pool. -/
class Pool (π : Type) where
  /-- The number at an index. -/
  resolve? : π → UInt16 → Option Value
  /-- The lowest index that holds a number, and the pool with it; the number is
  appended if no index holds it yet. -/
  intern : Value → π → Except PoolError (UInt16 × π)
  /-- The descriptor of the field, method or call site at an index. -/
  memberDescriptor? : π → UInt16 → Option String

end JvmOptimizer
