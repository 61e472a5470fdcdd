import JvmOptimizer.Pool.Basic

/-!
# Literal pools

A pool that holds only what code refers to: numbers and member descriptors. It
numbers its slots like a class file does, so the same code against either kind
of pool has the same bytes.
-/

namespace JvmOptimizer

/-- One slot of a literal pool. -/
inductive LiteralPool.Entry
  | literal (value : Value)
  | member (descriptor : String)
  /-- The second slot of a wide literal. -/
  | upperHalf
  deriving DecidableEq

/-- A pool of numbers and member descriptors. -/
structure LiteralPool where
  /-- The slots, from index 1 on. -/
  entries : Array LiteralPool.Entry := #[]
  deriving DecidableEq

namespace LiteralPool

/-- Slots that an entry needs. -/
def Entry.slots : Entry → Nat
  | literal v => v.slots
  | _ => 1

/-- Number of slots in use. -/
def size (p : LiteralPool) : Nat := p.entries.size

/-- The entry at an index. -/
def entry? (p : LiteralPool) (index : UInt16) : Option Entry :=
  if index = 0 then none else p.entries[index.toNat - 1]?

/-- Append an entry. The last index of a pool is 65534. -/
def push (e : Entry) (p : LiteralPool) : Except PoolError (UInt16 × LiteralPool) :=
  let index := p.size + 1
  if index + e.slots > 65535 then
    .error .outOfSpace
  else
    let entries := p.entries.push e
    .ok (UInt16.ofNat index, ⟨if e.slots = 2 then entries.push .upperHalf else entries⟩)

/-- Append a number, even if the pool holds it already. -/
def addLiteral (v : Value) : LiteralPool → Except PoolError (UInt16 × LiteralPool) :=
  push (.literal v)

/-- Append a member descriptor. -/
def addMember (descriptor : String) : LiteralPool → Except PoolError (UInt16 × LiteralPool) :=
  push (.member descriptor)

instance : Pool LiteralPool where
  resolve? p index :=
    match p.entry? index with
    | some (.literal v) => some v
    | _ => none
  intern v p :=
    match p.entries.findIdx? (· = .literal v) with
    | some i => .ok (UInt16.ofNat (i + 1), p)
    | none => p.addLiteral v
  memberDescriptor? p index :=
    match p.entry? index with
    | some (.member d) => some d
    | _ => none

end LiteralPool

end JvmOptimizer
