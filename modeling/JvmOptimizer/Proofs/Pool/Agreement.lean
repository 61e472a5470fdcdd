import JvmOptimizer.Code.Encode
import JvmOptimizer.Proofs.Pool
import JvmOptimizer.Proofs.Steps

/-!
# The two kinds of pools agree

A literal pool and the pool of a class keep different things in their slots, look
for a number in different ways and reckon the room that is left differently. As
long as only numbers are put into them, none of this shows: slot by slot the one
is an image of the other (`LiteralPool.Mirrors`), each number that is put in keeps
it so, and what the pools answer can be read off the image.

Writing code puts numbers into a pool and asks for nothing but their indices, so
code has the same bytes against either kind.
-/

namespace JvmOptimizer

open Code Steps

/-! ### Pools that cannot be told apart -/

namespace Pool

/-- The answer of a call and the pool behind it. A pool that has no room stays as it
is. -/
def orKeep {π : Type} (p : π) : Except PoolError (UInt16 × π) → Except PoolError UInt16 × π
  | .ok (index, q) => (.ok index, q)
  | .error e => (.error e, p)

theorem orKeep_eq_ok {π : Type} {p q : π} {x : Except PoolError (UInt16 × π)} {index : UInt16} :
    orKeep p x = (.ok index, q) ↔ x = .ok (index, q) := by
  cases x <;> simp [orKeep, Prod.ext_iff]

theorem orKeep_eq_error {π : Type} {p q : π} {x : Except PoolError (UInt16 × π)} {e : PoolError} :
    orKeep p x = (.error e, q) ↔ x = .error e ∧ p = q := by
  cases x <;> simp [orKeep]

section Put

variable {π : Type} [Pool π]

/-- Put a number into a pool. -/
def put (v : Value) (p : π) : Except PoolError UInt16 × π := orKeep p (intern v p)

/-- What is seen of a pool while numbers are put into it: the answer of each call,
and what every index stands for behind it. -/
def trace : List Value → π → List (Except PoolError UInt16 × (UInt16 → Option Value))
  | [], _ => []
  | v :: values, p => ((put v p).1, resolve? (put v p).2) :: trace values (put v p).2

/-- Writing code is one way of putting numbers in. -/
theorem interned_eq (v : Value) (p : π) :
    interned v p = ((put v p).1.mapError EncodeError.pool, (put v p).2) := by
  simp only [interned, put, orKeep, bind_apply, get_apply]
  cases intern v p with
  | error e => rfl
  | ok r => rfl

end Put

variable {π ρ : Type} [Pool π] [Pool ρ] {R : π → ρ → Prop} {p : π} {q : ρ}

/-- Pools that `R` relates answer alike, and `R` still relates them behind each
call. -/
structure Simulates (R : π → ρ → Prop) : Prop where
  resolve : ∀ {p q}, R p q → resolve? p = resolve? q
  answer : ∀ {p q}, R p q → ∀ v, (put v p).1 = (put v q).1
  behind : ∀ {p q}, R p q → ∀ v, R (put v p).2 (put v q).2

/-- Two kinds of pool that are in step answer each series of calls alike. -/
theorem Simulates.trace_eq (h : Simulates R) (values : List Value) (hpq : R p q) :
    trace values p = trace values q := by
  induction values generalizing p q with
  | nil => rfl
  | cons v values ih =>
      have hbehind := h.behind hpq v
      rw [trace, trace, h.answer hpq v, h.resolve hbehind, ih hbehind]

end Pool

/-! ### Writing code against either -/

namespace Code

variable {π ρ α β : Type} {R : π → ρ → Prop}

/-- From related pools, two computations have the same outcome and leave related
pools. -/
def Alike (R : π → ρ → Prop) (x : WithPool π α) (y : WithPool ρ α) : Prop :=
  ∀ p q, R p q → (x p).1 = (y q).1 ∧ R (x p).2 (y q).2

namespace Alike

theorem pure (a : α) : Alike R (Pure.pure a) (Pure.pure a) := fun _ _ h => ⟨rfl, h⟩

/-- Steps that are alike stay alike one after another. -/
theorem bind {x : WithPool π α} {y : WithPool ρ α} {f : α → WithPool π β} {g : α → WithPool ρ β}
    (hxy : Alike R x y) (hfg : ∀ a, Alike R (f a) (g a)) : Alike R (x >>= f) (y >>= g) := by
  intro p q h
  obtain ⟨houtcome, hpools⟩ := hxy p q h
  rw [bind_apply, bind_apply]
  rcases hx : x p with ⟨a, p'⟩
  rcases hy : y q with ⟨b, q'⟩
  rw [hx, hy] at houtcome hpools
  cases houtcome
  cases a with
  | error e => exact ⟨rfl, hpools⟩
  | ok a => exact hfg a p' q' hpools

theorem mapM {f : α → WithPool π β} {g : α → WithPool ρ β} (h : ∀ a, Alike R (f a) (g a))
    (l : List α) : Alike R (l.mapM f) (l.mapM g) := by
  induction l with
  | nil => exact .pure []
  | cons a l ih =>
      rw [List.mapM_cons, List.mapM_cons]
      exact (h a).bind fun b => ih.bind fun bs => .pure (b :: bs)

end Alike

variable [Pool π] [Pool ρ]

theorem alike_interned (h : Pool.Simulates R) (v : Value) :
    Alike R (interned v) (interned v) := by
  intro p q hpq
  rw [Pool.interned_eq, Pool.interned_eq, h.answer hpq v]
  exact ⟨rfl, h.behind hpq v⟩

/-- Only constants are taken from a pool. -/
theorem alike_piece (h : Pool.Simulates R) (insn : Instruction Nat) :
    Alike R (piece insn) (piece insn) := by
  unfold piece
  cases pooled? insn with
  | some value => exact (alike_interned h value).bind fun index => .pure _
  | none => exact .pure _

/-- **Pools that answer alike give the same bytes.** -/
theorem encode_eq (h : Pool.Simulates R) (m : Method) {p : π} {q : ρ} (hpq : R p q) :
    (encode m p).1 = (encode m q).1 := by
  obtain ⟨houtcome, -⟩ := Alike.mapM (alike_piece h) m.code p q hpq
  unfold encode
  rcases hp : m.code.mapM piece p with ⟨a, p'⟩
  rcases hq : m.code.mapM piece q with ⟨b, q'⟩
  rw [hp, hq] at houtcome
  cases houtcome
  cases a with
  | error e => rfl
  | ok pieces => rfl

end Code

/-! ### Literal pools and the pools of classes -/

/-- What stands in the pool of a class where this stands in a literal pool. -/
def LiteralPool.Entry.constant : LiteralPool.Entry → Constant
  | literal v => .number v
  | member descriptor => .utf8 descriptor
  | upperHalf => .upperHalf

/-- The pool of a class is the image of a literal pool. -/
def LiteralPool.Mirrors (p : LiteralPool) (q : ConstantPool) : Prop :=
  q.constants = p.entries.map Entry.constant

theorem Constant.slots_number (v : Value) : (Constant.number v).slots = v.slots := by
  rcases v.slots_eq with h | h <;> simp [slots, isWide, h]

theorem slotAt?_map {σ τ : Type} (f : σ → τ) (slots : List σ) (index : UInt16) :
    slotAt? (slots.map f) index = (slotAt? slots index).map f := by
  unfold slotAt?
  split
  · rfl
  · rw [List.getElem?_map]

namespace LiteralPool

variable {p : LiteralPool} {q : ConstantPool} {v : Value}

theorem Entry.isSame_constant (e : Entry) :
    e.constant.isSame (.number v) = decide (e = .literal v) := by
  rw [Bool.eq_iff_iff, Constant.isSame_number, decide_eq_true_iff]
  cases e <;> simp [constant]

theorem Entry.number?_constant (e : Entry) : e.constant.number? = e.number? := by
  cases e <;> rfl

/-- Both pools give the same value at each number. -/
theorem Mirrors.resolve (h : p.Mirrors q) : Pool.resolve? p = Pool.resolve? q := by
  funext index
  have hslots : q.constants.toList = p.entries.toList.map Entry.constant := by
    rw [h, Array.toList_map]
  rw [LawfulPool.resolve?_eq, LawfulPool.resolve?_eq]
  show _ = (slotAt? q.constants.toList index).bind Constant.number?
  rw [hslots, slotAt?_map, Option.bind_map]
  exact Option.bind_congr fun e _ => (Entry.number?_constant e).symm

/-- A number is found at the same place in both. -/
theorem Mirrors.findIdx? (h : p.Mirrors q) :
    q.constants.findIdx? (·.isSame (.number v)) = p.entries.findIdx? (· = .literal v) := by
  rw [h, Array.findIdx?_map]
  congr 1
  funext e
  exact Entry.isSame_constant e

theorem Mirrors.size (h : p.Mirrors q) : q.size = p.size := by
  rw [ConstantPool.size, h, Array.size_map, LiteralPool.size]

/-- A number takes the same slots in both. -/
theorem Mirrors.push (h : p.Mirrors q) :
    Mirrors ⟨if v.slots = 2 then (p.entries.push (.literal v)).push .upperHalf
      else p.entries.push (.literal v)⟩ (q.push (.number v)) := by
  have hwide : (Constant.number v).isWide ↔ v.slots = 2 := beq_iff_eq
  show (if (Constant.number v).isWide then (q.constants.push _).push .upperHalf
    else q.constants.push _) = Array.map Entry.constant (if v.slots = 2 then _ else _)
  by_cases hv : v.slots = 2
  · rw [if_pos hv, if_pos (hwide.2 hv), h, Array.map_push, Array.map_push]
    rfl
  · rw [if_neg hv, if_neg (mt hwide.1 hv), h, Array.map_push]
    rfl

/-- **Putting a number in** is answered alike and keeps the image. -/
theorem Mirrors.put (h : p.Mirrors q) (v : Value) :
    (Pool.put v p).1 = (Pool.put v q).1 ∧ (Pool.put v p).2.Mirrors (Pool.put v q).2 := by
  simp only [Pool.put, Pool.orKeep, Pool.intern, ConstantPool.add, h.findIdx?]
  cases p.entries.findIdx? (· = .literal v) with
  | some i => exact ⟨rfl, h⟩
  | none =>
      -- One limit counts the index behind the last slot, the other one the slots.
      have hfull : p.size + 1 + (Entry.literal v).slots > 65535 ↔
          q.size + (Constant.number v).slots > 65534 := by
        rw [h.size, Constant.slots_number, Entry.slots]
        omega
      simp only [addLiteral, LiteralPool.push]
      by_cases hp : p.size + 1 + (Entry.literal v).slots > 65535
      · rw [if_pos hp, if_pos (hfull.1 hp)]
        exact ⟨rfl, h⟩
      · rw [if_neg hp, if_neg (mt hfull.2 hp), h.size]
        exact ⟨rfl, h.push⟩

/-- The mirrored pools stay mirrors under every call. -/
theorem simulates_mirrors : Pool.Simulates Mirrors where
  resolve := Mirrors.resolve
  answer := fun h v => (h.put v).1
  behind := fun h v => (h.put v).2

theorem mirrors_empty : Mirrors {} {} := Array.map_empty.symm

end LiteralPool

/-- **The two kinds of pools agree.** Whatever numbers are put into an empty pool of
either kind, each call gets the same index, or no room, from both, and behind each
call every index stands for the same number. So a method has the same code and the
same exception table against either, or is refused by both for the same reason. -/
theorem Pool.kinds_agree :
    (∀ values, trace values ({} : LiteralPool) = trace values ({} : ConstantPool)) ∧
      ∀ m, (encode m ({} : LiteralPool)).1 = (encode m ({} : ConstantPool)).1 :=
  ⟨fun values => LiteralPool.simulates_mirrors.trace_eq values LiteralPool.mirrors_empty,
    fun m => encode_eq LiteralPool.simulates_mirrors m LiteralPool.mirrors_empty⟩

end JvmOptimizer
