import JvmOptimizer.Proofs.Bytes
import JvmOptimizer.Proofs.Pool.Agreement
import Mathlib.Logic.Relation

/-!
# Indices keep their meaning

Code and class files refer to a pool by 16-bit indices that were handed out long
before the pool is complete. So an index has to mean the same forever, whatever is
put in afterwards.

All that a call can do to a pool is to put entries behind the slots in use, one by
one, each with a second slot if it is wide and only while there is room
(`Pool.Appends`). The rest follows from that, for both kinds of pools alike.
-/

open Relation (ReflTransGen)

namespace JvmOptimizer

/-- The calls that change a pool. -/
class PoolCalls (π : Type) [Pool π] [LawfulPool π] where
  Call : Type
  /-- The answer of a call, and the pool behind it. -/
  run : Call → π → Except PoolError UInt16 × π
  /-- The one entry that a call gives the index of, unless it takes several. -/
  entry? : Call → Option (LawfulPool.Slot π)
  /-- What stands in the second slot of a wide number. -/
  upperHalf (π) : LawfulPool.Slot π

open LawfulPool PoolCalls

namespace Pool

variable {π : Type} [Pool π] [LawfulPool π] [PoolCalls π] {p q : π}

/-- The pool behind several calls. -/
def after (calls : List (Call π)) (p : π) : π := calls.foldl (fun p call => (run call p).2) p

/-- What a pool promises about the indices it hands out. -/
structure Stable (p : π) : Prop where
  size_le : size p ≤ 65534
  /-- Behind a wide number there is a second slot, which stands for nothing. -/
  second : ∀ {index v}, resolve? p index = some v → v.slots = 2 →
    slotAt? (slots p) (index + 1) = some (upperHalf π) ∧ resolve? p (index + 1) = none ∧
      memberDescriptor? p (index + 1) = none
  /-- What stands at an index stays there. -/
  settled : ∀ {index s} calls, slotAt? (slots p) index = some s →
    slotAt? (slots (after calls p)) index = some s
  /-- The index of an entry means that entry forever. -/
  kept : ∀ {call s index q}, entry? call = some s → run call p = (.ok index, q) →
    ∀ calls, slotAt? (slots (after calls q)) index = some s ∧
      resolve? (after calls q) index = number? s
  /-- A number that is there is found where it comes first. -/
  lowest : ∀ {index v}, resolve? p index = some v → ∃ first, put v p = (.ok first, p) ∧
    resolve? p first = some v ∧ ∀ other, resolve? p other = some v → first ≤ other
  /-- Different numbers have different indices. -/
  apart : ∀ {v w index q r} calls, put v p = (.ok index, q) →
    put w (after calls q) = (.ok index, r) → v = w
  /-- A call for one entry that fails leaves nothing behind. -/
  failed : ∀ {call s e q}, entry? call = some s → run call p = (.error e, q) → q = p

/-! ### Entries -/

/-- Does a slot hold a number that takes two? -/
def isWide (s : Slot π) : Bool := (number? s).any (·.slots = 2)

/-- One entry goes behind the slots in use. -/
inductive Appends (p q : π) : Prop
  | entry (s : Slot π) (hslots : slots q = slots p ++ s :: if isWide s then [upperHalf π] else [])
      (hsize : size q ≤ 65534)

/-- A second slot follows each wide number. -/
def Paired (p : π) : Prop :=
  ∀ (i : Nat) (s : Slot π), (slots p)[i]? = some s → isWide s →
    (slots p)[i + 1]? = some (upperHalf π)

theorem Appends.extends (h : Appends p q) : Extends p q := by
  cases h with
  | entry s hslots hsize => exact ⟨_, hslots.symm⟩

/-- Appending leaves every slot in its place, however often it is done. -/
theorem extends_of_appends (h : ReflTransGen Appends p q) : Extends p q := by
  induction h with
  | refl => exact .refl p
  | tail _ hstep ih => exact ih.trans hstep.extends

/-- An append stops at the last number that an index can have. -/
theorem size_le_of_appends (h : ReflTransGen Appends p q) : size q ≤ max (size p) 65534 := by
  cases h with
  | refl => exact Nat.le_max_left _ _
  | tail _ hstep =>
      cases hstep with
      | entry s hslots hsize => exact hsize.trans (Nat.le_max_right _ _)

/-- Second slots are in their places when an entry is put in with its own. -/
theorem Paired.append (h : Paired p) (hhalf : isWide (upperHalf π) = false) {s : Slot π}
    (hslots : slots q = slots p ++ s :: if isWide s then [upperHalf π] else []) : Paired q := by
  intro i t ht hwide
  rw [hslots] at ht ⊢
  rcases Nat.lt_or_ge i (slots p).length with hlt | hge
  · rw [List.getElem?_append_left hlt] at ht
    have hnext := h i t ht hwide
    rw [List.getElem?_append_left (List.getElem?_eq_some_iff.1 hnext).1]
    exact hnext
  · rw [List.getElem?_append_right hge] at ht
    rw [List.getElem?_append_right (by omega)]
    obtain ⟨k, rfl⟩ := Nat.exists_eq_add_of_le hge
    rw [Nat.add_sub_cancel_left] at ht
    rw [Nat.add_assoc, Nat.add_sub_cancel_left]
    cases k with
    | zero =>
        cases ht
        rw [if_pos hwide]
        rfl
    | succ k =>
        -- What stands further behind is a second slot itself.
        have hmem : t ∈ if isWide s then [upperHalf π] else [] := List.mem_of_getElem? ht
        split at hmem
        · rw [List.mem_singleton.1 hmem, hhalf] at hwide
          cases hwide
        · cases hmem

end Pool

/-! ### Calls -/

/-- What calls can do. -/
class LawfulCalls (π : Type) [Pool π] [LawfulPool π] [PoolCalls π] : Prop where
  number?_upperHalf : number? (upperHalf π) = none
  memberDescriptor?_upperHalf : ∀ {p : π} {index}, slotAt? (slots p) index = some (upperHalf π) →
    Pool.memberDescriptor? p index = none
  appends : ∀ (call : Call π) (p : π), ReflTransGen Pool.Appends p (run call p).2
  holds : ∀ {call : Call π} {s index} {p q : π}, Pool.size p ≤ 65534 → entry? call = some s →
    run call p = (.ok index, q) → slotAt? (slots q) index = some s
  failed : ∀ {call : Call π} {s e} {p q : π}, entry? call = some s →
    run call p = (.error e, q) → q = p

theorem exists_of_slotAt? {σ : Type} {slots : List σ} {index : UInt16} {a : σ}
    (h : slotAt? slots index = some a) :
    ∃ i, i < 65535 ∧ index = UInt16.ofNat (i + 1) ∧ slots[i]? = some a := by
  unfold slotAt? at h
  split at h
  · cases h
  · rename_i hne
    have hpos : index.toNat ≠ 0 := fun hz => hne (UInt16.toNat_inj.1 hz)
    have hlt := index.toNat_lt
    refine ⟨index.toNat - 1, by omega, ?_, h⟩
    rw [Nat.sub_add_cancel (by omega), UInt16.ofNat_toNat]

namespace Pool

variable {π : Type} [Pool π] [LawfulPool π] {p q : π} {index : UInt16} {v w : Value}

/-- A number that was put in stands at the index that was given. -/
theorem resolve?_of_put (hsize : size p ≤ 65535) (h : put v p = (.ok index, q)) :
    Extends p q ∧ size q ≤ 65535 ∧ resolve? q index = some v :=
  intern_eq_ok hsize (orKeep_eq_ok.1 h)

variable [PoolCalls π] [LawfulCalls π]

theorem isWide_upperHalf : isWide (upperHalf π) = false := by
  rw [isWide, LawfulCalls.number?_upperHalf]
  rfl

/-- A wide constant is appended with its second slot, so such pairs are never
torn. -/
theorem paired_of_appends (h : ReflTransGen Appends p q) (hp : Paired p) : Paired q := by
  induction h with
  | refl => exact hp
  | tail _ hstep ih =>
      cases hstep with
      | entry s hslots hsize => exact ih.append isWide_upperHalf hslots

theorem appends_after (calls : List (Call π)) (p : π) : ReflTransGen Appends p (after calls p) := by
  induction calls generalizing p with
  | nil => exact .refl
  | cons call calls ih => exact (LawfulCalls.appends call p).trans (ih _)

/-- What is in a slot stays there, whatever calls come after. -/
theorem slotAt?_after {s : Slot π} (calls : List (Call π)) (h : slotAt? (slots p) index = some s) :
    slotAt? (slots (after calls p)) index = some s := by
  have hlater : Extends p (after calls p) := extends_of_appends (appends_after calls p)
  rw [slotAt?_of_isPrefix hlater (le_length_of_slotAt? h), h]

/-- **A pool with second slots in their places** keeps its promises. -/
theorem Paired.stable [SearchedPool π] (h : Paired p) (hsize : size p ≤ 65534) : Stable p where
  size_le := hsize
  second := by
    intro index v hv hwide
    rw [resolve?_eq, Option.bind_eq_some_iff] at hv
    obtain ⟨s, hs, hnumber⟩ := hv
    obtain ⟨i, hi, rfl, hat⟩ := exists_of_slotAt? hs
    have hnext : (slots p)[i + 1]? = some (upperHalf π) :=
      h i s hat (by simp [isWide, hnumber, hwide])
    have hlt : i + 1 < size p := (List.getElem?_eq_some_iff.1 hnext).1
    have hslot : slotAt? (slots p) (UInt16.ofNat (i + 1) + 1) = some (upperHalf π) := by
      rw [← UInt16.ofNat_one, ← UInt16.ofNat_add, slotAt?_ofNat (by omega), hnext]
    refine ⟨hslot, ?_, LawfulCalls.memberDescriptor?_upperHalf hslot⟩
    rw [resolve?_eq, hslot]
    exact LawfulCalls.number?_upperHalf
  settled := slotAt?_after
  kept := by
    intro call s index q hentry hrun calls
    have hkept := slotAt?_after calls (LawfulCalls.holds hsize hentry hrun)
    refine ⟨hkept, ?_⟩
    rw [resolve?_eq, hkept]
    rfl
  lowest := by
    intro index v hv
    -- A search finds the lowest slot with the value, so the call gives that one.
    obtain ⟨first, -, hfirst, hresolve⟩ := SearchedPool.intern_of_resolve? hv
    refine ⟨first, orKeep_eq_ok.2 hfirst, hresolve, fun other hother => ?_⟩
    obtain ⟨least, hle, hleast, -⟩ := SearchedPool.intern_of_resolve? hother
    rw [hfirst] at hleast
    cases hleast
    exact hle
  apart := by
    intro v w index q r calls hv hw
    -- The first value is still at its number when the second one gets the same.
    obtain ⟨-, hq, hfirst⟩ := resolve?_of_put (by omega) hv
    have hchain := appends_after calls q
    have hbound := size_le_of_appends hchain
    have hthen := (extends_of_appends hchain).resolve?_eq_some hfirst
    obtain ⟨hgrows, -, hsecond⟩ := resolve?_of_put (by omega) hw
    rw [hgrows.resolve?_eq_some hthen] at hsecond
    exact Option.some.inj hsecond
  failed := LawfulCalls.failed

theorem Paired.stable_after [SearchedPool π] (h : Paired p) (hsize : size p ≤ 65534)
    (calls : List (Call π)) : Stable (after calls p) := by
  have hchain := appends_after calls p
  have hbound := size_le_of_appends hchain
  exact (paired_of_appends hchain h).stable (by omega)

end Pool

/-! ### Literal pools -/

namespace LiteralPool

/-- The calls that change a literal pool. -/
inductive Call
  | literal (v : Value)
  | member (descriptor : String)
  | intern (v : Value)

namespace Call

/-- The answer of a call, and the pool behind it. -/
def run : Call → LiteralPool → Except PoolError UInt16 × LiteralPool
  | literal v, p => Pool.orKeep p (p.addLiteral v)
  | member descriptor, p => Pool.orKeep p (p.addMember descriptor)
  | intern v, p => Pool.put v p

/-- What a call gives the index of. -/
def entry : Call → Entry
  | literal v => .literal v
  | member descriptor => .member descriptor
  | intern v => .literal v

end Call

instance : PoolCalls LiteralPool where
  Call := Call
  run := Call.run
  entry? call := some call.entry
  upperHalf := .upperHalf

variable {p q : LiteralPool} {index : UInt16}

theorem isWide_eq (e : Entry) : Pool.isWide (π := LiteralPool) e = decide (e.slots = 2) := by
  cases e <;> rfl

theorem appends_of_push {e : Entry} (h : p.push e = .ok (index, q)) : Pool.Appends p q := by
  obtain ⟨hroom, -, hslots⟩ := push_cases h
  refine .entry e ?_ ?_
  · simp only [isWide_eq, decide_eq_true_eq]
    exact hslots
  · show q.entries.toList.length ≤ 65534
    rw [hslots, List.length_append, Array.length_toList, ← size]
    have hpos := e.slots_pos
    split <;> simp <;> omega

/-- A call finds a literal that is there, or else pushes its entry. -/
theorem Call.run_cases (call : Call) (p : LiteralPool) :
    (∃ i, p.entries.findIdx? (· = call.entry) = some i ∧
        call.run p = (.ok (UInt16.ofNat (i + 1)), p)) ∨
      call.run p = Pool.orKeep p (p.push call.entry) := by
  cases call with
  | literal v => exact .inr rfl
  | member descriptor => exact .inr rfl
  | intern v =>
      simp only [run, entry, Pool.put, Pool.intern]
      cases hfind : p.entries.findIdx? (· = .literal v) with
      | some i => exact .inl ⟨i, hfind, rfl⟩
      | none => exact .inr rfl

instance : LawfulCalls LiteralPool where
  number?_upperHalf := rfl
  memberDescriptor?_upperHalf {p index} h := by
    have hentry : slotAt? p.entries.toList index = some .upperHalf := h
    simp only [Pool.memberDescriptor?, entry?_eq_slotAt?, hentry]
  appends call p := by
    show ReflTransGen Pool.Appends p (call.run p).2
    obtain ⟨i, -, hrun⟩ | hrun := call.run_cases p <;> rw [hrun]
    cases hpush : p.push call.entry with
    | error e => exact .refl
    | ok r => exact .single (appends_of_push hpush)
  holds {call s index p q} hsize hentry hrun := by
    cases hentry
    obtain ⟨i, hfind, hfound⟩ | hpush := call.run_cases p
    · cases hrun.symm.trans hfound
      exact slotAt?_of_findIdx? (hsize.trans (by omega)) (fun a ha => by simpa using ha) hfind
    · exact (push_eq_ok (Pool.orKeep_eq_ok.1 (hpush.symm.trans hrun))).2.2
  failed {call s e p q} hentry hrun := by
    cases hentry
    obtain ⟨i, -, hfound⟩ | hpush := call.run_cases p
    · cases hrun.symm.trans hfound
    · exact (Pool.orKeep_eq_error.1 (hpush.symm.trans hrun)).2.symm

end LiteralPool

/-! ### The pools of classes -/

namespace ConstantPool

/-- The calls that change the pool of a class. -/
inductive Call
  | constant (c : Constant)
  | intern (v : Value)
  | utf8 (text : String)
  | className (name : String)
  | string (text : String)
  | nameAndType (name descriptor : String)
  | fieldRef (owner name descriptor : String)
  | methodRef (owner name descriptor : String)

namespace Call

/-- The answer of a call, and the pool behind it. -/
def run : Call → ConstantPool → Except PoolError UInt16 × ConstantPool
  | constant c => Addition.constant c
  | intern v => Pool.put v
  | utf8 text => Addition.utf8 text
  | className name => Addition.className name
  | string text => Addition.string text
  | nameAndType name descriptor => Addition.nameAndType name descriptor
  | fieldRef owner name descriptor => Addition.fieldRef owner name descriptor
  | methodRef owner name descriptor => Addition.methodRef owner name descriptor

/-- The constant that a call is about, if it is only one. -/
def entry? : Call → Option Constant
  | constant c => some c
  | intern v => some (.number v)
  | utf8 text => some (.utf8 text)
  | _ => none

end Call

instance : PoolCalls ConstantPool where
  Call := Call
  run := Call.run
  entry? := Call.entry?
  upperHalf := .upperHalf

variable {p q : ConstantPool} {index : UInt16} {α β : Type}

theorem isWide_eq (c : Constant) : Pool.isWide (π := ConstantPool) c = c.isWide := by
  cases c <;> rfl

theorem appends_of_add {c : Constant} (h : p.add c = .ok (index, q)) :
    ReflTransGen Pool.Appends p q := by
  obtain ⟨i, -, -, rfl⟩ | ⟨hroom, -, rfl⟩ := add_cases h
  · exact .refl
  · refine .single (.entry c ?_ ?_)
    · rw [isWide_eq]
      exact p.toList_push c
    · show (p.push c).constants.toList.length ≤ 65534
      rw [Array.length_toList, ← size, size_push]
      exact hroom

/-- The addition does nothing but put entries in, also where it fails. -/
def Addition.OnlyAdds (x : Addition α) : Prop := ∀ p, ReflTransGen Pool.Appends p (x p).2

namespace Addition

theorem constant_apply (c : Constant) (p : ConstantPool) :
    constant c p = Pool.orKeep p (p.add c) := by
  simp only [constant, Steps.bind_apply, Steps.get_apply]
  cases p.add c with
  | error e => rfl
  | ok r => rfl

theorem onlyAdds_constant (c : Constant) : OnlyAdds (constant c) := by
  intro p
  rw [constant_apply]
  cases h : p.add c with
  | error e => exact .refl
  | ok r => exact appends_of_add h

theorem OnlyAdds.bind {x : Addition α} {f : α → Addition β} (hx : OnlyAdds x)
    (hf : ∀ a, OnlyAdds (f a)) : OnlyAdds (x >>= f) := by
  intro p
  have hfirst := hx p
  rw [Steps.bind_apply]
  rcases hxp : x p with ⟨_ | a, q⟩
  · rwa [hxp] at hfirst
  · rw [hxp] at hfirst
    exact hfirst.trans (hf a q)

theorem onlyAdds_utf8 (text : String) : OnlyAdds (utf8 text) := onlyAdds_constant _

theorem onlyAdds_className (name : String) : OnlyAdds (className name) :=
  (onlyAdds_utf8 name).bind fun _ => onlyAdds_constant _

theorem onlyAdds_nameAndType (name descriptor : String) : OnlyAdds (nameAndType name descriptor) :=
  (onlyAdds_utf8 name).bind fun _ => (onlyAdds_utf8 descriptor).bind fun _ => onlyAdds_constant _

end Addition

open Addition in
theorem Call.onlyAdds (call : Call) : OnlyAdds call.run := by
  cases call with
  | constant c => exact onlyAdds_constant c
  | intern v =>
      rw [show run (.intern v) = Addition.constant (.number v) from
        funext fun p => (constant_apply (.number v) p).symm]
      exact onlyAdds_constant _
  | utf8 text => exact onlyAdds_utf8 text
  | className name => exact onlyAdds_className name
  | string text => exact (onlyAdds_utf8 text).bind fun _ => onlyAdds_constant _
  | nameAndType name descriptor => exact onlyAdds_nameAndType name descriptor
  | fieldRef owner name descriptor | methodRef owner name descriptor =>
      exact (onlyAdds_className owner).bind fun _ => (onlyAdds_nameAndType name descriptor).bind
        fun _ => onlyAdds_constant _

/-- A call about one constant adds it. -/
theorem Call.run_of_entry? {call : Call} {c : Constant} (h : call.entry? = some c) :
    call.run p = Pool.orKeep p (p.add c) := by
  cases call <;> cases h
  · exact Addition.constant_apply _ p
  · rfl
  · exact Addition.constant_apply _ p

instance : LawfulCalls ConstantPool where
  number?_upperHalf := rfl
  memberDescriptor?_upperHalf {p index} h := by
    have hget : p.get? index = none := by
      rw [get?_eq_slotAt?]
      show (slotAt? (LawfulPool.slots p) index).filter _ = none
      rw [h]
      rfl
    show p.memberDescriptor? index = none
    rw [memberDescriptor?, hget]
  appends call p := call.onlyAdds p
  holds {call c index p q} hsize hentry hrun := by
    have hadd := (Call.run_of_entry? (p := p) hentry).symm.trans hrun
    exact (add_eq_ok (hsize.trans (by omega)) (Pool.orKeep_eq_ok.1 hadd)).2.2
  failed {call c e p q} hentry hrun := by
    have hadd := (Call.run_of_entry? (p := p) hentry).symm.trans hrun
    exact (Pool.orKeep_eq_error.1 hadd).2.symm

/-! ### Pools that were read -/

theorem paired_empty : Pool.Paired ({} : ConstantPool) := by
  intro i s h
  cases h

theorem paired_push (h : Pool.Paired p) (c : Constant) : Pool.Paired (p.push c) := by
  refine h.append rfl (s := c) ?_
  rw [isWide_eq]
  exact p.toList_push c

open Reader in
/-- Reading a pool from a file gives each wide constant its second slot. -/
theorem yields_readFrom_paired {count index : Nat} (h : Pool.Paired p) :
    Yields (readFrom count index p) Pool.Paired := by
  fun_induction readFrom count index p with
  | case1 index p hlt ihwide ihnarrow =>
      refine Yields.bind_any fun c => ?_
      split
      · exact ihwide c (paired_push h c)
      · exact ihnarrow c (paired_push h c)
  | case2 index p hge => exact Yields.pure h

/-- A pool to begin with: it is empty, or was read and leaves no slot without an
index. -/
def Fresh (p : ConstantPool) : Prop :=
  p = {} ∨ p.size ≤ 65534 ∧ ∃ cursor cursor', ConstantPool.read cursor = .ok (p, cursor')

theorem Fresh.paired (h : p.Fresh) : Pool.Paired p ∧ p.size ≤ 65534 := by
  rcases h with rfl | ⟨hsize, cursor, cursor', hread⟩
  · exact ⟨paired_empty, Nat.zero_le _⟩
  · have hyields : Reader.Yields ConstantPool.read Pool.Paired :=
      Reader.Yields.bind_any fun count => yields_readFrom_paired paired_empty
    exact ⟨hyields _ _ _ hread, hsize⟩

end ConstantPool

/-- **Indices are stable and unambiguous.** Whatever calls are made on an empty pool of
either kind, or on one that was read from a class file, the pool behind them never
runs out of indices for its slots, wide numbers keep their second slots to
themselves, and every index that is handed out goes on to mean what it was handed out
for and nothing else. -/
theorem Pool.indices_stable :
    (∀ calls, Stable (after calls ({} : LiteralPool))) ∧
      ∀ (start : ConstantPool) (_ : start.Fresh) (calls), Stable (after calls start) := by
  constructor
  · intro calls
    refine Paired.stable_after ?_ (Nat.zero_le _) calls
    intro i s h
    cases h
  · intro start hstart calls
    obtain ⟨hpaired, hsize⟩ := hstart.paired
    exact hpaired.stable_after hsize calls

/-- A long and an int of one value. -/
def ConstantPool.sevens : ConstantPool := ⟨#[.number (.long 7), .upperHalf, .number (.int 7)]⟩

theorem Pool.indices_stable_sevens :
    ConstantPool.sevens.Fresh ∧ put (.int 7) ConstantPool.sevens = (.ok 3, ConstantPool.sevens) ∧
      Stable (after [ConstantPool.Call.className "A", ConstantPool.Call.intern (.int 7)]
        ConstantPool.sevens) := by
  have hread : ConstantPool.read (.start [0, 4, 5, 0, 0, 0, 0, 0, 0, 0, 7, 3, 0, 0, 0, 7]) =
      .ok (ConstantPool.sevens, ⟨16, []⟩) := by
    with_unfolding_all rfl
  have hfresh : ConstantPool.sevens.Fresh := .inr ⟨by decide, _, _, hread⟩
  exact ⟨hfresh, by with_unfolding_all rfl, indices_stable.2 _ hfresh _⟩

end JvmOptimizer
