import JvmOptimizer.Proofs.Flow
import JvmOptimizer.Proofs.Fold.Account
import JvmOptimizer.Proofs.Fold.Stack

/-!
# One step of a folded method

Suppose that what a run knows on arrival at a node is true of the machine. When
the machine runs the instruction there, two things can be said: what is true
afterwards, and what the result of the run does in the meantime. Either it has
an instruction of its own at that place which does the same to a stack without
the ghosts, or it has none, and the step only moved ghosts.
-/

namespace JvmOptimizer

open Machine

variable {Ref Heap Event : Type} {env : Environment Ref Heap Event}

namespace Machine

variable {insn : Instruction Nat} {c : Computation} {stack stack' : List (Datum Ref)}
  {vars vars' : Variables Ref} {heap heap' : Heap} {events : List Event} {target : Option Nat}

theorem execute_of_computation? (h : computation? insn = some c) :
    execute env insn stack vars heap = compute env c stack vars heap := by
  cases insn with
  | arith op kind =>
      cases h
      rfl
  | compare comparison =>
      cases h
      rfl
  | convert source target =>
      cases h
      rfl
  | _ => cases h

theorem mapM_number? (values : List Value) :
    (values.map (Datum.number : Value → Datum Ref)).mapM Datum.number? = some values := by
  induction values with
  | nil => rfl
  | cons v values ih =>
      rw [List.map_cons, List.mapM_cons, ih]
      rfl

/-- On numbers a branch goes where its evaluation says. -/
theorem taken?_number {condition : Condition} {values : List Value} :
    taken? env condition (values.map .number) =
      (Eval.branchTaken condition values).toOption.join := by
  unfold taken?
  split
  · rename_i h
    rcases values with _ | ⟨a, _ | ⟨b, values⟩⟩ <;> simp at h
  · rename_i h
    rcases values with _ | ⟨a, values⟩ <;> simp at h
  · rw [mapM_number?]

/-- Control leaves the instruction by an exception or for good. -/
def Action.Leaves {τ : Type} : Action τ Ref Heap Event → Prop
  | .throws _ _ _ => True
  | .returns _ _ _ => True
  | _ => False

theorem Action.Leaves.mapTarget {action : Action Nat Ref Heap Event} (h : action.Leaves)
    (f : Nat → Nat) : action.mapTarget f = action := by
  cases action with
  | goes | stuck => exact h.elim
  | throws | returns => rfl

/-- Only computations and instructions that are carried verbatim let control
leave. -/
theorem not_leaves_execute (hc : computation? insn = none)
    (hv : ∀ opcode bytes, insn ≠ .verbatim opcode bytes) :
    ¬ (execute env insn stack vars heap).Leaves := by
  intro h
  cases insn with
  | const | jump => exact h
  | load | store | increment | switch | branch =>
      simp only [execute] at h
      repeat' split at h
      all_goals exact h
  | arith | compare | convert => cases hc
  | verbatim opcode bytes => exact hv opcode bytes rfl

end Machine

namespace Fold

/-- What the slot knows is true. -/
def Slot.Tells (slot : Slot) (d : Datum Ref) : Prop := ∀ v, slot.value = some v → d = .number v

/-- Known operands are those that the machine takes. -/
theorem operands_eq {slots : List Slot} {stack : List (Datum Ref)} {values : List Value} {k : Nat}
    (h : Describes Slot.Tells slots stack) (hle : k ≤ slots.length)
    (hv : (slots.take k).reverse.map (·.value) = values.map some) :
    Machine.operands k stack = values.map .number := by
  have htake : stack.take k = values.reverse.map .number := by
    refine h.take_eq (fun slot d v hd => hd v) hle ?_
    rw [List.map_reverse] at hv
    rw [List.map_reverse, ← hv, List.reverse_reverse]
  rw [Machine.operands, htake, List.map_reverse, List.reverse_reverse]

namespace Run

open CodeStream

variable {m : Method} {R : Run m} {n : Nat} {insn : Instruction Nat} {target : Option Nat}
  {stack stack' : List (Datum Ref)} {vars vars' : Variables Ref} {heap heap' : Heap}
  {events : List Event} {slots : List Slot} {d : Datum Ref}

/-- The result of the run does this at the node, on a stack without ghosts. -/
def Copies (R : Run m) (env : Environment Ref Heap Event) (n : Nat) (stack : List (Datum Ref))
    (vars : Variables Ref) (heap : Heap) (action : Action Nat Ref Heap Event) : Prop :=
  R.final.isLive n ∧ ∃ insn, R.final.instruction? n = some insn ∧
    Machine.execute env insn (strip R.ghost (R.arrival n).stack stack) vars heap = action

/-- An instruction that stays does in the result what it does on the stack without
ghosts, under the new names of its targets. -/
theorem Keeps.copies (hk : R.Keeps n insn) {action : Action Nat Ref Heap Event}
    (h : Machine.execute env insn (strip R.ghost (R.arrival n).stack stack) vars heap = action) :
    R.Copies env n stack vars heap (action.mapTarget R.final.ahead) :=
  ⟨hk.1, _, hk.2, by rw [execute_mapTargets, h]⟩

theorem Keeps.copies_goes (hk : R.Keeps n insn)
    (h : Machine.execute env insn (strip R.ghost (R.arrival n).stack stack) vars heap =
      .goes target stack' vars' heap' events) :
    R.Copies env n stack vars heap
      (.goes (target.map R.final.ahead) stack' vars' heap' events) :=
  hk.copies h

theorem Keeps.copies_of_solid (hk : R.Keeps n insn) (hg : R.Solid (R.arrival n).stack)
    (h : Machine.execute env insn stack vars heap = .goes target stack' vars' heap' events) :
    R.Copies env n stack vars heap
      (.goes (target.map R.final.ahead) stack' vars' heap' events) :=
  hk.copies_goes (by rw [strip_eq_self hg, h])

/-- While the machine goes on, the result of the run does the same on its own
stack, or it has nothing to do. -/
def Mirrors (R : Run m) (env : Environment Ref Heap Event) (n : Nat) (stack : List (Datum Ref))
    (vars : Variables Ref) (heap : Heap) (target : Option Nat) (stack' : List (Datum Ref))
    (vars' : Variables Ref) (heap' : Heap) (events : List Event) : Prop :=
  R.Copies env n stack vars heap
      (.goes (target.map R.final.ahead) stack' vars' heap' events) ∨
    R.Clears n (target.getD (n + 1)) ∧ stack' = strip R.ghost (R.arrival n).stack stack ∧
      vars' = vars ∧ heap' = heap ∧ events = []

/-- The machine goes on, with what is known then, and the result of the run
follows. -/
structure Advance (R : Run m) (env : Environment Ref Heap Event) (n : Nat)
    (stack : List (Datum Ref)) (vars : Variables Ref) (heap : Heap) (target : Option Nat)
    (stack' : List (Datum Ref)) (vars' : Variables Ref) (heap' : Heap) (events : List Event)
    (locals : Locals) (slots : List Slot) (floor : Bool) : Prop where
  fits : locals.Fits vars'
  describes : Describes Slot.Tells slots stack'
  flows : target.getD (n + 1) < m.code.length →
    R.Flows n locals slots floor (target.getD (n + 1))
  mirrors : R.Mirrors env n stack vars heap target (strip R.ghost slots stack') vars' heap' events

/-- A node pushes a value, unless it is gone: then the value is a ghost. -/
theorem mirrors_push {x : Instruction Nat} {value : Option Value}
    (hx : R.final.instruction? n = some x)
    (he : ∀ rest, Machine.execute env x rest vars heap = .goes none (d :: rest) vars heap [])
    (hs : strip R.ghost slots stack' = strip R.ghost (R.arrival n).stack stack) :
    R.Mirrors env n stack vars heap none (strip R.ghost (⟨value, some n⟩ :: slots) (d :: stack'))
      vars heap [] := by
  by_cases hlive : R.final.isLive n
  · left
    have hghost : R.ghost ⟨value, some n⟩ = false := by
      rw [ghost_pushed, hlive]
      rfl
    refine ⟨hlive, x, hx, ?_⟩
    rw [strip_cons_of_not_gone hghost, hs, he]
    rfl
  · right
    have hghost : R.ghost ⟨value, some n⟩ = true := by
      rw [ghost_pushed, Bool.eq_false_of_not_eq_true hlive]
      rfl
    refine ⟨clears_succ hlive, ?_, rfl, rfl, rfl⟩
    rw [strip_cons_of_gone hghost, hs]

section Goes

variable (hl : (R.arrival n).locals.Fits vars)
  (hd : Describes Slot.Tells (R.arrival n).stack stack)
include hl hd

/-- A load pushes what the variable holds. Where that is known the result may have
a constant instead, of the same value. -/
theorem advance_load {kind : LocalKind} {index : UInt16}
    (hi : R.final.instruction? n = some (.load kind index) ∨
      ∃ v, (R.arrival n).locals.ofKind? kind index.toNat = some v ∧
        R.final.instruction? n = some (.const v))
    (next : R.Passes n (R.arrival n).locals
      (⟨(R.arrival n).locals.ofKind? kind index.toNat, some n⟩ :: (R.arrival n).stack)
      (R.arrival n).floor)
    (he : Machine.execute env (.load kind index) stack vars heap =
      .goes target stack' vars' heap' events) :
    R.Advance env n stack vars heap target stack' vars' heap' events (R.arrival n).locals
      (⟨(R.arrival n).locals.ofKind? kind index.toNat, some n⟩ :: (R.arrival n).stack)
      (R.arrival n).floor := by
  simp only [Machine.execute] at he
  split at he
  · rename_i d hvar
    split at he
    · rename_i hkind
      cases he
      -- What is known about the variable is what the load pushes.
      have htells : ∀ v, (R.arrival n).locals.ofKind? kind index.toNat = some v → d = .number v := by
        intro v hv
        have hfit := hl _ (Locals.mem_of_ofKind? hv).1
        rw [hvar] at hfit
        exact Option.some.inj hfit
      refine ⟨hl, ⟨htells, hd⟩, next, ?_⟩
      rcases hi with hi | ⟨v, hv, hi⟩
      · refine mirrors_push hi (fun rest => ?_) rfl
        simp only [Machine.execute, hvar, hkind, if_true]
      · obtain rfl := htells v hv
        exact mirrors_push hi (fun rest => rfl) rfl
    · cases he
  · cases he

/-- A store writes the value on top, which is no ghost, so the result writes it
too. -/
theorem advance_store {kind : LocalKind} {index : UInt16} (hf : (R.arrival n).locals.Functional)
    (hk : R.Keeps n (.store kind index)) (hg : R.Solid ((R.arrival n).stack.take 1))
    (next : R.Passes n
      ((R.arrival n).locals.stored kind index ((R.arrival n).stack.head?.bind (·.value)))
      ((R.arrival n).stack.drop 1) (R.arrival n).floor)
    (he : Machine.execute env (.store kind index) stack vars heap =
      .goes target stack' vars' heap' events) :
    R.Advance env n stack vars heap target stack' vars' heap' events
      ((R.arrival n).locals.stored kind index ((R.arrival n).stack.head?.bind (·.value)))
      ((R.arrival n).stack.drop 1) (R.arrival n).floor := by
  cases stack with
  | nil => cases he
  | cons d rest =>
      simp only [Machine.execute] at he
      split at he
      · rename_i hkind
        obtain ⟨rfl, rfl, rfl, rfl, rfl⟩ := Action.goes.inj he
        have htells : ∀ v, (R.arrival n).stack.head?.bind (·.value) = some v → d = .number v := by
          intro v hv
          cases hstack : (R.arrival n).stack with
          | nil => simp [hstack] at hv
          | cons slot slots =>
              rw [hstack] at hd hv
              exact hd.1 v hv
        refine ⟨hl.stored hf hkind htells, hd.drop 1, next, .inl ?_⟩
        obtain ⟨htake, hdrop⟩ := take_strip (d :: rest) hg
        have hstrip : strip R.ghost (R.arrival n).stack (d :: rest) =
            d :: strip R.ghost ((R.arrival n).stack.drop 1) rest := by
          rw [← List.take_append_drop 1 (strip R.ghost (R.arrival n).stack (d :: rest)), htake, hdrop]
          rfl
        refine hk.copies_goes ?_
        rw [hstrip]
        simp only [Machine.execute, hkind, if_true]
      · cases he

theorem advance_increment {index : UInt16} {delta : Int16} (hf : (R.arrival n).locals.Functional)
    (hk : R.Keeps n (.increment index delta))
    (next : R.Passes n ((R.arrival n).locals.incremented index delta) (R.arrival n).stack
      (R.arrival n).floor)
    (he : Machine.execute env (.increment index delta) stack vars heap =
      .goes target stack' vars' heap' events) :
    R.Advance env n stack vars heap target stack' vars' heap' events
      ((R.arrival n).locals.incremented index delta) (R.arrival n).stack (R.arrival n).floor := by
  simp only [Machine.execute] at he
  split at he
  · rename_i v hvar
    cases he
    refine ⟨hl.incremented hf hvar, hd, next, .inl (hk.copies_goes ?_)⟩
    simp only [Machine.execute, hvar]
  · cases he

/-- A computation that stays finds its operands, none of which is a ghost. -/
theorem advance_compute {c : Computation} (hc : computation? insn = some c)
    (hk : R.Keeps n insn) (hg : R.Solid ((R.arrival n).stack.take c.arity))
    (next : R.Passes n (R.arrival n).locals
      (Slot.unknown :: (R.arrival n).stack.drop c.arity) (R.arrival n).floor)
    (he : Machine.execute env insn stack vars heap = .goes target stack' vars' heap' events) :
    R.Advance env n stack vars heap target stack' vars' heap' events (R.arrival n).locals
      (Slot.unknown :: (R.arrival n).stack.drop c.arity) (R.arrival n).floor := by
  rw [execute_of_computation? hc] at he
  obtain ⟨values, v, hv, heval, rfl, rfl, rfl, rfl, rfl⟩ := compute_eq_goes he
  refine ⟨hl, ⟨nofun, hd.drop _⟩, next, .inl (hk.copies_goes ?_)⟩
  obtain ⟨htake, hdrop⟩ := take_strip stack hg
  rw [execute_of_computation? hc, Machine.compute, Machine.operands, htake]
  rw [Machine.operands] at hv
  simp only [hv, heval, hdrop]
  rfl

/-- A computation that was folded: the machine computes the value that the result
has as a constant, and its operands are ghosts. -/
theorem advance_condense {c : Computation} {values : List Value} {v : Value}
    (hc : computation? insn = some c) (hle : c.arity ≤ (R.arrival n).stack.length)
    (hv : ((R.arrival n).stack.take c.arity).reverse.map (·.value) = values.map some)
    (hg : ∀ slot ∈ (R.arrival n).stack.take c.arity, R.ghost slot = true)
    (heval : c.eval values = .ok v) (hi : R.final.instruction? n = some (.const v))
    (next : R.Passes n (R.arrival n).locals
      (⟨some v, some n⟩ :: (R.arrival n).stack.drop c.arity) (R.arrival n).floor)
    (he : Machine.execute env insn stack vars heap = .goes target stack' vars' heap' events) :
    R.Advance env n stack vars heap target stack' vars' heap' events (R.arrival n).locals
      (⟨some v, some n⟩ :: (R.arrival n).stack.drop c.arity) (R.arrival n).floor := by
  rw [execute_of_computation? hc, Machine.compute, operands_eq hd hle hv, mapM_number?] at he
  simp only [heval] at he
  cases he
  refine ⟨hl, ⟨fun w hw => ?_, hd.drop _⟩, next, mirrors_push hi (fun rest => rfl) ?_⟩
  · rw [Option.some.inj hw]
  · exact (strip_of_gone hle hg).symm

/-- **The machine goes on.** -/
theorem advance (ht : R.Treated n insn) (hf : (R.arrival n).locals.Functional)
    (he : Machine.execute env insn stack vars heap = .goes target stack' vars' heap' events) :
    ∃ locals slots floor,
      R.Advance env n stack vars heap target stack' vars' heap' events locals slots floor := by
  cases ht with
  | const hi next =>
      cases he
      refine ⟨_, _ :: _, _, hl, ⟨fun w hw => ?_, hd⟩, next, mirrors_push hi (fun rest => rfl) rfl⟩
      rw [Option.some.inj hw]
  | load hi next => exact ⟨_, _, _, advance_load hl hd hi next he⟩
  | store hk hs hg next => exact ⟨_, _, _, advance_store hl hd hf hk hg next he⟩
  | increment hk next => exact ⟨_, _, _, advance_increment hl hd hf hk next he⟩
  | compute hc hk hs hg next => exact ⟨_, _, _, advance_compute hl hd hc hk hg next he⟩
  | condense hc hle hv hg heval hi next =>
      exact ⟨_, _, _, advance_condense hl hd hc hle hv hg heval hi next he⟩
  | branch hk hs hg next jump =>
      -- No value is a ghost, so the two stacks are one.
      have hcopy := hk.copies_of_solid hg he
      simp only [Machine.execute] at he
      split at he
      · cases he
        refine ⟨_, _, _, hl, (hd.drop _).map (f := Slot.keep) fun _ _ h => h, fun _ => jump, .inl ?_⟩
        rw [strip_eq_self R.solid_map_keep]
        exact hcopy
      · cases he
        refine ⟨_, _, _, hl, (hd.drop _).map (f := Slot.keep) fun _ _ h => h, next, .inl ?_⟩
        rw [strip_eq_self R.solid_map_keep]
        exact hcopy
      · cases he
  | pass hlive hle hv hg heval next =>
      -- The machine decides as the walk did; the result has nothing to do.
      simp only [Machine.execute, operands_eq hd hle hv, taken?_number, heval] at he
      cases he
      exact ⟨_, _, _, hl, hd.drop _, next,
        .inr ⟨clears_succ hlive, (strip_of_gone hle hg).symm, rfl, rfl, rfl⟩⟩
  | take hc hle hv hg heval jump =>
      simp only [Machine.execute, operands_eq hd hle hv, taken?_number, heval] at he
      cases he
      exact ⟨_, _, _, hl, hd.drop _, fun _ => jump,
        .inr ⟨hc, (strip_of_gone hle hg).symm, rfl, rfl, rfl⟩⟩
  | jump hk hg jump =>
      have hcopy := hk.copies_of_solid hg he
      cases he
      refine ⟨_, _, _, hl, hd, fun _ => jump, .inl ?_⟩
      rw [strip_eq_self hg]
      exact hcopy
  | skip hc jump =>
      cases he
      exact ⟨_, _, _, hl, hd, fun _ => jump, .inr ⟨hc, rfl, rfl, rfl, rfl⟩⟩
  | switch hk hs hg jump =>
      have hcopy := hk.copies_of_solid hg he
      simp only [Machine.execute] at he
      split at he
      · cases he
        refine ⟨_, _, _, hl, hd.drop 1, fun _ => jump _ (select_mem _ _ _), .inl ?_⟩
        rw [strip_eq_self fun slot hmem => hg slot (List.mem_of_mem_drop hmem)]
        exact hcopy
      · cases he
  | verbatim hk hs hg next =>
      have hcopy := hk.copies_of_solid hg he
      obtain ⟨rfl, rfl, hflow⟩ := runVerbatim_eq_goes he
      refine ⟨_, [], _, hl, trivial, next hflow, .inl ?_⟩
      rw [strip_nil]
      exact hcopy

end Goes

/-- **Control leaves.** Only nodes that stay do this, and they do it the same. -/
theorem copies_of_leaves {action : Action Nat Ref Heap Event} (ht : R.Treated n insn)
    (hd : Describes Slot.Tells (R.arrival n).stack stack)
    (he : Machine.execute env insn stack vars heap = action) (ha : action.Leaves) :
    R.Copies env n stack vars heap action := by
  rw [← ha.mapTarget R.final.ahead]
  cases ht with
  | compute hc hk hs hg next =>
      refine hk.copies ?_
      obtain ⟨htake, -⟩ := take_strip stack hg
      rw [execute_of_computation? hc] at he ⊢
      unfold Machine.compute Machine.operands at he ⊢
      rw [htake]
      split at he
      · rw [← he] at ha
        exact ha.elim
      · split at he
        · rw [← he] at ha
          exact ha.elim
        · exact he
        · rw [← he] at ha
          exact ha.elim
  | verbatim hk hs hg next => exact hk.copies (by rw [strip_eq_self hg, he])
  | condense hc hle hv hg heval hi next =>
      rw [execute_of_computation? hc, Machine.compute, operands_eq hd hle hv, mapM_number?] at he
      simp only [heval] at he
      rw [← he] at ha
      exact ha.elim
  | _ =>
      rw [← he] at ha
      exact absurd ha (not_leaves_execute rfl nofun)

end Run

end Fold

end JvmOptimizer
