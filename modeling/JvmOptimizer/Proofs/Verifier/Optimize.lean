import JvmOptimizer.Optimize
import JvmOptimizer.Pool.Literal
import JvmOptimizer.Proofs.DeadStore.Shapes
import JvmOptimizer.Proofs.Fold.Shapes
import JvmOptimizer.Proofs.Verifier.Depth

/-!
# Optimizing a verified method

On a verified method no pass fails, and each leaves a verified stream whose
stacks are no deeper than they were. So the declared depth bounds the shapes of
the result, whether it is kept or computed anew.
-/

namespace JvmOptimizer.Verifier

open CodeStream

variable {π : Type} [Pool π] {pool : π} {m : Method} {s : CodeStream} {shape shape' : Nat → Shape}
  {n limit : Nat} {insn : Instruction Nat}

/-- Whatever passes are asked for, they succeed. -/
theorem exists_runPasses (h : Verified pool m shape) (settings : Settings) :
    ∃ stats s shape', Method.runPasses settings (whole m) = .ok (stats, s) ∧
      Typed pool s shape' ∧ s.Thins m ∧ ∀ n, depth (shape' n) ≤ depth (shape n) := by
  have hfold : ∃ stats s shape',
      (if settings.foldConstants then (whole m).fold (whole m).loops else (.ok {}, whole m)) =
        (.ok stats, s) ∧
      Typed pool s shape' ∧ s.Thins m ∧ ∀ n, depth (shape' n) ≤ depth (shape n) := by
    split
    · exact Fold.exists_fold h
    · exact ⟨{}, _, shape, rfl, h.typed, thins_whole h.isClosed, fun _ => le_rfl⟩
  obtain ⟨fold, s, shape', hfold, htyped, hthins, hdepth⟩ := hfold
  have hstores : ∃ stats s',
      (if settings.removeDeadStores then s.removeDeadStores settings.deadStoreRounds
        else (.ok {}, s)) = (.ok stats, s') ∧ Typed pool s' shape' ∧ s'.Thins m := by
    split
    · exact DeadStore.exists_removeDeadStores htyped hthins _
    · exact ⟨{}, _, rfl, htyped, hthins⟩
  obtain ⟨stores, s', hstores, htyped', hthins'⟩ := hstores
  refine ⟨⟨fold, stores⟩, s', shape', ?_, htyped', hthins', hdepth⟩
  unfold Method.runPasses
  cases hf : settings.foldConstants <;> cases hd : settings.removeDeadStores <;>
    simp_all [pure, Except.pure, bind, Except.bind]

/-- Where the passes succeed there is a result. -/
theorem optimize_eq_ok {settings : Settings} {stats : OptimizeStats} (hm : m.IsClosed)
    (hp : Method.runPasses settings (whole m) = .ok (stats, s)) (hs : s.IsClosed) :
    m.optimize pool settings =
      .ok ⟨if !(s.flat m).sameBody m then (s.flat m).resize pool else s.flat m,
        !(s.flat m).sameBody m, stats⟩ := by
  have hof : ofMethod m = .ok (whole m) := ofMethod_eq_ok_iff.2 ⟨hm, rfl⟩
  unfold Method.optimize
  simp only [hof, hs.toMethod m, Method.orDangling, Except.mapError, bind, Except.bind, hp]
  rfl

/-- A bound of the shapes bounds them by places as well. -/
theorem depth_flatShape_le (h : ∀ n, s.isLive n → depth (shape n) ≤ limit) (j : Nat) :
    depth (flatShape s shape j) ≤ limit := by
  unfold flatShape
  cases hj : s.ids[j]? with
  | none => exact Nat.zero_le _
  | some n => exact h n (mem_ids.1 (List.mem_of_getElem? hj))

/-- Limits are of no concern to the shapes. -/
theorem Verified.resize (h : Verified pool m shape) : Verified pool (m.resize pool) shape :=
  ⟨h.start, h.regular, h.effect, h.handler⟩

/-- The depth of a resized method is computed, or else declared. -/
theorem Verified.within_resize (h : Verified pool m shape)
    (hb : ∀ n < m.code.length, depth (shape n) ≤ m.maxStack.toNat) (hr : m.Reachable n)
    (hi : m.code[n]? = some insn) :
    Within pool shape (m.resize pool).maxStack.toNat n insn := by
  show Within pool shape ((Sizing.maxStack pool m).toOption.getD m.maxStack).toNat n insn
  cases hs : Sizing.maxStack pool m with
  | error e => exact h.within hb hi
  | ok size =>
      refine h.within_maxStack (fun n hn => (hb n hn).trans ?_) hs hr hi
      exact Nat.le_of_lt_succ m.maxStack.toNat_lt

theorem reachable_resize : (m.resize pool).Reachable n → m.Reachable n := by
  intro h
  refine Relation.ReflTransGen.mono (fun i j he => ?_) _ _ h
  cases he with
  | next hi hf => exact .next hi hf
  | target hi ht => exact .target hi ht
  | handler hi hmem hle hlt => exact .handler hi hmem hle hlt

/-- **Optimization never breaks a verified method.** If the declared depth bounds
its shapes, then whatever the settings it is optimized without an error, the
result is verified, and what the result declares bounds the depth before and
after each instruction that control can come to. -/
theorem optimize_verified (h : Verified pool m shape)
    (hb : ∀ n < m.code.length, depth (shape n) ≤ m.maxStack.toNat) (settings : Settings) :
    ∃ o, m.optimize pool settings = .ok o ∧ ∃ shape', Verified pool o.method shape' ∧
      ∀ n insn, o.method.Reachable n → o.method.code[n]? = some insn →
        Within pool shape' o.method.maxStack.toNat n insn := by
  obtain ⟨stats, s, shape', hpasses, htyped, hthins, hdepth⟩ := exists_runPasses h settings
  have hflat : Verified pool (s.flat m) (flatShape s shape') := htyped.flat hthins.isClosed m
  have hbound : ∀ n < (s.flat m).code.length,
      depth (flatShape s shape' n) ≤ (s.flat m).maxStack.toNat := by
    intro n _
    refine depth_flatShape_le (fun k hk => (hdepth k).trans (hb k ?_)) n
    rw [← hthins.size]
    exact lt_size_of_isLive hk
  refine ⟨_, optimize_eq_ok h.isClosed hpasses hthins.isClosed, flatShape s shape', ?_⟩
  dsimp only
  split
  · exact ⟨hflat.resize, fun n insn hr hi => hflat.within_resize hbound (reachable_resize hr) hi⟩
  · exact ⟨hflat, fun n insn _ hi => hflat.within hbound hi⟩

/-- A branch that is decided, in front of an instruction that a handler
protects. -/
def decidedBranch : Method where
  code := [.const (.int 2), .const (.int 3), .arith .add .int, .branch (.zero .eq) 5,
    .verbatim 0x00 [], .verbatim 0xb1 [], .verbatim 0xbf []]
  handlers := [⟨4, 5, 6, 0⟩]
  maxStack := 2

/-- The shapes of the decided branch. -/
def decidedShape : Nat → Shape
  | 1 | 3 => [.number .int]
  | 2 => [.number .int, .number .int]
  | 6 => [.reference]
  | _ => []

theorem verified_decidedBranch (pool : π) : Verified pool decidedBranch decidedShape where
  start := rfl
  regular := by
    have hall : ∀ insn ∈ decidedBranch.code, IsRegular insn := by
      simp only [decidedBranch, List.forall_mem_cons, IsRegular]
      exact ⟨trivial, trivial, .inl (by decide), trivial, by decide, by decide, by decide,
        by simp⟩
    exact fun {insn} => hall insn
  effect := by
    intro n insn hi
    have hn : n < 7 := (List.getElem?_eq_some_iff.1 hi).1
    interval_cases n <;> cases hi
    · exact ⟨_, ⟨[], _, [], ⟨rfl, rfl⟩, rfl, rfl⟩, List.forall_mem_nil _, fun _ => ⟨by decide, rfl⟩⟩
    · exact ⟨_, ⟨[], _, _, ⟨rfl, rfl⟩, rfl, rfl⟩, List.forall_mem_nil _, fun _ => ⟨by decide, rfl⟩⟩
    · exact ⟨_, ⟨_, _, [], ⟨rfl, rfl⟩, rfl, rfl⟩, List.forall_mem_nil _, fun _ => ⟨by decide, rfl⟩⟩
    · exact ⟨_, ⟨_, _, [], ⟨rfl, rfl⟩, rfl, rfl⟩, by decide, fun _ => ⟨by decide, rfl⟩⟩
    · exact ⟨_, ⟨[], [], [], fun _ he => by cases he; decide, rfl, rfl⟩, List.forall_mem_nil _,
        fun _ => ⟨by decide, rfl⟩⟩
    · exact ⟨_, ⟨[], [], [], fun _ he => by cases he; decide, rfl, rfl⟩, List.forall_mem_nil _,
        by decide⟩
    · exact ⟨[], ⟨[.reference], [], [], fun _ he => by cases he; decide, rfl, rfl⟩,
        List.forall_mem_nil _, by decide⟩
  handler := by
    intro r hmem
    obtain rfl := List.mem_singleton.1 hmem
    decide

theorem optimize_verified_decidedBranch :
    Verified (⟨#[]⟩ : LiteralPool) decidedBranch decidedShape ∧
      (∀ n < 7, depth (decidedShape n) ≤ 2) ∧
      ∃ o, decidedBranch.optimize (⟨#[]⟩ : LiteralPool) {} = .ok o ∧
        ∃ shape', Verified (⟨#[]⟩ : LiteralPool) o.method shape' ∧
          ∀ n insn, o.method.Reachable n → o.method.code[n]? = some insn →
            Within (⟨#[]⟩ : LiteralPool) shape' o.method.maxStack.toNat n insn :=
  ⟨verified_decidedBranch _, by decide,
    optimize_verified (verified_decidedBranch _) (by decide) {}⟩

end JvmOptimizer.Verifier
