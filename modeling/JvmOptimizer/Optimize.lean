import JvmOptimizer.CodeStream.Method
import JvmOptimizer.DeadStore
import JvmOptimizer.Fold.Pass
import JvmOptimizer.Settings
import JvmOptimizer.Sizing

/-!
# Optimizing a method

A method is turned into a stream, folded, freed from dead stores and turned
back. If that changed its body, its limits are computed anew; a stack depth
that cannot be computed stays as it was declared.
-/

namespace JvmOptimizer

/-- What the passes did. -/
structure OptimizeStats where
  fold : Fold.Stats := {}
  deadStores : DeadStore.Stats := {}

/-- An optimized method. -/
structure Optimized where
  method : Method
  /-- Does the body differ from the given one? -/
  changed : Bool
  stats : OptimizeStats

namespace Method

variable {π : Type} [Pool π]

/-- The method with its limits computed from its body. -/
def resize (pool : π) (m : Method) : Method :=
  { m with
    maxLocals := Sizing.maxLocals m
    maxStack := (Sizing.maxStack pool m).toOption.getD m.maxStack }

/-- Run the passes that the settings ask for. -/
def runPasses (settings : Settings) (s : CodeStream) :
    Except OptimizeError (OptimizeStats × CodeStream) := do
  let (fold, s) ←
    if settings.foldConstants then
      let (outcome, s) := s.fold s.loops
      pure (← outcome, s)
    else
      pure ({}, s)
  let (deadStores, s) ←
    if settings.removeDeadStores then
      let (outcome, s) := s.removeDeadStores settings.deadStoreRounds
      pure (← outcome, s)
    else
      pure ({}, s)
  return (⟨fold, deadStores⟩, s)

/-- A stream operation as a part of the optimization. -/
def orDangling {α : Type} : Except DanglingTarget α → Except OptimizeError α :=
  Except.mapError .danglingTarget

/-- Optimize a method. The pool is only read, for the sizes of members. -/
def optimize (pool : π) (settings : Settings) (m : Method) :
    Except OptimizeError Optimized := do
  let (stats, s) ← runPasses settings (← orDangling (CodeStream.ofMethod m))
  let result ← orDangling (s.toMethod m)
  let changed := !result.sameBody m
  return ⟨if changed then result.resize pool else result, changed, stats⟩

/-- Optimize a method, or leave it as it is if that fails. -/
def optimizeOrKeep (pool : π) (settings : Settings) (m : Method) : Optimized :=
  match m.optimize pool settings with
  | .ok optimized => optimized
  | .error _ => ⟨m, false, {}⟩

end Method

end JvmOptimizer
