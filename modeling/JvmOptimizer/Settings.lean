/-!
# Settings

What the optimizer is asked to do. Rewritten methods carry no stack map frames,
so the classes they belong to have to be of a version that does without.
-/

namespace JvmOptimizer

/-- What the optimizer is asked to do. -/
structure Settings where
  /-- Fold constants and decide branches. -/
  foldConstants : Bool := true
  /-- Remove stores whose value is never read. -/
  removeDeadStores : Bool := true
  /-- The most rounds that the removal of dead stores takes. -/
  deadStoreRounds : Nat := 64
  /-- The highest version of a class with rewritten methods. -/
  targetVersion : UInt16 := 50
  /-- Names of files that are left as they are. -/
  exclude : List String := []

namespace Settings

/-- The last class version that needs no stack map frames. -/
def maxTargetVersion : UInt16 := 50

/-- Is a file of this name left as it is? -/
def isExcluded (s : Settings) (fileName : String) : Bool := s.exclude.contains fileName

/-- Does the target version do without stack map frames? -/
def isValid (s : Settings) : Bool := s.targetVersion ≤ maxTargetVersion

/-- What is wrong with settings that are not valid. -/
def complaint (s : Settings) : String :=
  s!"target version {s.targetVersion.toNat} is above {maxTargetVersion.toNat}, " ++
    "rewritten methods carry no stack map frames"

end Settings

end JvmOptimizer
