import ScalarLowering.Lowering.Calls
import ScalarLowering.Lowering.Fields
import ScalarLowering.Lowering.RoundTrips
import ScalarLowering.Edit.DeadVariables
import ScalarLowering.Shape.Reachability
import ScalarLowering.Shape.Verify

/-! The whole lowering: the wrapper operations first, and, if any was lowered, the clean-up
they leave behind. Each step works on one snapshot of the chains and may not cause another
one to be taken. -/

namespace ScalarLowering

/-- The steps to run. -/
structure Config where
  constructors : Bool := true
  equality : Bool := true
  fieldLoads : Bool := true
  addressCleanup : Bool := true
  deadVariables : Bool := true
  /-- Whether to verify the graph at the end; on by default, as in debug builds. -/
  verify : Bool := true
  deriving DecidableEq

/-- Runs no step. -/
def Config.nothing : Config := ⟨false, false, false, false, false, false⟩

/-- How much each step changed. -/
structure Stats where
  constructors : Nat := 0
  equality : Nat := 0
  fieldLoads : Nat := 0
  fieldAddresses : Nat := 0
  addressLoads : Nat := 0
  droppedVariables : Nat := 0
  deriving DecidableEq

/-- Whether a wrapper operation was lowered. -/
def Stats.modified (s : Stats) : Bool :=
  0 < s.constructors + s.equality + s.fieldLoads + s.fieldAddresses

namespace Edit

/-- Runs a step on the snapshot of the graph as it is. -/
def batch (step : Chains → Edit Nat) : Edit Nat := do
  let c ← snapshot
  setCheckpoint
  let count ← step c
  query (·.checkCheckpoint)
  return count

def onlyIf (enabled : Bool) (step : Edit Nat) : Edit Nat :=
  if enabled then step else return 0

/-- Lowers the wrapper operations. -/
def lowerWrappers (p : Pool) (config : Config) : Edit Stats := do
  let constructors ← onlyIf config.constructors (batch (lowerConstructors p))
  let equality ← onlyIf config.equality (batch (lowerEqualities p))
  let fieldLoads ← onlyIf config.fieldLoads (batch (lowerFieldLoads p))
  let fieldAddresses ← onlyIf config.fieldLoads (batch (lowerFieldAddresses p))
  return { constructors, equality, fieldLoads, fieldAddresses }

/-- Folds the round trips. -/
def foldRoundTrips (p : Pool) : Edit Nat := do
  let locals ← batch (foldLocals p)
  let fields ← batch (foldFields p)
  let elements ← batch (foldElements p)
  return locals + fields + elements

/-- Cleans up after the wrapper operations. -/
def cleanUp (p : Pool) (config : Config) (stats : Stats) : Edit Stats := do
  let _ ← modifyGet (·.updateReachability)
  let addressLoads ← onlyIf config.addressCleanup (foldRoundTrips p)
  let droppedVariables ← onlyIf config.deadVariables eliminateDead
  return { stats with addressLoads, droppedVariables }

/-- Lowers a graph and counts what each step changed. -/
def lower (p : Pool) (config : Config) : Edit Stats := do
  let stats ← lowerWrappers p config
  let stats ← if stats.modified then cleanUp p config stats else pure stats
  if config.verify then query (·.verify)
  return stats

end Edit
end ScalarLowering
