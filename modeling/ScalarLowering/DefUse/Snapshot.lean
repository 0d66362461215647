import ScalarLowering.Edit.Basic

/-! Taking and reading snapshots of the definition-use chains. The graph keeps the latest
snapshot and hands it out again while its version stays the same. -/

namespace ScalarLowering
namespace Graph

/-- The attached operators that define a variable, in block order. -/
def definers (g : Graph) (v : VarId) : List OpId :=
  g.attached.filter fun id => (g.op id).any (·.definesVar v)

/-- The attached operators that read a variable, in block order. -/
def readers (g : Graph) (v : VarId) : List OpId :=
  g.attached.filter fun id => (g.op id).any (·.readsVar v)

/-- The variables that are not dropped. -/
def liveVars (g : Graph) : List VarId :=
  g.varIds.filter fun v => (g.var v).any fun info => !info.dropped

/-- Whether the attached operators mention existing variables only. -/
def mentionsKnown (g : Graph) : Bool :=
  g.attached.all fun id => (g.op id).any fun op => op.mentions.all (·.index < g.vars.size)

/-- Numbers the variables that are not dropped, from `slot` on. -/
def numberVars (generation : UInt32) : (slot : Nat) → List Variable → List Variable
  | _, [] => []
  | slot, v :: vs =>
    if v.dropped then { v with index := none } :: numberVars generation slot vs
    else { v with index := some ⟨generation, slot⟩ } :: numberVars generation (slot + 1) vs

def numbered (g : Graph) (generation : UInt32) : Graph :=
  { g with vars := (numberVars generation 0 g.vars.toList).toArray }

/-- Adds an operator to the chain of a variable that has a slot. -/
def record (g : Graph) (id : OpId) (table : Array (List OpId)) (v : VarId) :
    Lookup (Array (List OpId)) := do
  match (← g.var v).index with
  | some i => return table.setIfInBounds i.slot (Chains.extend (← table[i.slot]?) id)
  | none => return table

/-- Adds an operator to the chains of what it reads and of what it defines. -/
def recordOp (g : Graph) (c : Chains) (id : OpId) : Lookup Chains := do
  let op ← g.op id
  let uses ← op.reads.foldlM (g.record id) c.uses
  let definitions ← op.results.foldlM (g.record id) c.definitions
  return { c with definitions, uses }

/-- The chains of the numbered variables, by one pass over the attached operators. -/
def chains (g : Graph) (generation : UInt32) : Lookup Chains :=
  let unused := Array.replicate g.liveVars.length []
  g.attached.foldlM g.recordOp ⟨g.version, generation, unused, unused⟩

/-- Takes a new snapshot under a new generation. -/
def refresh (g : Graph) : Lookup (Chains × Graph) := do
  let generation := g.cache.generation + 1
  let g := g.numbered generation
  let chains ← g.chains generation
  return (chains,
    { g with
      cache := { g.cache with
        latest := some chains, generation, refreshes := g.cache.refreshes + 1, touched := [] } })

end Graph

namespace Edit

/-- The snapshot of the current version. -/
def snapshot : Edit Chains := fun g =>
  match g.cache.current? g.version with
  | some chains => .ok chains g
  | none =>
    match g.refresh with
    | some (chains, g) => .ok chains g
    | none => .error .dangling g

/-- Notes the number of refreshes so far. -/
def setCheckpoint : Edit Unit :=
  modify fun g => { g with cache := { g.cache with checkpoint := some g.cache.refreshes } }

end Edit

namespace Graph

/-- Fails if the chains were refreshed since the checkpoint. -/
def checkCheckpoint (g : Graph) : Except Error Unit :=
  match g.cache.checkpoint with
  | none => throw (.chain .noCheckpoint)
  | some n =>
    if g.cache.refreshes = n then .ok ()
    else throw (.chain (.refreshedSinceCheckpoint (g.cache.refreshes - n)))

end Graph

namespace Chains

/-- Whether the graph has not changed since the snapshot. -/
def isCurrent (c : Chains) (g : Graph) : Bool := c.version = g.version

def slotOf (c : Chains) (i : ChainIndex) : Except Error Nat :=
  if i.generation = c.generation then .ok i.slot
  else throw (.chain (.staleIndex i.generation c.generation))

/-- The chain at an index, of the definitions or of the uses. -/
def chainAt (c : Chains) (chains : Array (List OpId)) (i : ChainIndex) :
    Except Error (List OpId) := do
  chains[← c.slotOf i]?

def definitionsAt (c : Chains) (i : ChainIndex) : Except Error (List OpId) :=
  c.chainAt c.definitions i

def usesAt (c : Chains) (i : ChainIndex) : Except Error (List OpId) := c.chainAt c.uses i

end Chains

namespace Graph

def chainIndex (g : Graph) (v : VarId) : Except Error ChainIndex := do
  match (← g.var v).index with
  | some i => return i
  | none => throw (.chain (.unindexed v))

/-- The definitions of a variable by a snapshot. -/
def chainDefs (g : Graph) (c : Chains) (v : VarId) : Except Error (List OpId) := do
  c.definitionsAt (← g.chainIndex v)

/-- The readers of a variable by a snapshot. -/
def chainUses (g : Graph) (c : Chains) (v : VarId) : Except Error (List OpId) := do
  c.usesAt (← g.chainIndex v)

end Graph
end ScalarLowering
