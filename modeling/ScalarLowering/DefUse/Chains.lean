import ScalarLowering.Program.Expr

/-! Snapshots of the definition-use chains. A snapshot gives each live variable a slot and
lists, by slot, the operators that define it and those that read it. The index stored with
a variable carries the generation of its snapshot, so that an index from another refresh
is told apart. -/

namespace ScalarLowering

/-- A variable's slot in the snapshot of one generation. -/
structure ChainIndex where
  generation : UInt32
  slot : Nat
  deriving DecidableEq

structure Chains where
  /-- Version of the graph the snapshot was taken at. -/
  version : Nat
  generation : UInt32
  definitions : Array (List OpId)
  uses : Array (List OpId)
  deriving DecidableEq

/-- Number of variables in the snapshot. -/
def Chains.size (c : Chains) : Nat := c.definitions.size

/-- A chain with one more operator, unless it was the last one added. -/
def Chains.extend (chain : List OpId) (id : OpId) : List OpId :=
  if chain.getLast? = some id then chain else chain ++ [id]

/-- The latest snapshot and what happened since it was taken. -/
structure ChainCache where
  latest : Option Chains := none
  /-- Generation of the latest refresh; it wraps around. -/
  generation : UInt32 := 0
  refreshes : Nat := 0
  /-- Number of refreshes at the last checkpoint. -/
  checkpoint : Option Nat := none
  /-- Variables whose readers or definitions may have grown since the latest refresh. -/
  touched : List VarId := []
  deriving DecidableEq

namespace ChainCache

def touch (c : ChainCache) (v : VarId) : ChainCache := { c with touched := c.touched.insert v }

/-- The latest snapshot, if it was taken at that version. -/
def current? (c : ChainCache) (version : Nat) : Option Chains :=
  c.latest.filter (·.version = version)

end ChainCache
end ScalarLowering
