import ScalarLowering.DefUse.Snapshot

/-! Questions that stay right while edits make a snapshot stale. Operators that were
detached since are skipped, and a variable that may have gained a definition or a reader
is looked up by a scan of the graph. -/

namespace ScalarLowering

/-- How many operators a chain holds. -/
inductive Multiplicity
  | none
  | one (op : OpId)
  | many (count : Nat)
  deriving DecidableEq

def Multiplicity.ofList : List OpId → Multiplicity
  | [] => .none
  | [id] => .one id
  | ids => .many ids.length

namespace Graph

/-- The attached operators of a chain. -/
def keepAttached (g : Graph) (ids : List OpId) : Lookup (List OpId) :=
  if ids.all (·.index < g.ops.size) then some (ids.filter g.isAttached) else none

def isTouched (g : Graph) (v : VarId) : Bool := g.cache.touched.contains v

/-- The scan of a variable that was touched, or what is left of its chain. -/
def liveAnswer (g : Graph) (v : VarId) (scan : List OpId) (chain : Except Error (List OpId)) :
    Except Error (List OpId) :=
  if g.isTouched v then .ok scan else do g.keepAttached (← chain)

def attachedDefs (g : Graph) (c : Chains) (v : VarId) : Except Error (List OpId) :=
  g.liveAnswer v (g.definers v) (g.chainDefs c v)

def attachedUses (g : Graph) (c : Chains) (v : VarId) : Except Error (List OpId) :=
  g.liveAnswer v (g.readers v) (g.chainUses c v)

def defCount (g : Graph) (c : Chains) (v : VarId) : Except Error Multiplicity :=
  return .ofList (← g.attachedDefs c v)

def useCount (g : Graph) (c : Chains) (v : VarId) : Except Error Multiplicity :=
  return .ofList (← g.attachedUses c v)

/-- Whether an operator is the one attached definition of a variable. -/
def definesAlone (g : Graph) (c : Chains) (id : OpId) (v : VarId) : Except Error Bool :=
  return (← g.defCount c v) = .one id

end Graph
end ScalarLowering
