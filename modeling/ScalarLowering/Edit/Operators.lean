import ScalarLowering.DefUse.Attached

/-! The edits a pass may make to attached operators. Each keeps the blocks and the
operators' own record of their block in step, raises the version, and leaves the graph as
it was when it fails. -/

namespace ScalarLowering

/-- A position in a block. -/
structure Place where
  block : BlockId
  index : Nat
  deriving DecidableEq

/-- Whether an edit keeps the source position of the operator it takes away. -/
inductive Policy
  | keep
  | discard
  deriving DecidableEq

namespace Graph

/-- The place of an operator in the block that lists it. -/
def placeOf (g : Graph) (id : OpId) : Except Error Place := do
  let op ← g.op id
  match op.block with
  | none => throw (.graph (.detached id))
  | some b =>
    match (← g.block b).ops.idxOf? id with
    | some i => return ⟨b, i⟩
    | none => throw (.graph (.membership id b (some b)))

def detach (g : Graph) (id : OpId) : Graph := g.modifyOp id ({ · with block := none })

def clearPosition (g : Graph) (id : OpId) : Graph := g.modifyOp id ({ · with position := none })

/-- Puts a new operator into the place of an old one. -/
def replaceAt (g : Graph) (place : Place) (old : OpId) (new : Operator) : OpId × Graph :=
  let (id, g) := g.pushOp new place.block
  (id, ((g.detach old).modifyBlock place.block (·.set place.index id)).bump)

/-- Puts a new operator in front of a place. -/
def insertAt (g : Graph) (place : Place) (new : Operator) : OpId × Graph :=
  let (id, g) := g.pushOp new place.block
  (id, (g.modifyBlock place.block (·.insertIdx place.index id)).bump)

/-- Takes an operator out of its place. -/
def eraseAt (g : Graph) (place : Place) (id : OpId) : Graph :=
  (((g.detach id).clearPosition id).modifyBlock place.block (·.eraseIdx place.index)).bump

/-- Puts an expression for a variable in the arguments of an operator. -/
def redirectAt (g : Graph) (id : OpId) (v : VarId) (e : Expr) : Graph :=
  let g := (g.modifyOp id (·.substitute v e)).touch v
  (e.var?.elim g g.touch).bump

end Graph

namespace Edit

/-- Replaces an operator. Under `keep` the new one takes over the source position unless it
has its own; under `discard` the old one loses it. -/
def substitute (old : OpId) (new : Operator) (policy : Policy) : Edit OpId := do
  let place ← query (·.placeOf old)
  let prior ← query fun g => do return (← g.op old).position
  match policy with
  | .keep =>
    modifyGet (·.replaceAt place old { new with position := new.position.or prior })
  | .discard => modifyGet fun g => (g.clearPosition old).replaceAt place old new

/-- Puts a new operator in front of an attached one. -/
def insertBefore (anchor : OpId) (new : Operator) : Edit OpId := do
  let place ← query (·.placeOf anchor)
  modifyGet (·.insertAt place new)

/-- Removes an operator that is not a control operator. Under `keep` a no-op stays in its
place and carries the source position. -/
def remove (id : OpId) (policy : Policy) : Edit (Option OpId) := do
  let op ← query fun g => do g.op id
  if op.isControl then throw (.graph (.removesTerminator id))
  match policy with
  | .keep => return some (← substitute id .nop .keep)
  | .discard =>
    let place ← query (·.placeOf id)
    modify (·.eraseAt place id)
    return none

/-- Puts an expression for a variable in the arguments of one operator, and counts the
arguments that changed. -/
def redirect (id : OpId) (v : VarId) (e : Expr) : Edit Nat := do
  let op ← query fun g => do g.op id
  if !op.isAttached then throw (.graph (.detached id))
  let count := op.occurrences v
  if 0 < count then modify (·.redirectAt id v e)
  return count

/-- `redirect` at each of a list of operators. -/
def redirectEach (v : VarId) (e : Expr) : List OpId → Edit Nat
  | [] => return 0
  | id :: ids => do
    let count ← redirect id v e
    let rest ← redirectEach v e ids
    return count + rest

/-- Puts an expression for a variable wherever an attached operator reads it. -/
def redirectAll (c : Chains) (v : VarId) (e : Expr) : Edit Nat := do
  redirectEach v e (← query (·.attachedUses c v))

end Edit
end ScalarLowering
