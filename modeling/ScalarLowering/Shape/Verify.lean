import ScalarLowering.Program.Graph
import ScalarLowering.Error

/-! The check that a graph is well formed. Blocks that are not reachable are not looked at. -/

namespace ScalarLowering
namespace Graph

/-- The number of operands on one side. -/
def checkArity (id : OpId) (kind : OpKind) (side : Side) (found : Nat) (expected : Arity) :
    Except Error Unit :=
  if expected.admits found then .ok () else throw (.graph (.arity id kind side found expected))

/-- An operator by itself: its operands, its targets, and the variables it mentions. -/
def checkOperator (g : Graph) (id : OpId) (op : Operator) : Except Error Unit := do
  if let some expected := op.kind.argArity? then
    checkArity id op.kind .arguments op.args.length expected
  checkArity id op.kind .results op.results.length op.kind.resultArity
  op.targets.forM fun b =>
    if b.index < g.blocks.size then .ok () else throw (.graph (.unknownTarget id b))
  op.mentions.forM fun v => do
    if (← g.var v).dropped then throw (.graph (.droppedVariable id v))
  op.results.forM fun v => do
    if (← g.var v).isArgument then throw (.graph (.definesArgument id v))

/-- An operator in the block that lists it and ends in `last`. -/
def checkListed (g : Graph) (b : BlockId) (last id : OpId) : Except Error Unit := do
  let op ← g.op id
  if op.block ≠ some b then throw (.graph (.membership id b op.block))
  if op.isControl ∧ id ≠ last then throw (.graph (.misplacedControl id b))
  g.checkOperator id op

/-- A block: its operators, and the control operator at its end. -/
def checkBlock (g : Graph) (b : BlockId) (ids : List OpId) : Except Error Unit := do
  let some last := ids.getLast? | throw (.graph (.missingTerminator b))
  ids.forM (g.checkListed b last)
  if !(← g.op last).isControl then throw (.graph (.missingTerminator b))

/-- Finds the first fault of the reachable blocks. -/
def verify (g : Graph) : Except Error Unit :=
  g.blockIds.forM fun b => do
    let block ← g.block b
    if block.reachable then g.checkBlock b block.ops

end Graph
end ScalarLowering
