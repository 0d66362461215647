import ScalarLowering.Edit.Operators
import ScalarLowering.Types.Pool

/-! The value behind the receiver of a wrapper operation. A receiver is the value itself or
a pointer to it. Where the pointer is known to hold the address of an operand, that operand
is the value; otherwise the value has to be loaded. -/

namespace ScalarLowering

/-- Where a value can be had. -/
inductive Source
  | value (e : Expr)
  | behind (pointer : VarId) (type : TypeId)
  deriving DecidableEq

namespace Graph

/-- The operand whose address a variable holds, if its only definition takes one. -/
def addressedBy (g : Graph) (c : Chains) (user : OpId) (v : VarId) :
    Except Error (Option Expr) := do
  match ← g.defCount c v with
  | .none => throw (.violation user (.unknownSource v))
  | .many _ => return none
  | .one d =>
    let op ← g.op d
    match op.kind, op.args with
    | .addressOf, [e] => return some e
    | _, _ => return none

/-- Where the value behind the receiver `v` of the operator `user` can be had. -/
def sourceOf (g : Graph) (p : Pool) (c : Chains) (user : OpId) (v : VarId) :
    Except Error Source := do
  let info ← g.var v
  if ← p.isScalar info.type then return .value (.var v)
  match ← p.pointee info.type with
  | none =>
    let shown ← p.display info.type
    throw (.violation user (.receiverType v shown))
  | some t =>
    let addressed ← if info.isArgument then pure none else g.addressedBy c user v
    match addressed with
    | some e => return .value e
    | none => return .behind v t

end Graph

namespace Edit

/-- Makes the value of a source available to an operator. A value behind a pointer is
loaded into a new temporary just before the operator and at its source position. -/
def fetch (user : OpId) (check : Bool) : Source → Edit Expr
  | .value e => return e
  | .behind pointer t => do
    let position ← query fun g => do return (← g.op user).position
    let temp ← modifyGet (·.addVar .temporary t)
    let _ ← insertBefore user { Operator.loadIndirect t temp (.var pointer) check with position }
    return .var temp

end Edit
end ScalarLowering
