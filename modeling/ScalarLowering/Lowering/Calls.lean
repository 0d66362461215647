import ScalarLowering.Lowering.Source

/-! Lowering of the wrapper methods. A constructor on a local becomes a copy into it, and an
equality method becomes a comparison. -/

namespace ScalarLowering

/-- A comparison to put for an equality call. -/
structure Comparison where
  condition : Condition
  result : VarId
  left : Source
  right : Expr
  deriving DecidableEq

namespace Pool

/-- The condition an equality method tests. -/
def equalityCondition (p : Pool) (m : Method) : Lookup (Option Condition) := do
  match WrapperMethod.of? m.kind (← p.name m.name) with
  | some .equals | some .opEquality => return some .eq
  | some .opInequality => return some .ne
  | some .ctor | none => return none

end Pool

namespace Graph

/-- Whether an operand has a scalar type. -/
def isScalarExpr (g : Graph) (p : Pool) (e : Expr) : Lookup Bool := do
  p.isScalar (← g.typeOf e)

/-- The copy to put for a constructor call. The receiver has to hold the address of a
variable of the wrapper's own type that is no argument. -/
def constructorCopy (g : Graph) (p : Pool) (c : Chains) (call : OpId) :
    Except Error (Option Operator) := do
  let op ← g.op call
  let .call m := op.kind | return none
  let m ← p.method m
  if m.kind ≠ .ctor then return none
  if !(← p.isScalar m.owner) then return none
  let [this, value] := op.args
    | throw (.violation call (.constructorArguments op.args.length))
  if !op.results.isEmpty then return none
  if !(← p.accepts m.owner (← g.typeOf value)) then return none
  let .var this := this | return none
  if (← g.var this).isArgument then return none
  let .one d ← g.defCount c this | return none
  let source ← g.op d
  if source.kind ≠ .addressOf then return none
  let some x := source.args.head?.bind Expr.var? | return none
  let info ← g.var x
  if info.isArgument || info.type ≠ m.owner then return none
  return some (.copy x value)

/-- The operands of a static equality call, if both are scalars. -/
def staticOperands (g : Graph) (p : Pool) (call : OpId) (op : Operator) :
    Except Error (Option (Source × Expr)) := do
  let [_, left, right] := op.args
    | throw (.violation call (.equalityArguments 3 op.args.length))
  if !(← g.isScalarExpr p left) then return none
  if !(← g.isScalarExpr p right) then return none
  return some (.value left, right)

/-- The operands of an `Equals` call on a wrapper that holds no float. Two NaNs are equal
to `Equals` but not to a comparison. -/
def instanceOperands (g : Graph) (p : Pool) (c : Chains) (call : OpId) (op : Operator)
    (owner : TypeId) : Except Error (Option (Source × Expr)) := do
  let [this, right] := op.args
    | throw (.violation call (.equalityArguments 2 op.args.length))
  if !(← g.isScalarExpr p right) then return none
  if ((← p.scalarOf owner).any Scalar.isFloat) then return none
  let .var this := this | return none
  return some (← g.sourceOf p c call this, right)

/-- The comparison to put for an equality call. -/
def equalityComparison (g : Graph) (p : Pool) (c : Chains) (call : OpId) :
    Except Error (Option Comparison) := do
  let op ← g.op call
  let .call m := op.kind | return none
  let m ← p.method m
  if !(← p.isScalar m.owner) then return none
  let some condition ← p.equalityCondition m | return none
  let some result := op.result? | return none
  let operands ←
    if m.kind = .ofType then g.staticOperands p call op
    else g.instanceOperands p c call op m.owner
  return operands.map fun (left, right) => ⟨condition, result, left, right⟩

end Graph

namespace Edit

def lowerConstructor (p : Pool) (c : Chains) (call : OpId) : Edit Bool := do
  match ← query (·.constructorCopy p c call) with
  | none => return false
  | some copy =>
    let _ ← substitute call copy .keep
    return true

def lowerEquality (p : Pool) (c : Chains) (call : OpId) : Edit Bool := do
  match ← query (·.equalityComparison p c call) with
  | none => return false
  | some ⟨condition, result, left, right⟩ =>
    let check ← query fun g => do return (← g.op call).checkForNull
    let left ← fetch call check left
    let _ ← substitute call (.compare condition result left right) .keep
    return true

/-- Lowers the constructor calls. -/
def lowerConstructors (p : Pool) (c : Chains) : Edit Nat := do
  sweep (lowerConstructor p c) (← query fun g => .ok (g.attachedWhere OpKind.isCall))

/-- Lowers the equality calls. -/
def lowerEqualities (p : Pool) (c : Chains) : Edit Nat := do
  sweep (lowerEquality p c) (← query fun g => .ok (g.attachedWhere OpKind.isCall))

end Edit
end ScalarLowering
