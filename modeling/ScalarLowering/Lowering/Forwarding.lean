import ScalarLowering.Edit.Operators
import ScalarLowering.Types.Pool

/-! Forwarding a value: letting the readers of a result read the value itself. This is done
only if every reader would see what the result holds; otherwise a copy stays. -/

namespace ScalarLowering

namespace Pool

/-- Whether an operator only reads through a pointer that is one of its arguments. -/
def readsThrough (p : Pool) (pointer : VarId) (op : Operator) : Lookup Bool :=
  match op.kind with
  | .loadIndirect _ | .loadField _ | .compare _ => some true
  | .call m => do
    let m ← p.method m
    if m.kind ≠ .ofInstance then return false
    let scalar ← p.isScalar m.owner
    return scalar && op.args.head? = some (.var pointer) && !op.args.tail.contains (.var pointer)
  | _ => some false

end Pool

namespace Graph

/-- Whether all users of a pointer only read through it. -/
def isReadOnly (g : Graph) (p : Pool) (c : Chains) (pointer : VarId) : Except Error Bool := do
  (← g.attachedUses c pointer).allM fun id => do p.readsThrough pointer (← g.op id)

/-- An operand is stable if it has at most one definition and no pointer to it is used for
anything but reading. -/
def isStable (g : Graph) (p : Pool) (c : Chains) : Expr → Except Error Bool
  | .const _ => .ok true
  | .var v => do
    if let .many _ ← g.defCount c v then return false
    (← g.attachedUses c v).allM fun id => do
      let op ← g.op id
      match op.kind, op.result? with
      | .addressOf, some pointer => g.isReadOnly p c pointer
      | _, _ => return true

/-- Whether all operands are stable. -/
def allStable (g : Graph) (p : Pool) (c : Chains) : List Expr → Except Error Bool
  | [] => .ok true
  | e :: es => do
    let first ← g.isStable p c e
    let rest ← g.allStable p c es
    return first && rest

/-- Whether every reader of `result` would see, in its place, the value that `id` gives it:
the reader comes later in the same block, no write of the value lies between, and the
address of the result is not taken. -/
def seenByReaders (g : Graph) (c : Chains) (id : OpId) (result : VarId) (value : Expr) :
    Except Error Bool := do
  let op ← g.op id
  let some b := op.block | return false
  let ids := (← g.block b).ops
  let some start := ids.idxOf? id | return false
  let defs ← match value with
    | .var v => g.attachedDefs c v
    | .const _ => pure []
  let writes := defs.filterMap fun d => ids.idxOf? d
  (← g.attachedUses c result).allM fun reader => do
    let op ← g.op reader
    if op.kind = .addressOf then return false
    match ids.idxOf? reader with
    | none => return false
    | some stop => return start < stop && !writes.any fun w => start < w && w < stop

end Graph

namespace Edit

/-- Puts a value for the result of an operator: in all its readers, leaving a no-op, or as
a copy where that could show another value. -/
def forward (c : Chains) (id : OpId) (result : VarId) (value : Expr) (stable : Bool) :
    Edit Bool := do
  let redirects ←
    if stable && value.var? ≠ some result then query (·.seenByReaders c id result value)
    else pure false
  if redirects then
    let _ ← redirectAll c result value
    let _ ← remove id .keep
  else
    let _ ← substitute id (.copy result value) .keep
  return redirects

end Edit
end ScalarLowering
