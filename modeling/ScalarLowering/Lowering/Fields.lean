import ScalarLowering.Lowering.Source
import ScalarLowering.Lowering.Forwarding

/-! Lowering of the value field of the scalar wrappers. The field is the wrapped value
itself, so a load of it forwards the value and its address is the address of the wrapper. -/

namespace ScalarLowering

/-- A field load to lower. -/
structure FieldRead where
  result : VarId
  source : Source
  deriving DecidableEq

/-- What to put for the address of a field. -/
inductive FieldAddress
  /-- The wrapper is a variable, whose address is taken. -/
  | ofVariable (result addressed : VarId)
  /-- The wrapper lies behind a pointer, which is the address already. -/
  | ofPointer (result : VarId) (pointer : Expr) (stable : Bool)
  deriving DecidableEq

namespace Graph

/-- The value to put for a field load. Through a boxed receiver there is none. -/
def fieldRead (g : Graph) (p : Pool) (c : Chains) (load : OpId) :
    Except Error (Option FieldRead) := do
  let op ← g.op load
  let .loadField f := op.kind | return none
  if !(← p.isValueField f) then return none
  let [receiver] := op.args | throw (.violation load .loadReceiver)
  let .var receiver := receiver | return none
  let some result := op.result? | return none
  let t := (← g.var receiver).type
  if !(← p.isScalar t) && (← p.pointee t).isNone then return none
  if !(← g.definesAlone c load result) then return none
  return some ⟨result, ← g.sourceOf p c load receiver⟩

/-- The address to put for a field address. -/
def fieldAddress (g : Graph) (p : Pool) (c : Chains) (address : OpId) :
    Except Error (Option FieldAddress) := do
  let op ← g.op address
  let .loadFieldAddress f := op.kind | return none
  if !(← p.isValueField f) then return none
  let [receiver] := op.args | throw (.violation address .addressReceiver)
  let some result := op.result? | return none
  if !(← g.definesAlone c address result) then return none
  let t ← g.typeOf receiver
  if ← p.isScalar t then
    return receiver.var?.map (.ofVariable result)
  if (← p.pointee t).isNone then return none
  return some (.ofPointer result receiver (← g.isStable p c receiver))

end Graph

namespace Edit

/-- Lowers one load. A value that had to be loaded sits in a new temporary and is stable. -/
def lowerFieldLoad (p : Pool) (c : Chains) (load : OpId) : Edit Bool := do
  match ← query (·.fieldRead p c load) with
  | none => return false
  | some ⟨result, source⟩ =>
    let check ← query fun g => do return (← g.op load).checkForNull
    let value ← fetch load check source
    let stable ← match source with
      | .value e => query (·.isStable p c e)
      | .behind _ _ => pure true
    let _ ← forward c load result value stable
    return true

def lowerFieldAddress (p : Pool) (c : Chains) (address : OpId) : Edit Bool := do
  match ← query (·.fieldAddress p c address) with
  | none => return false
  | some (.ofVariable result addressed) =>
    let _ ← substitute address (.addressOf result addressed) .keep
    return true
  | some (.ofPointer result pointer stable) =>
    let _ ← forward c address result pointer stable
    return true

/-- Lowers the loads of the value field. -/
def lowerFieldLoads (p : Pool) (c : Chains) : Edit Nat := do
  sweep (lowerFieldLoad p c) (← query fun g => .ok (g.attachedWhere OpKind.isFieldLoad))

/-- Lowers the addresses of the value field. -/
def lowerFieldAddresses (p : Pool) (c : Chains) : Edit Nat := do
  sweep (lowerFieldAddress p c) (← query fun g => .ok (g.attachedWhere OpKind.isFieldAddress))

end Edit
end ScalarLowering
