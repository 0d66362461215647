import ScalarLowering.Lowering.Forwarding

/-! Round trips: an address that is taken only to be loaded from once. The address of a
variable and the load become a use of the variable; the address of a field or an element
and the load become one direct load. -/

namespace ScalarLowering

/-- What to do with an operator that takes the address of a variable. -/
inductive LocalFold
  /-- Nobody reads the address. -/
  | orphan
  /-- The load has no result; it stood only for its null check, which cannot fail. -/
  | bare (load : OpId)
  | forward (load : OpId) (loaded : VarId) (addressed : Expr) (stable : Bool)
  deriving DecidableEq

/-- A load to replace; without an operator to put for it, it goes away. -/
structure DirectLoad where
  load : OpId
  operator : Option Operator
  deriving DecidableEq

namespace OpKind

/-- The load from the place whose address an operator computes. -/
def directLoad? : OpKind → Option OpKind
  | .loadFieldAddress f => some (.loadField f)
  | .loadStaticAddress f => some (.loadStatic f)
  | .loadElementAddress => some .loadElement
  | _ => none

end OpKind

namespace Graph

/-- The one load that uses an address, if nothing else does and nothing else defines it. -/
def loneLoad (g : Graph) (c : Chains) (address : OpId) : Except Error (Option OpId) := do
  let some pointer := (← g.op address).result? | return none
  if !(← g.definesAlone c address pointer) then return none
  let [load] ← g.attachedUses c pointer | return none
  match (← g.op load).kind with
  | .loadIndirect _ => return some load
  | _ => return none

/-- What to do with the operator `address` that takes the address of a variable. -/
def localFold (g : Graph) (p : Pool) (c : Chains) (address : OpId) :
    Except Error (Option LocalFold) := do
  let op ← g.op address
  let some pointer := op.result? | return none
  if (← g.attachedUses c pointer).isEmpty then return some .orphan
  let some load ← g.loneLoad c address | return none
  let [addressed] := op.args | return none
  match (← g.op load).result? with
  | none => return some (.bare load)
  | some loaded =>
    if !(← g.definesAlone c load loaded) then return none
    return some (.forward load loaded addressed (← g.isStable p c addressed))

/-- Whether a fault can move down from one operator to another: both are in one block and
only pure operators lie between. -/
def faultMovesDown (g : Graph) (source target : OpId) : Bool :=
  match (g.op source).bind (·.block), (g.op target).bind (·.block) with
  | some b, some b' =>
    let ids := (g.block b).elim [] (·.ops)
    match ids.idxOf? source, ids.idxOf? target with
    | some start, some stop =>
      b = b' && start < stop &&
        ((ids.take stop).drop (start + 1)).all fun id => (g.op id).any (·.isPure)
    | _, _ => false
  | _, _ => false

/-- The load to put for an address and the load through it. Its operands have to be stable,
and a fault of the address has to be free to move down to the load. -/
def directLoad (g : Graph) (p : Pool) (c : Chains) (address : OpId) :
    Except Error (Option DirectLoad) := do
  let some load ← g.loneLoad c address | return none
  let op ← g.op address
  let some kind := op.kind.directLoad? | return none
  let stable ← g.allStable p c op.args
  if !stable || (op.mayFault && !g.faultMovesDown address load) then return none
  let read ← g.op load
  if read.results.isEmpty && kind.isStaticLoad then return some ⟨load, none⟩
  return some ⟨load, some
    { kind, args := op.args, results := read.results, flags := read.flags.union op.flags }⟩

end Graph

namespace Edit

def foldLocal (p : Pool) (c : Chains) (address : OpId) : Edit Bool := do
  match ← query (·.localFold p c address) with
  | none => return false
  | some fold =>
    match fold with
    | .orphan => pure ()
    | .bare load => let _ ← remove load .discard
    | .forward load loaded addressed stable =>
      let _ ← forward c load loaded addressed stable
    let _ ← remove address .discard
    return true

def foldPlace (p : Pool) (c : Chains) (address : OpId) : Edit Bool := do
  match ← query (·.directLoad p c address) with
  | none => return false
  | some ⟨load, operator⟩ =>
    match operator with
    | some direct => let _ ← substitute load direct .keep
    | none => let _ ← remove load .discard
    let _ ← remove address .discard
    return true

/-- Folds the addresses of variables. -/
def foldLocals (p : Pool) (c : Chains) : Edit Nat := do
  sweep (foldLocal p c) (← query fun g => .ok (g.attachedWhere (· = .addressOf)))

/-- Folds the addresses of fields. -/
def foldFields (p : Pool) (c : Chains) : Edit Nat := do
  sweep (foldPlace p c) (← query fun g => .ok (g.attachedWhere OpKind.isPlaceOfField))

/-- Folds the addresses of elements. -/
def foldElements (p : Pool) (c : Chains) : Edit Nat := do
  sweep (foldPlace p c) (← query fun g => .ok (g.attachedWhere (· = .loadElementAddress)))

end Edit
end ScalarLowering
