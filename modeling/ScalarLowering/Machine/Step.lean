import ScalarLowering.Machine.Value
import ScalarLowering.Program.Graph
import ScalarLowering.Types.Pool
import ScalarLowering.Scalar.FloatFormat

/-! One step of the machine. A null pointer or receiver faults whatever the flags of the
operator say: flags are for the code that is generated, not for the machine. -/

namespace ScalarLowering

/-- What is wrong with an operand. -/
inductive OperandFault
  | missingArgument (n : Nat)
  | notPointer (v : Value)
  | notArray (v : Value)
  | notIndex (v : Value)
  | noFieldLoad (v : Value)
  | noFieldStore (v : Value)
  | noFieldAddress (v : Value)
  | constantAddress
  | constantFieldAddress
  | branch (on : Value)
  | undefinedComparison
  deriving DecidableEq

def OperandFault.message : OperandFault → String
  | .missingArgument n => s!"missing argument {n}"
  | .notPointer v => s!"{v.label} is not a pointer"
  | .notArray v => s!"{v.label} is not an array"
  | .notIndex v => s!"{v.label} is not an index"
  | .noFieldLoad v => s!"cannot load a field of {v.label}"
  | .noFieldStore v => s!"cannot store a field of {v.label}"
  | .noFieldAddress v => s!"no field address in {v.label}"
  | .constantAddress => "address of a constant"
  | .constantFieldAddress => "address of a constant's field"
  | .branch v => s!"branch on {v.label}"
  | .undefinedComparison => "comparison reads an undefined value"

/-- Why an operator does not run. -/
inductive Fault
  /-- An id that names nothing was looked up. -/
  | dangling
  | nullReference
  | indexOutOfRange (index : Int64) (length : Nat)
  | invalidOperand (cause : OperandFault)
  | unsupportedCall (method : String)
  deriving DecidableEq

instance : MonadLift Option (Except Fault) where
  monadLift
    | some a => .ok a
    | none => .error .dangling

@[simp] theorem Fault.lift_eq_ok {α : Type} {found : Lookup α} {a : α} :
    (liftM found : Except Fault α) = .ok a ↔ found = some a := by
  cases found <;> simp [liftM, monadLift, MonadLift.monadLift]

/-- The state of a run: the contents of every variable, and the heap. -/
structure Frame where
  vars : Array Value
  heap : Heap
  deriving DecidableEq

namespace Frame

def eval (s : Frame) : Expr → Lookup Value
  | .var v => s.vars[v.index]?
  | .const c => some (.ofConstant c)

def arg (s : Frame) (op : Operator) (n : Nat) : Except Fault Value :=
  match op.args[n]? with
  | some e => s.eval e
  | none => throw (.invalidOperand (.missingArgument n))

def setVar (s : Frame) (v : VarId) (value : Value) : Lookup Frame :=
  if v.index < s.vars.size then some { s with vars := s.vars.setIfInBounds v.index value }
  else none

/-- Writes the first result of an operator, if it has one. -/
def define (s : Frame) (op : Operator) (value : Value) : Lookup Frame :=
  match op.result? with
  | some v => s.setVar v value
  | none => some s

def read (s : Frame) : Location → Lookup Value
  | .var v => s.vars[v.index]?
  | .field object f => s.heap.field object f
  | .static f => some (s.heap.static f)
  | .element array i => s.heap.element array i

def write (s : Frame) (l : Location) (value : Value) : Lookup Frame :=
  match l with
  | .var v => s.setVar v value
  | .field object f => (s.heap.setField object f value).map ({ s with heap := · })
  | .static f => some { s with heap := s.heap.setStatic f value }
  | .element array i => (s.heap.setElement array i value).map ({ s with heap := · })

end Frame

namespace Value

/-- Where a pointer points. -/
def target : Value → Except Fault Location
  | .pointer l => .ok l
  | .null => throw .nullReference
  | v => throw (.invalidOperand (.notPointer v))

/-- Compares payloads by a test and references by identity. -/
def compareBy (test : UInt64 → UInt64 → Bool) : Value → Value → Except Fault Bool
  | .bits a, .bits b => .ok (test a b)
  | a, b =>
    if a = .undefined ∨ b = .undefined then throw (.invalidOperand .undefinedComparison)
    else .ok (a = b)

end Value

/-- The value that a receiver is or points at. -/
def Frame.behind (s : Frame) : Value → Except Fault Value
  | .bits w => .ok (.bits w)
  | v => do s.read (← v.target)

namespace Heap

/-- The place of an element; the index is read as a signed number. -/
def elementAt (h : Heap) (array index : Value) : Except Fault Location :=
  match array with
  | .array a =>
    match index with
    | .bits w => do
      let length := (← h.elements a).size
      let i := w.toInt64
      if 0 ≤ i.toInt ∧ i.toInt < length then return .element a i.toInt.toNat
      else throw (.indexOutOfRange i length)
    | v => throw (.invalidOperand (.notIndex v))
  | .null => throw .nullReference
  | v => throw (.invalidOperand (.notArray v))

end Heap

namespace Pool

/-- Reads a field of an object, or the value of a wrapper behind a pointer or at hand. -/
def readField (p : Pool) (s : Frame) (receiver : Value) (f : FieldId) : Except Fault Value := do
  let scalar ← p.isValueField f
  match receiver, scalar with
  | .null, _ => throw .nullReference
  | .object o, _ => s.heap.field o f
  | .pointer l, true => s.read l
  | .bits w, true => return .bits w
  | v, _ => throw (.invalidOperand (.noFieldLoad v))

/-- The place of a field. A wrapper's field lies where the wrapper lies, and a wrapper at
hand lies in the variable that is the first argument. -/
def fieldPlace (p : Pool) (op : Operator) (receiver : Value) (f : FieldId) :
    Except Fault Location :=
  match receiver with
  | .object o => .ok (.field o f)
  | .null => throw .nullReference
  | .pointer l => do
    if ← p.isValueField f then return l
    else throw (.invalidOperand (.noFieldAddress (.pointer l)))
  | .bits _ =>
    match op.args.head?.bind Expr.var? with
    | some v => .ok (.var v)
    | none => throw (.invalidOperand .constantFieldAddress)
  | v => throw (.invalidOperand (.noFieldAddress v))

/-- Runs a call. Only the members of the scalar wrappers have a meaning here: the
constructor stores its value, `Equals` takes two NaNs as equal, the operators do not. -/
def callMethod (p : Pool) (op : Operator) (m : MethodId) (s : Frame) : Except Fault Frame := do
  let m ← p.method m
  let name ← p.name m.name
  let some kind ← p.scalarOf m.owner | throw (.unsupportedCall name)
  match WrapperMethod.of? m.kind name with
  | some .ctor =>
    let l ← (← s.arg op 0).target
    s.write l (← s.arg op 1)
  | some .equals =>
    let this ← s.behind (← s.arg op 0)
    let equal ← this.compareBy (Scalar.same kind) (← s.arg op 1)
    s.define op (.ofBool equal)
  | some .opEquality =>
    let left ← s.arg op 1
    let equal ← left.compareBy (Scalar.equal kind) (← s.arg op 2)
    s.define op (.ofBool equal)
  | some .opInequality =>
    let left ← s.arg op 1
    let equal ← left.compareBy (Scalar.equal kind) (← s.arg op 2)
    s.define op (.ofBool !equal)
  | none => throw (.unsupportedCall name)

end Pool

namespace Operator

/-- What a comparison takes its operands for: payloads of the first one's type. -/
def comparedKind (op : Operator) (p : Pool) (g : Graph) : Lookup (Option Scalar) :=
  match op.args.head? with
  | some e => do p.scalarOf (← g.typeOf e)
  | none => some none

/-- What an operator that is not a control operator does to the frame. -/
def effect (op : Operator) (p : Pool) (g : Graph) (s : Frame) : Except Fault Frame :=
  match op.kind with
  | .call m => p.callMethod op m s
  | .loadField f => do s.define op (← p.readField s (← s.arg op 0) f)
  | .loadStatic f => s.define op (s.heap.static f)
  | .loadFieldAddress f => do s.define op (.pointer (← p.fieldPlace op (← s.arg op 0) f))
  | .loadStaticAddress f => s.define op (.pointer (.static f))
  | .storeField f => do
    let object ← s.arg op 0
    let value ← s.arg op 1
    match object with
    | .object o => s.write (.field o f) value
    | .null => throw .nullReference
    | v => throw (.invalidOperand (.noFieldStore v))
  | .loadElement => do
    let array ← s.arg op 0
    let l ← s.heap.elementAt array (← s.arg op 1)
    s.define op (← s.read l)
  | .loadElementAddress => do
    let array ← s.arg op 0
    s.define op (.pointer (← s.heap.elementAt array (← s.arg op 1)))
  | .addressOf =>
    match op.args.head?.bind Expr.var? with
    | some v => s.define op (.pointer (.var v))
    | none => throw (.invalidOperand .constantAddress)
  | .loadIndirect _ => do s.define op (← s.read (← (← s.arg op 0).target))
  | .storeIndirect => do
    let l ← (← s.arg op 0).target
    s.write l (← s.arg op 1)
  | .copy => do s.define op (← s.arg op 0)
  | .compare c => do
    let kind ← op.comparedKind p g
    let left ← s.arg op 0
    let equal ← left.compareBy (Scalar.equal kind) (← s.arg op 1)
    s.define op (.ofBool (c.holds equal))
  | .nop | .jump _ | .branch _ _ | .ret => .ok s

end Operator

/-- Where a run goes after an operator. -/
inductive Control
  | next
  | goto (block : BlockId)
  | done (returned : Option Value)
  deriving DecidableEq

namespace Operator

/-- Where control goes after the operator; only control operators leave the block. -/
def control (op : Operator) (s : Frame) : Except Fault Control :=
  match op.kind with
  | .jump b => .ok (.goto b)
  | .branch onTrue onFalse => do
    match ← s.arg op 0 with
    | .bits w => return .goto (if w = 0 then onFalse else onTrue)
    | v => throw (.invalidOperand (.branch v))
  | .ret =>
    match op.args.head? with
    | some e => do return .done (some (← s.eval e))
    | none => .ok (.done none)
  | _ => .ok .next

/-- Runs one operator. -/
def step (op : Operator) (p : Pool) (g : Graph) (s : Frame) : Except Fault (Control × Frame) := do
  let control ← op.control s
  let s ← op.effect p g s
  return (control, s)

end Operator
end ScalarLowering
