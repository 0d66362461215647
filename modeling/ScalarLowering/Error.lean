import ScalarLowering.Program.Operator

/-! Why an operation on a graph gives no answer, and the text of each cause. -/

namespace ScalarLowering

/-- The two operand lists of an operator. -/
inductive Side
  | arguments
  | results
  deriving DecidableEq

def Side.text : Side → String
  | .arguments => "arguments"
  | .results => "results"

/-- A graph that is not well formed, or an edit it does not allow. -/
inductive GraphError
  | detached (op : OpId)
  | removesTerminator (op : OpId)
  | arity (op : OpId) (kind : OpKind) (side : Side) (found : Nat) (expected : Arity)
  | missingTerminator (block : BlockId)
  | misplacedControl (op : OpId) (block : BlockId)
  | membership (op : OpId) (block : BlockId) (recorded : Option BlockId)
  | unknownTarget (op : OpId) (target : BlockId)
  | droppedVariable (op : OpId) (var : VarId)
  | definesArgument (op : OpId) (var : VarId)
  deriving DecidableEq

def GraphError.message : GraphError → String
  | .detached op => s!"operator {op.label} is detached from the graph"
  | .removesTerminator op =>
    s!"operator {op.label} is a control operator and cannot be removed"
  | .arity op kind side found expected =>
    s!"{kind.mnemonic} operator {op.label} has {found} {side.text}, expected {expected.text}"
  | .missingTerminator b => s!"block {b.label} does not end in a control operator"
  | .misplacedControl op b =>
    s!"control operator {op.label} is not the last operator of block {b.label}"
  | .membership op b recorded =>
    let recorded := match recorded with
      | some c => s!"Some({c.label})"
      | none => "None"
    s!"operator {op.label} is listed in block {b.label} but records {recorded}"
  | .unknownTarget op b => s!"operator {op.label} branches to nonexistent block {b.label}"
  | .droppedVariable op v => s!"operator {op.label} references dropped variable {v.label}"
  | .definesArgument op v => s!"operator {op.label} defines argument {v.label}"

/-- A snapshot of the definition-use chains that does not fit the question. -/
inductive ChainError
  | staleIndex (index chains : UInt32)
  | unindexed (var : VarId)
  | refreshedSinceCheckpoint (times : Nat)
  | noCheckpoint
  deriving DecidableEq

def ChainError.message : ChainError → String
  | .staleIndex index chains =>
    s!"spanning-tree index from generation {index} used with chains of generation {chains}"
  | .unindexed v => s!"variable {v.label} has no spanning-tree index"
  | .refreshedSinceCheckpoint n => s!"flow cache refreshed {n} time(s) since the checkpoint"
  | .noCheckpoint => "no cache checkpoint has been recorded"

/-- An operator that the lowering cannot make sense of. -/
inductive Violation
  | constructorArguments (found : Nat)
  | equalityArguments (expected found : Nat)
  | loadReceiver
  | addressReceiver
  | receiverType (receiver : VarId) (type : String)
  | unknownSource (receiver : VarId)
  deriving DecidableEq

def Violation.message : Violation → String
  | .constructorArguments n =>
    "scalar constructor takes `this` and one value, found " ++ s!"{n} arguments"
  | .equalityArguments expected found =>
    s!"scalar equality takes {expected} arguments, found {found}"
  | .loadReceiver => "field load takes exactly one receiver"
  | .addressReceiver => "field address takes exactly one receiver"
  | .receiverType v t => s!"scalar receiver {v.label} has non-pointer type {t}"
  | .unknownSource v => s!"could not find the source of scalar address {v.label}"

inductive Error
  /-- An id that names nothing was looked up. -/
  | dangling
  | graph (e : GraphError)
  | chain (e : ChainError)
  | violation (op : OpId) (v : Violation)
  deriving DecidableEq

def Error.message : Error → String
  | .dangling => "lookup out of range"
  | .graph e => e.message
  | .chain e => e.message
  | .violation op v => s!"invariant violated at {op.label}: {v.message}"

/-- Inside a fallible computation a lookup that finds nothing ends it. -/
instance : MonadLift Option (Except Error) where
  monadLift
    | some a => .ok a
    | none => .error .dangling

@[simp] theorem Error.lift_eq_ok {α : Type} {found : Lookup α} {a : α} :
    (liftM found : Except Error α) = .ok a ↔ found = some a := by
  cases found <;> simp [liftM, monadLift, MonadLift.monadLift]

end ScalarLowering
