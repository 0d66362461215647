import ScalarLowering.Program.Expr

/-! Operators: what each kind does, how many operands it takes, and the flags that say
which faults its code has to check for. -/

namespace ScalarLowering

/-- A place in the source text. -/
structure Position where
  line : Nat
  column : Nat
  deriving DecidableEq

/-- The faults an operator has to check for. -/
structure Flags where
  checkForNull : Bool := false
  mayThrow : Bool := false
  deriving DecidableEq

namespace Flags

def none : Flags := {}

/-- Both sets of flags together. -/
def union (a b : Flags) : Flags :=
  ⟨a.checkForNull || b.checkForNull, a.mayThrow || b.mayThrow⟩

/-- Bit 0 is the null check, bit 1 the other faults. -/
def bits (f : Flags) : Nat := f.checkForNull.toNat + 2 * f.mayThrow.toNat

def ofBits (n : Nat) : Flags := ⟨n.testBit 0, n.testBit 1⟩

@[simp] theorem ofBits_bits (f : Flags) : ofBits f.bits = f := by
  rcases f with ⟨_ | _, _ | _⟩ <;> rfl

end Flags

inductive Condition
  | eq
  | ne
  deriving DecidableEq

def Condition.mnemonic : Condition → String
  | .eq => "eq"
  | .ne => "ne"

/-- The truth of the condition on two operands that are equal or not. -/
def Condition.holds : Condition → Bool → Bool
  | .eq, equal => equal
  | .ne, equal => !equal

inductive OpKind
  | call (method : MethodId)
  | loadField (field : FieldId)
  | loadStatic (field : FieldId)
  | loadFieldAddress (field : FieldId)
  | loadStaticAddress (field : FieldId)
  | storeField (field : FieldId)
  | loadElement
  | loadElementAddress
  | addressOf
  | loadIndirect (type : TypeId)
  | storeIndirect
  | copy
  | compare (condition : Condition)
  | nop
  | jump (target : BlockId)
  | branch (onTrue onFalse : BlockId)
  | ret
  deriving DecidableEq

/-- A least and a most number of operands. -/
structure Arity where
  least : Nat
  most : Nat
  deriving DecidableEq

namespace Arity

def exactly (n : Nat) : Arity := ⟨n, n⟩

def optional : Arity := ⟨0, 1⟩

def admits (a : Arity) (n : Nat) : Bool := a.least ≤ n && n ≤ a.most

def text (a : Arity) : String :=
  if a.least = a.most then s!"{a.least}" else s!"{a.least}..={a.most}"

end Arity

namespace OpKind

/-- Control operators end a block. -/
def isControl : OpKind → Bool
  | .jump _ | .branch _ _ | .ret => true
  | _ => false

def isCall : OpKind → Bool
  | .call _ => true
  | _ => false

def isFieldLoad : OpKind → Bool
  | .loadField _ => true
  | _ => false

def isStaticLoad : OpKind → Bool
  | .loadStatic _ => true
  | _ => false

def isFieldAddress : OpKind → Bool
  | .loadFieldAddress _ => true
  | _ => false

/-- The address of a field, of an object or static. -/
def isPlaceOfField : OpKind → Bool
  | .loadFieldAddress _ | .loadStaticAddress _ => true
  | _ => false

def mnemonic : OpKind → String
  | .call _ => "call"
  | .loadField _ => "ldfld"
  | .loadStatic _ => "ldsfld"
  | .loadFieldAddress _ => "ldflda"
  | .loadStaticAddress _ => "ldsflda"
  | .storeField _ => "stfld"
  | .loadElement => "ldelem"
  | .loadElementAddress => "ldelema"
  | .addressOf => "addr"
  | .loadIndirect _ => "ldind"
  | .storeIndirect => "stind"
  | .copy => "mov"
  | .compare _ => "cmp"
  | .nop => "nop"
  | .jump _ => "jmp"
  | .branch _ _ => "br"
  | .ret => "ret"

/-- Number of arguments; a call takes what its method takes and is not bounded here. -/
def argArity? : OpKind → Option Arity
  | .call _ => none
  | .loadStatic _ | .loadStaticAddress _ | .nop | .jump _ => some (.exactly 0)
  | .loadField _ | .loadFieldAddress _ | .addressOf | .loadIndirect _ | .copy
  | .branch _ _ => some (.exactly 1)
  | .storeField _ | .loadElement | .loadElementAddress | .storeIndirect
  | .compare _ => some (.exactly 2)
  | .ret => some .optional

/-- Number of results. A checked load may lose its result and stay for its fault. -/
def resultArity : OpKind → Arity
  | .call _ | .loadIndirect _ | .loadField _ | .loadFieldAddress _ | .loadElement
  | .loadElementAddress => .optional
  | .loadStatic _ | .loadStaticAddress _ | .addressOf | .copy | .compare _ => .exactly 1
  | .storeField _ | .storeIndirect | .nop | .jump _ | .branch _ _ | .ret => .exactly 0

/-- The blocks control can go to. -/
def targets : OpKind → List BlockId
  | .jump b => [b]
  | .branch b c => [b, c]
  | _ => []

theorem length_targets_le (k : OpKind) : k.targets.length ≤ 2 := by
  cases k <;> simp [targets]

end OpKind

/-- An operator of the arena; `block` is the block that lists it, if one does. -/
structure Operator where
  kind : OpKind
  args : List Expr := []
  results : List VarId := []
  flags : Flags := .none
  position : Option Position := none
  block : Option BlockId := none
  deriving DecidableEq

namespace Operator

def call (m : MethodId) (args : List Expr) (result : Option VarId) : Operator :=
  { kind := .call m, args, results := result.toList, flags := { mayThrow := true } }

def copy (result : VarId) (value : Expr) : Operator :=
  { kind := .copy, args := [value], results := [result] }

def addressOf (result addressed : VarId) : Operator :=
  { kind := .addressOf, args := [.var addressed], results := [result] }

def compare (c : Condition) (result : VarId) (left right : Expr) : Operator :=
  { kind := .compare c, args := [left, right], results := [result] }

def loadIndirect (t : TypeId) (result : VarId) (pointer : Expr) (check : Bool) : Operator :=
  { kind := .loadIndirect t, args := [pointer], results := [result],
    flags := { checkForNull := check } }

def storeIndirect (pointer value : Expr) (check : Bool) : Operator :=
  { kind := .storeIndirect, args := [pointer, value], flags := { checkForNull := check } }

def loadField (f : FieldId) (result : VarId) (object : Expr) (check : Bool) : Operator :=
  { kind := .loadField f, args := [object], results := [result],
    flags := { checkForNull := check } }

def loadFieldAddress (f : FieldId) (result : VarId) (object : Expr) (check : Bool) : Operator :=
  { kind := .loadFieldAddress f, args := [object], results := [result],
    flags := { checkForNull := check } }

def loadStatic (f : FieldId) (result : VarId) : Operator :=
  { kind := .loadStatic f, results := [result] }

def loadStaticAddress (f : FieldId) (result : VarId) : Operator :=
  { kind := .loadStaticAddress f, results := [result] }

def storeField (f : FieldId) (object value : Expr) : Operator :=
  { kind := .storeField f, args := [object, value], flags := { checkForNull := true } }

def loadElement (result : VarId) (array index : Expr) : Operator :=
  { kind := .loadElement, args := [array, index], results := [result], flags := ⟨true, true⟩ }

def loadElementAddress (result : VarId) (array index : Expr) : Operator :=
  { kind := .loadElementAddress, args := [array, index], results := [result],
    flags := ⟨true, true⟩ }

def nop : Operator := { kind := .nop }

def jump (target : BlockId) : Operator := { kind := .jump target }

def branch (on : Expr) (onTrue onFalse : BlockId) : Operator :=
  { kind := .branch onTrue onFalse, args := [on] }

def ret (value : Option Expr) : Operator := { kind := .ret, args := value.toList }

def isAttached (op : Operator) : Bool := op.block.isSome

def isControl (op : Operator) : Bool := op.kind.isControl

def result? (op : Operator) : Option VarId := op.results.head?

def checkForNull (op : Operator) : Bool := op.flags.checkForNull

def mayFault (op : Operator) : Bool := op.flags.checkForNull || op.flags.mayThrow

/-- Running a pure operator only writes its results, so it can go when nobody reads them. -/
def isPure (op : Operator) : Bool :=
  match op.kind with
  | .copy | .addressOf | .compare _ | .nop => true
  | .loadField _ | .loadStatic _ | .loadFieldAddress _ | .loadStaticAddress _ | .loadElement
  | .loadElementAddress | .loadIndirect _ => !op.mayFault
  | .call _ | .storeField _ | .storeIndirect | .jump _ | .branch _ _ | .ret => false

/-- The variables read, in argument order and with repetitions. -/
def reads (op : Operator) : List VarId := op.args.filterMap Expr.var?

def readsVar (op : Operator) (v : VarId) : Bool := op.reads.contains v

def definesVar (op : Operator) (v : VarId) : Bool := op.results.contains v

/-- The variables read, then those written. -/
def mentions (op : Operator) : List VarId := op.reads ++ op.results

def targets (op : Operator) : List BlockId := op.kind.targets

/-- How many arguments are the variable. -/
def occurrences (op : Operator) (v : VarId) : Nat := op.args.count (.var v)

/-- Puts an expression for every argument that is the variable. Results stay. -/
def substitute (op : Operator) (v : VarId) (e : Expr) : Operator :=
  { op with args := op.args.map fun a => if a = .var v then e else a }

/-- Drops the variable from the results. -/
def withoutResult (op : Operator) (v : VarId) : Operator :=
  { op with results := op.results.filter (· ≠ v) }

end Operator
end ScalarLowering
