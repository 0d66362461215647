import ScalarLowering.Program.Operator
import ScalarLowering.DefUse.Chains

/-! Control-flow graphs. Operators live in an arena that only grows; a block lists the ids
of its operators in order, and an operator that no block lists is detached. Every change
to what runs raises the version. -/

namespace ScalarLowering

inductive VarKind
  | argument
  | local
  | temporary
  deriving DecidableEq

def VarKind.label : VarKind → String
  | .argument => "Argument"
  | .local => "Local"
  | .temporary => "Temporary"

structure Variable where
  kind : VarKind
  type : TypeId
  /-- Slot in the latest snapshot of the chains. -/
  index : Option ChainIndex := none
  /-- Set once nothing mentions the variable any more. -/
  dropped : Bool := false
  deriving DecidableEq

def Variable.isArgument (v : Variable) : Bool := v.kind = .argument

structure Block where
  ops : List OpId := []
  reachable : Bool := true
  deriving DecidableEq

/-- The operator a block ends in; it should be a control operator. -/
def Block.last? (b : Block) : Option OpId := b.ops.getLast?

structure Graph where
  name : String
  vars : Array Variable := #[]
  ops : Array Operator := #[]
  blocks : Array Block := #[{}]
  entry : BlockId := ⟨0⟩
  version : Nat := 0
  cache : ChainCache := {}
  deriving DecidableEq

namespace Graph

def var (g : Graph) (v : VarId) : Lookup Variable := g.vars[v.index]?

def op (g : Graph) (id : OpId) : Lookup Operator := g.ops[id.index]?

def block (g : Graph) (b : BlockId) : Lookup Block := g.blocks[b.index]?

def varIds (g : Graph) : List VarId := (List.range g.vars.size).map .mk

def blockIds (g : Graph) : List BlockId := (List.range g.blocks.size).map .mk

def typeOf (g : Graph) : Expr → Lookup TypeId
  | .var v => (g.var v).map (·.type)
  | .const c => some c.type

def isAttached (g : Graph) (id : OpId) : Bool := (g.op id).any (·.isAttached)

/-- The attached operators, block after block. -/
def attached (g : Graph) : List OpId := g.blocks.toList.flatMap (·.ops)

/-- The attached operators whose kind passes a test. -/
def attachedWhere (g : Graph) (test : OpKind → Bool) : List OpId :=
  g.attached.filter fun id => (g.op id).any fun op => test op.kind

/-- The blocks that control can reach from the end of a list of operators. -/
def targetsOf (g : Graph) (ids : List OpId) : List BlockId :=
  match ids.getLast?.bind g.op with
  | some op => op.targets
  | none => []

theorem length_targetsOf_le (g : Graph) (ids : List OpId) : (g.targetsOf ids).length ≤ 2 := by
  unfold targetsOf
  split
  · exact OpKind.length_targets_le _
  · simp

def successors (g : Graph) (b : BlockId) : Lookup (List BlockId) :=
  (g.block b).map fun block => g.targetsOf block.ops

def bump (g : Graph) : Graph := { g with version := g.version + 1 }

def touch (g : Graph) (v : VarId) : Graph := { g with cache := g.cache.touch v }

def modifyOp (g : Graph) (id : OpId) (f : Operator → Operator) : Graph :=
  { g with ops := g.ops.modify id.index f }

def modifyBlock (g : Graph) (b : BlockId) (f : List OpId → List OpId) : Graph :=
  { g with blocks := g.blocks.modify b.index fun block => { block with ops := f block.ops } }

/-- Adds an operator to the arena for a block to list; all it mentions is touched. -/
def pushOp (g : Graph) (op : Operator) (b : BlockId) : OpId × Graph :=
  let g := op.mentions.foldl touch g
  (⟨g.ops.size⟩, { g with ops := g.ops.push { op with block := some b } })

def empty (name : String) : Graph := { name }

def addVar (g : Graph) (kind : VarKind) (t : TypeId) : VarId × Graph :=
  (⟨g.vars.size⟩, { g with vars := g.vars.push { kind, type := t } }.bump)

def addBlock (g : Graph) : BlockId × Graph :=
  (⟨g.blocks.size⟩, { g with blocks := g.blocks.push {} }.bump)

/-- Adds an operator at the end of a block. -/
def append (g : Graph) (b : BlockId) (op : Operator) : Lookup (OpId × Graph) :=
  (g.block b).map fun _ =>
    let (id, g) := g.pushOp op b
    (id, (g.modifyBlock b (· ++ [id])).bump)

end Graph
end ScalarLowering
