import ScalarLowering.Program.Graph
import ScalarLowering.Types.Pool
import ScalarLowering.Scalar.Decimal

/-! The printout of a graph: its arguments, its live variables and its reachable blocks. -/

namespace ScalarLowering

def VarId.text (v : VarId) : String := s!"v{v.index}"

def BlockId.text (b : BlockId) : String := s!"bb{b.index}"

/-- A single-precision constant ends in `f`; a float payload of any other type is read as
double precision. -/
def Constant.text (c : Constant) : String :=
  match c.value with
  | .int n => s!"{n.toInt}"
  | .float bits =>
    if c.type = TypeId.ofScalar .f32 then FloatFormat.single.text bits ++ "f"
    else FloatFormat.double.text bits
  | .bool b => if b then "true" else "false"
  | .null => "null"

def Expr.text : Expr → String
  | .var v => v.text
  | .const c => c.text

def Operator.argsText (op : Operator) : String := ", ".intercalate (op.args.map Expr.text)

namespace Pool

/-- A member as its owner and its name. -/
def memberText (p : Pool) (owner : TypeId) (name : NameId) : Lookup String := do
  return (← p.display owner) ++ "::" ++ (← p.name name)

/-- What follows the mnemonic of an operator. -/
def operandsText (p : Pool) (op : Operator) : Lookup String :=
  let args := op.argsText
  let spaced := if args.isEmpty then "" else " " ++ args
  match op.kind with
  | .call m => do
    let m ← p.method m
    return " " ++ (← p.memberText m.owner m.name) ++ "(" ++ args ++ ")"
  | .loadField f | .loadStatic f | .loadFieldAddress f | .loadStaticAddress f
  | .storeField f => do
    let f ← p.field f
    return " " ++ (← p.memberText f.owner f.name) ++ spaced
  | .loadIndirect t => do return "." ++ (← p.display t) ++ " " ++ args
  | .compare c => some ("." ++ c.mnemonic ++ " " ++ args)
  | .jump b => some (" " ++ b.text)
  | .branch b c => some (" " ++ args ++ ", " ++ b.text ++ ", " ++ c.text)
  | .loadElement | .loadElementAddress | .addressOf | .storeIndirect | .copy | .nop
  | .ret => some spaced

def operatorText (p : Pool) (op : Operator) : Lookup String := do
  let results := if op.results.isEmpty then "" else
    ", ".intercalate (op.results.map VarId.text) ++ " = "
  let null := if op.checkForNull && !op.kind.isCall then " !null" else ""
  let position := match op.position with
    | some pos => s!" @{pos.line}:{pos.column}"
    | none => ""
  return results ++ op.kind.mnemonic ++ (← p.operandsText op) ++ null ++ position

end Pool

namespace Graph

/-- A variable with its type. -/
def varText (g : Graph) (p : Pool) (v : VarId) : Lookup String := do
  return v.text ++ ": " ++ (← p.display (← g.var v).type)

def blockText (g : Graph) (p : Pool) (b : BlockId) : Lookup String := do
  let lines ← (← g.block b).ops.mapM fun id => do
    return "    " ++ (← p.operatorText (← g.op id)) ++ "\n"
  return b.text ++ ":\n" ++ String.join lines

/-- The whole printout. It needs every type and member it names. -/
def text (g : Graph) (p : Pool) : Lookup String := do
  let isArgument (v : VarId) := (g.var v).any (·.isArgument)
  let isDropped (v : VarId) := (g.var v).any (·.dropped)
  let isReachable (b : BlockId) := (g.block b).any (·.reachable)
  let params ← (g.varIds.filter isArgument).mapM (g.varText p)
  let others := g.varIds.filter fun v => !isArgument v && !isDropped v
  let locals ← others.mapM fun v => do return "    let " ++ (← g.varText p v) ++ "\n"
  let blocks ← (g.blockIds.filter isReachable).mapM (g.blockText p)
  return "fn " ++ g.name ++ "(" ++ ", ".intercalate params ++ ") \x7b\n"
    ++ String.join locals ++ String.join blocks ++ "\x7d\n"

end Graph
end ScalarLowering
