import ScalarLowering.Machine.Step

/-! Runs of a graph under a budget of steps. -/

namespace ScalarLowering

/-- How a run can fail. -/
inductive RunError
  | fault (op : OpId) (cause : Fault)
  | argumentCount (expected found : Nat)
  | fellOffBlock (block : BlockId)
  | outOfFuel (fuel : Nat)
  /-- Control went to a block that does not exist, or a block lists an unknown operator. -/
  | dangling
  deriving DecidableEq

/-- Whether the run met an id that names nothing. -/
def RunError.isDangling : RunError → Bool
  | .dangling | .fault _ .dangling => true
  | _ => false

def RunError.message : RunError → String
  | .fault op .dangling => s!"lookup out of range at {op.label}"
  | .fault op .nullReference => s!"null reference at {op.label}"
  | .fault op (.indexOutOfRange i n) =>
    s!"index {i.toInt} out of range for length {n} at {op.label}"
  | .fault op (.invalidOperand cause) => s!"invalid operand at {op.label}: {cause.message}"
  | .fault op (.unsupportedCall m) =>
    "cannot evaluate call to `" ++ m ++ "` at " ++ op.label
  | .argumentCount expected found => s!"expected {expected} argument(s), got {found}"
  | .fellOffBlock b => s!"block {b.label} ends without a control operator"
  | .outOfFuel fuel => s!"step budget of {fuel} exhausted"
  | .dangling => "lookup out of range"

/-- The end of a completed run. -/
structure Outcome extends Frame where
  /-- The returned value; `none` when the run returns nothing. -/
  returned : Option Value
  /-- Number of operators that ran. -/
  steps : Nat
  deriving DecidableEq

namespace Graph

/-- Runs the operators `ids`, the rest of block `b`, with `left` of `fuel` steps to go. -/
def runFrom (g : Graph) (p : Pool) (fuel : Nat) :
    (left : Nat) → (b : BlockId) → (ids : List OpId) → Frame → Except RunError Outcome
  | _, b, [], _ => .error (.fellOffBlock b)
  | 0, _, _ :: _, _ => .error (.outOfFuel fuel)
  | left + 1, b, id :: ids, s =>
    match g.op id with
    | none => .error .dangling
    | some op =>
      match op.step p g s with
      | .error cause => .error (.fault id cause)
      | .ok (.next, s) => g.runFrom p fuel left b ids s
      | .ok (.done returned, s) => .ok { s with returned, steps := fuel - left }
      | .ok (.goto t, s) =>
        match g.block t with
        | none => .error .dangling
        | some block => g.runFrom p fuel left t block.ops s

/-- The variables at the start: arguments take the given values in order, and every other
variable is undefined. -/
def initialVars : List Variable → List Value → List Value
  | [], _ => []
  | v :: vs, args =>
    if v.isArgument then args.headD .undefined :: initialVars vs args.tail
    else .undefined :: initialVars vs args

/-- The variables that take the arguments of a run. -/
def arguments (g : Graph) : List Variable := g.vars.toList.filter (·.isArgument)

/-- Runs the graph on arguments and a heap for at most `fuel` steps. -/
def run (g : Graph) (p : Pool) (args : List Value) (heap : Heap) (fuel : Nat) :
    Except RunError Outcome :=
  if g.arguments.length ≠ args.length then
    .error (.argumentCount g.arguments.length args.length)
  else
    match g.block g.entry with
    | none => .error .dangling
    | some block =>
      g.runFrom p fuel fuel g.entry block.ops ⟨(initialVars g.vars.toList args).toArray, heap⟩

/-- The budget where none is given. -/
def defaultBudget : Nat := 100000

end Graph
end ScalarLowering
