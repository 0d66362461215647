import ScalarLowering.Edit.Operators

/-! Elimination of variables that nobody reads. A definition that only computes such a
variable is removed; any other loses the result and stays for its effects. Removing a
definition can leave more variables unread, so this goes on until nothing changes. Then
the variables that no operator mentions are dropped. -/

namespace ScalarLowering
namespace Graph

/-- Whether nobody reads any of these variables. -/
def allUnread (g : Graph) (c : Chains) : List VarId → Except Error Bool
  | [] => .ok true
  | v :: vs => do
    if (← g.attachedUses c v).isEmpty then g.allUnread c vs else return false

/-- Drops a variable from the results of an operator. -/
def stripResult (g : Graph) (id : OpId) (v : VarId) : Graph :=
  (g.modifyOp id (·.withoutResult v)).bump

/-- The variables that the attached operators mention. -/
def mentioned (g : Graph) : List VarId :=
  g.attached.flatMap fun id => (g.op id).elim [] (·.mentions)

/-- Whether a variable can be dropped: it is no argument and nothing mentions it. -/
def isUnmentioned (g : Graph) (v : VarId) (info : Variable) : Bool :=
  !info.isArgument && !info.dropped && !g.mentioned.contains v

/-- Drops the variables that nothing mentions, and counts them. -/
def dropUnmentioned (g : Graph) : Nat × Graph :=
  let dead := g.varIds.filter fun v => (g.var v).any (g.isUnmentioned v)
  let vars := g.vars.mapIdx fun i info =>
    if g.isUnmentioned ⟨i⟩ info then { info with dropped := true, index := none } else info
  (dead.length, if dead.isEmpty then g else { g with vars }.bump)

/-- What the rounds of elimination can still take away: attached operators and their
results. -/
def removable (g : Graph) : Nat :=
  g.attached.foldr (fun id rest => 1 + (g.op id).elim 0 (·.results.length) + rest) 0

end Graph

namespace Edit

/-- Takes away one definition of a variable that nobody reads. -/
def dropDefinition (c : Chains) (v : VarId) (id : OpId) : Edit Bool := do
  let op ← query fun g => do g.op id
  if !op.isAttached then return false
  let unread ← if op.isPure then query (·.allUnread c op.results) else pure false
  if unread then
    let _ ← remove id .discard
  else
    modify (·.stripResult id v)
  return true

/-- Takes away the definitions of a variable, if nobody reads it. -/
def dropDefinitions (c : Chains) (v : VarId) : Edit Bool := do
  let info ← query fun g => do g.var v
  if info.isArgument || info.dropped then return false
  let uses ← query (·.attachedUses c v)
  if !uses.isEmpty then return false
  let defs ← query (·.attachedDefs c v)
  let count ← sweep (dropDefinition c v) defs
  return 0 < count

/-- At most `n` rounds over all variables; a round without a change is the last. -/
def deadRounds : (n : Nat) → Edit Unit
  | 0 => return ()
  | n + 1 => do
    let c ← snapshot
    let vars ← query fun g => .ok g.varIds
    let count ← sweep (dropDefinitions c) vars
    if 0 < count then deadRounds n

/-- Eliminates the variables nobody reads and counts those it drops. Each round but the
last takes an operator or a result away, which bounds their number. -/
def eliminateDead : Edit Nat := do
  deadRounds ((← query fun g => .ok g.removable) + 1)
  modifyGet (·.dropUnmentioned)

end Edit
end ScalarLowering
