import ScalarLowering.Program.Graph

/-! Which blocks control can reach from the entry. Blocks that it cannot reach lose their
operators. -/

namespace ScalarLowering
namespace Graph

/-- Takes the blocks reached from `work` out of `unseen`. -/
def explore (g : Graph) (unseen work : List BlockId) : List BlockId :=
  match work with
  | [] => unseen
  | b :: work =>
    if b ∈ unseen then
      g.explore (unseen.erase b) (g.targetsOf ((g.block b).elim [] (·.ops)) ++ work)
    else g.explore unseen work
termination_by 2 * unseen.length + work.length
decreasing_by
  · rename_i hmem
    have hlen := List.length_erase_of_mem hmem
    have hpos := List.length_pos_of_mem hmem
    have htargets := g.length_targetsOf_le ((g.block b).elim [] (·.ops))
    simp only [List.length_append, List.length_cons]
    omega
  · simp only [List.length_cons]
    omega

/-- The blocks that no path from the entry reaches. -/
def unreached (g : Graph) : List BlockId := g.explore g.blockIds [g.entry]

/-- The blocks that hold operators and that no path reaches. -/
def deadBlocks (g : Graph) : List BlockId :=
  g.unreached.filter fun b => (g.block b).any fun block => !block.ops.isEmpty

/-- Marks every block as reachable or not and empties the unreachable ones. Gives the
number of blocks it emptied. -/
def updateReachability (g : Graph) : Nat × Graph :=
  let unreached := g.unreached
  let dead := g.deadBlocks
  let blocks := g.blocks.mapIdx fun i block =>
    if ⟨i⟩ ∈ unreached then { block with ops := [], reachable := false }
    else { block with reachable := true }
  let detached := dead.flatMap fun b => (g.block b).elim [] (·.ops)
  let ops := detached.foldl (fun ops id => ops.modify id.index ({ · with block := none })) g.ops
  let swept := { g with blocks, ops }
  (dead.length, if dead.isEmpty then swept else swept.bump)

end Graph
end ScalarLowering
