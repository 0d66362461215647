import ScalarLowering.Proofs.Rewrites

/-! Which blocks are reachable. The search from the entry finds the least set of blocks that holds
the entry and, with a block, every block its terminator may go to. Emptying the others detaches
their operators, a second time finds nothing to empty, and no run can tell the difference if
control only leaves blocks at their ends. -/

namespace ScalarLowering
namespace Graph

variable {g : Graph} {b t : BlockId} {id : OpId} {p : Pool} {s : Frame}

/-- The least set with the entry that is closed under the targets of terminators, as far as these
are blocks of the graph. -/
inductive Reaches (g : Graph) : BlockId → Prop
  | entry : g.Reaches g.entry
  | target {b t : BlockId} {block : Block} {id : OpId} {op : Operator} : g.Reaches b →
      g.block b = some block → block.last? = some id → g.op id = some op → t ∈ op.targets →
      t.index < g.blocks.size → g.Reaches t

def holdsCode (g : Graph) (b : BlockId) : Bool := (g.block b).any fun block => !block.ops.isEmpty

/-- Control operators stand at the ends of blocks only. -/
def ControlLast (g : Graph) : Prop :=
  ∀ block ∈ g.blocks.toList, ∀ id ∈ block.ops.dropLast, (g.op id).all fun op => !op.isControl

instance (g : Graph) : Decidable g.ControlLast :=
  inferInstanceAs (Decidable (∀ block ∈ g.blocks.toList, ∀ id ∈ block.ops.dropLast,
    (g.op id).all fun op => !op.isControl))

theorem ControlLast.isControl {block : Block} {op : Operator} (h : g.ControlLast)
    (hb : g.block b = some block) (hid : id ∈ block.ops.dropLast) (hop : g.op id = some op) :
    op.isControl = false := by
  have hmem : block ∈ g.blocks.toList := Array.mem_toList_iff.mpr (Array.mem_of_getElem? hb)
  simpa [hop] using h block hmem id hid

theorem mem_targetsFrom_iff : t ∈ g.targetsFrom b ↔ ∃ block id op, g.block b = some block ∧
    block.last? = some id ∧ g.op id = some op ∧ t ∈ op.targets := by
  unfold targetsFrom targetsOf Block.last?
  cases hb : g.block b with
  | none => simp
  | some block =>
    cases hlast : block.ops.getLast? with
    | none => simp [hlast]
    | some id => cases hop : g.op id <;> simp [hlast, hop]

theorem Reaches.notMem_unreached (h : g.Reaches b) : b ∉ g.unreached := by
  induction h with
  | entry => exact entry_notMem_unreached
  | target _ hb hlast hop ht _ ih =>
    exact target_notMem_unreached ih (mem_targetsFrom_iff.mpr ⟨_, _, _, hb, hlast, hop, ht⟩)

theorem reaches_of_notMem_unreached (hknown : b.index < g.blocks.size) (h : b ∉ g.unreached) :
    g.Reaches b := by
  -- ids that name no block may be met on the way, but nothing leads on from them
  refine of_notMem_explore (P := fun b => b.index < g.blocks.size → g.Reaches b)
    (fun b hb t ht hlt => ?_) (fun d hd _ => ?_) ((mem_blockIds g).mpr hknown) h hknown
  · obtain ⟨block, id, op, hblock, hlast, hop, ht⟩ := mem_targetsFrom_iff.mp ht
    exact (hb (block_eq_some_lt hblock)).target hblock hlast hop ht hlt
  · rw [List.mem_singleton.mp hd]
    exact .entry

theorem mem_unreached_iff : b ∈ g.unreached ↔ b.index < g.blocks.size ∧ ¬ g.Reaches b := by
  constructor
  · intro h
    exact ⟨(mem_blockIds g).mp (mem_of_mem_explore h), fun hr => hr.notMem_unreached h⟩
  · rintro ⟨hlt, hr⟩
    by_contra h
    exact hr (reaches_of_notMem_unreached hlt h)

theorem block_of_reaches (hr : g.Reaches b) : g.updateReachability.2.block b =
    (g.block b).map ({ · with reachable := true }) := by
  simp [block_updateReachability, hr.notMem_unreached]

theorem block_of_not_reaches (hr : ¬ g.Reaches b) : g.updateReachability.2.block b =
    (g.block b).map ({ · with ops := [], reachable := false }) := by
  rw [block_updateReachability]
  cases hb : g.block b with
  | none => rfl
  | some block => simp [mem_unreached_iff.mpr ⟨block_eq_some_lt hb, hr⟩]

theorem size_blocks_updateReachability : g.updateReachability.2.blocks.size = g.blocks.size := by
  unfold updateReachability
  dsimp only
  split <;> simp [bump]

theorem op_updateReachability_eq (id : OpId) : ∃ c : Operator → Option BlockId,
    g.updateReachability.2.op id = (g.op id).map fun op => { op with block := c op } := by
  rw [op_updateReachability]
  split
  · exact ⟨fun _ => none, rfl⟩
  · exact ⟨(·.block), by simp⟩

theorem blockOf_of_not_reaches (hr : ¬ g.Reaches b) {block : Block} (hb : g.block b = some block)
    (hid : id ∈ block.ops) : g.updateReachability.2.blockOf id = none := by
  have hswept : id ∈ g.swept := by
    refine List.mem_flatMap.mpr ⟨b, List.mem_filter.mpr ⟨?_, ?_⟩, by simpa [hb] using hid⟩
    · exact mem_unreached_iff.mpr ⟨block_eq_some_lt hb, hr⟩
    · simpa [hb] using List.ne_nil_of_mem hid
  simp [blockOf, op_updateReachability, hswept]

theorem holdsCode_of_reaches (hr : g.Reaches b) :
    g.updateReachability.2.holdsCode b = g.holdsCode b := by
  rw [holdsCode, block_of_reaches hr, holdsCode]
  cases g.block b <;> rfl

theorem holdsCode_of_not_reaches (hr : ¬ g.Reaches b) :
    g.updateReachability.2.holdsCode b = false := by
  rw [holdsCode, block_of_not_reaches hr]
  cases g.block b <;> rfl

theorem explore_sublist (g : Graph) (unseen work : List BlockId) :
    (g.explore unseen work).Sublist unseen := by
  fun_induction explore g unseen work with
  | case1 => exact List.Sublist.refl _
  | case2 unseen c work hc ih => exact ih.trans List.erase_sublist
  | case3 unseen c work hc ih => exact ih

/-- The blocks that get emptied are counted once each. -/
theorem fst_updateReachability : g.updateReachability.1 =
    g.blockIds.countP fun b => g.holdsCode b && !g.updateReachability.2.holdsCode b := by
  have hdead : ∀ b, b ∈ g.deadBlocks ↔
      b ∈ g.blockIds.filter fun b => g.holdsCode b && !g.updateReachability.2.holdsCode b := by
    intro b
    change b ∈ g.unreached.filter g.holdsCode ↔ _
    rw [List.mem_filter, List.mem_filter, mem_unreached_iff, mem_blockIds]
    by_cases hr : g.Reaches b
    · simp [hr, holdsCode_of_reaches hr]
    · simp [hr, holdsCode_of_not_reaches hr]
  have hnodup : g.deadBlocks.Nodup :=
    ((explore_sublist g g.blockIds [g.entry]).nodup nodup_blockIds).filter _
  rw [List.countP_eq_length_filter]
  exact ((List.perm_ext_iff_of_nodup hnodup (nodup_blockIds.filter _)).mpr hdead).length_eq

/-- The least closed set is found again once the other blocks are empty. -/
theorem reaches_updateReachability : g.updateReachability.2.Reaches b ↔ g.Reaches b := by
  constructor
  · intro h
    induction h with
    | entry =>
      rw [entry_updateReachability]
      exact .entry
    | target _ hb hlast hop ht hlt ih =>
      rw [block_of_reaches ih] at hb
      obtain ⟨block, hblock, rfl⟩ := Option.map_eq_some_iff.mp hb
      obtain ⟨c, hc⟩ := op_updateReachability_eq _
      obtain ⟨op, hop', rfl⟩ := Option.map_eq_some_iff.mp (hc.symm.trans hop)
      exact ih.target hblock hlast hop' ht (size_blocks_updateReachability ▸ hlt)
  · intro h
    induction h with
    | entry =>
      have hentry := Reaches.entry (g := g.updateReachability.2)
      rwa [entry_updateReachability] at hentry
    | @target b t block id op hr hb hlast hop ht hlt ih =>
      obtain ⟨c, hc⟩ := op_updateReachability_eq (g := g) id
      rw [hop, Option.map_some] at hc
      have hblock := block_of_reaches hr
      rw [hb, Option.map_some] at hblock
      exact ih.target hblock hlast hc ht (by rwa [size_blocks_updateReachability])

theorem mem_unreached_updateReachability :
    b ∈ g.updateReachability.2.unreached ↔ b ∈ g.unreached := by
  rw [mem_unreached_iff, mem_unreached_iff, reaches_updateReachability,
    size_blocks_updateReachability]

theorem deadBlocks_updateReachability : g.updateReachability.2.deadBlocks = [] := by
  refine List.filter_eq_nil_iff.mpr fun b hb => ?_
  have hu := mem_unreached_updateReachability.mp hb
  cases hblock : g.block b <;> simp [block_updateReachability, hblock, hu]

theorem updateReachability_eq_self (hdead : g.deadBlocks = [])
    (hmark : ∀ {b block}, g.block b = some block →
      (if b ∈ g.unreached then { block with ops := [], reachable := false }
        else { block with reachable := true }) = block) :
    g.updateReachability = (0, g) := by
  have hblocks : (g.blocks.mapIdx fun i block => if ⟨i⟩ ∈ g.unreached then
      ({ block with ops := [], reachable := false } : Block)
      else { block with reachable := true }) = g.blocks := by
    apply Array.ext_getElem?
    intro i
    rw [Array.getElem?_mapIdx]
    cases hb : g.blocks[i]? with
    | none => rfl
    | some block => exact congrArg some (hmark (b := ⟨i⟩) hb)
  simp only [updateReachability, hdead, hblocks]
  rfl

theorem updateReachability_updateReachability :
    g.updateReachability.2.updateReachability = (0, g.updateReachability.2) := by
  refine updateReachability_eq_self deadBlocks_updateReachability fun {b block'} hb => ?_
  rw [block_updateReachability] at hb
  obtain ⟨block, -, rfl⟩ := Option.map_eq_some_iff.mp hb
  by_cases hu : b ∈ g.unreached <;> simp [mem_unreached_updateReachability, hu]

/-- A step reads neither the block of the operator nor more of the graph than its variables. -/
theorem step_of_vars_eq {g' : Graph} (h : g'.vars = g.vars) (op : Operator) (c : Option BlockId) :
    ({ op with block := c } : Operator).step p g' s = op.step p g s := by
  have htype : g'.typeOf = g.typeOf := by
    funext e
    cases e <;> simp [typeOf, var, h]
  have heffect : ({ op with block := c } : Operator).effect p g' s = op.effect p g s := by
    unfold Operator.effect Operator.comparedKind
    simp only [htype]
    rfl
  unfold Operator.step
  rw [heffect]
  rfl

/-- From a reached block a run only goes on to reached blocks, and those kept their operators. -/
theorem runFrom_updateReachability (hlast : g.ControlLast) (fuel left : Nat) {block : Block}
    {pre ids : List OpId} (hr : g.Reaches b) (hb : g.block b = some block)
    (hops : block.ops = pre ++ ids) :
    g.updateReachability.2.runFrom p fuel left b ids s = g.runFrom p fuel left b ids s := by
  induction left generalizing b block pre ids s with
  | zero => cases ids <;> rfl
  | succ left ih =>
    cases ids with
    | nil => rfl
    | cons id ids =>
      obtain ⟨c, hc⟩ := op_updateReachability_eq (g := g) id
      simp only [runFrom]
      rw [hc]
      cases hop : g.op id with
      | none => rfl
      | some op =>
        simp only [Option.map_some]
        rw [step_of_vars_eq vars_updateReachability op (c op)]
        cases hstep : op.step p g s with
        | error cause => rfl
        | ok next =>
          obtain ⟨control, s'⟩ := next
          cases control with
          | done returned => rfl
          | next => exact ih hr hb (by rw [hops, List.append_cons])
          | goto t =>
            have ht : t ∈ op.targets := mem_targets_of_control (Operator.step_eq_ok.mp hstep).1
            have hend : block.last? = some id := by
              cases ids with
              | nil => simp [Block.last?, hops]
              | cons next rest =>
                have hmem : id ∈ block.ops.dropLast := by simp [hops]
                exact absurd (isControl_of_mem_targets ht) (by simp [hlast.isControl hb hmem hop])
            cases hblock : g.block t with
            | none => simp [block_updateReachability, hblock]
            | some target =>
              have hr' : g.Reaches t := hr.target hb hend hop ht (block_eq_some_lt hblock)
              have hblock' := block_of_reaches hr'
              rw [hblock, Option.map_some] at hblock'
              simp only [hblock']
              rw [hblock]
              exact ih hr' hblock (List.nil_append _).symm

theorem run_updateReachability (hlast : g.ControlLast) (p : Pool) (args : List Value) (heap : Heap)
    (fuel : Nat) : g.updateReachability.2.run p args heap fuel = g.run p args heap fuel := by
  have hblock := block_of_reaches (g := g) .entry
  unfold run arguments
  rw [vars_updateReachability, entry_updateReachability, hblock]
  split
  · rfl
  · cases hb : g.block g.entry with
    | none => rfl
    | some block => exact runFrom_updateReachability hlast fuel fuel .entry hb (List.nil_append _).symm

/-- The search for reachable blocks marks exactly the blocks of the least set that holds the entry
and is closed under the targets of terminators. Those keep their operators; the others lose
theirs and are counted if they had any, and nothing else changes. Doing it again does nothing. If
control leaves blocks at their ends only, every run ends as before, whether it returns or fails. -/
theorem updateReachability_exact {g g' : Graph} {emptied : Nat}
    (h : g.updateReachability = (emptied, g')) :
    (∀ (b : BlockId) (block : Block), g.block b = some block → ∃ block', g'.block b = some block' ∧
      (block'.reachable = true ↔ g.Reaches b) ∧ (g.Reaches b → block'.ops = block.ops) ∧
      (¬ g.Reaches b → block'.ops = [] ∧ ∀ id ∈ block.ops, g'.blockOf id = none)) ∧
    (∀ id, (∀ {b : BlockId} {block : Block}, g.block b = some block → id ∈ block.ops → g.Reaches b) →
      g'.op id = g.op id) ∧
    g'.vars = g.vars ∧ g'.entry = g.entry ∧ g'.blocks.size = g.blocks.size ∧
    emptied = (g.blockIds.countP fun b => g.holdsCode b && !g'.holdsCode b) ∧
    g'.version = (if emptied = 0 then g.version else g.version + 1) ∧
    g'.updateReachability = (0, g') ∧
    (g.ControlLast → ∀ (p : Pool) (args : List Value) (heap : Heap) (fuel : Nat),
      g'.run p args heap fuel = g.run p args heap fuel) := by
  obtain ⟨rfl, rfl⟩ : g.updateReachability.1 = emptied ∧ g.updateReachability.2 = g' := by simp [h]
  refine ⟨fun b block hb => ?_, fun id hid => ?_, vars_updateReachability,
    entry_updateReachability, size_blocks_updateReachability, fst_updateReachability, ?_,
    updateReachability_updateReachability, run_updateReachability⟩
  · by_cases hr : g.Reaches b
    · exact ⟨{ block with reachable := true }, by simp [block_of_reaches hr, hb], by simp [hr],
        fun _ => rfl, fun h => absurd hr h⟩
    · exact ⟨{ block with ops := [], reachable := false }, by simp [block_of_not_reaches hr, hb],
        by simp [hr], fun h => absurd h hr,
        fun _ => ⟨rfl, fun id hid => blockOf_of_not_reaches hr hb hid⟩⟩
  · rw [op_updateReachability, if_neg]
    intro hswept
    obtain ⟨b, hdead, hmem⟩ := List.mem_flatMap.mp hswept
    have hu := (List.mem_filter.mp hdead).1
    cases hb : g.block b with
    | none => simp [hb] at hmem
    | some block => exact (hid hb (by simpa [hb] using hmem)).notMem_unreached hu
  · rw [version_updateReachability]
    simp [updateReachability]

/-- A program with a loop that nothing enters. -/
def loopAside : Graph where
  name := "loopAside"
  vars := #[{ kind := .argument, type := ⟨0⟩ }]
  ops := #[{ kind := .branch ⟨3⟩ ⟨4⟩, args := [.var ⟨0⟩], block := some ⟨0⟩ },
    { kind := .jump ⟨2⟩, block := some ⟨1⟩ }, { kind := .nop, block := some ⟨2⟩ },
    { kind := .branch ⟨1⟩ ⟨4⟩, args := [.var ⟨0⟩], block := some ⟨2⟩ },
    { kind := .jump ⟨4⟩, block := some ⟨3⟩ }, { kind := .ret, block := some ⟨4⟩ }]
  blocks := #[{ ops := [⟨0⟩] }, { ops := [⟨1⟩] }, { ops := [⟨2⟩, ⟨3⟩] }, { ops := [⟨4⟩] },
    { ops := [⟨5⟩] }]

theorem loopAside_updateReachability : ∃ g', loopAside.updateReachability = (2, g') ∧
    g'.attached = [⟨0⟩, ⟨4⟩, ⟨5⟩] ∧ ¬ loopAside.Reaches ⟨2⟩ ∧ g'.blockOf ⟨3⟩ = none ∧
    g'.updateReachability = (0, g') ∧ ∀ (p : Pool) (args : List Value) (heap : Heap) (fuel : Nat),
      g'.run p args heap fuel = loopAside.run p args heap fuel := by
  have h : loopAside.updateReachability = (2, loopAside.updateReachability.2) := by decide +kernel
  obtain ⟨hblock, -, -, -, -, -, -, hagain, hrun⟩ := updateReachability_exact h
  obtain ⟨block', hblock', hmark, -, hempty⟩ :=
    hblock ⟨2⟩ { ops := [⟨2⟩, ⟨3⟩] } (by decide)
  have hunmarked : block'.reachable = false := by
    have hmap : (loopAside.updateReachability.2.block ⟨2⟩).map (·.reachable) = some false := by
      decide +kernel
    simpa [hblock'] using hmap
  have hr : ¬ loopAside.Reaches ⟨2⟩ := fun hr => by simp [hmark.mpr hr] at hunmarked
  exact ⟨_, h, by decide +kernel, hr, (hempty hr).2 ⟨3⟩ (by decide), hagain, hrun (by decide)⟩

end Graph
end ScalarLowering
