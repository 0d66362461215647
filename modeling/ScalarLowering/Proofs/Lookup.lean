import ScalarLowering.Edit.DeadVariables
import ScalarLowering.Shape.Reachability

/-! What the small steps of a change do to the tables of a graph. Every change to a graph is
made of them, so proofs about changes read these lemmas and never open the arrays. -/

namespace ScalarLowering

theorem BlockId.index_eq {b c : BlockId} : b.index = c.index ↔ b = c := BlockId.ext_iff.symm

theorem OpId.index_eq {i j : OpId} : i.index = j.index ↔ i = j := OpId.ext_iff.symm

namespace Graph

variable (g : Graph)

theorem op_eq_some_lt {g : Graph} {id : OpId} {op : Operator} (h : g.op id = some op) :
    id.index < g.ops.size := (Array.getElem?_eq_some_iff.mp h).1

theorem op_eq_none {g : Graph} {id : OpId} (h : g.ops.size ≤ id.index) : g.op id = none := by
  simpa [op] using h

theorem block_eq_some_lt {g : Graph} {b : BlockId} {block : Block} (h : g.block b = some block) :
    b.index < g.blocks.size := (Array.getElem?_eq_some_iff.mp h).1

theorem var_eq_some_lt {g : Graph} {v : VarId} {info : Variable} (h : g.var v = some info) :
    v.index < g.vars.size := (Array.getElem?_eq_some_iff.mp h).1

theorem exists_var {g : Graph} {v : VarId} (h : v.index < g.vars.size) : ∃ info, g.var v = some info :=
  ⟨_, Array.getElem?_eq_getElem h⟩

theorem exists_op {g : Graph} {id : OpId} (h : id.index < g.ops.size) : ∃ op, g.op id = some op :=
  ⟨_, Array.getElem?_eq_getElem h⟩

theorem exists_block {g : Graph} {b : BlockId} (h : b.index < g.blocks.size) :
    ∃ block, g.block b = some block :=
  ⟨_, Array.getElem?_eq_getElem h⟩

@[simp] theorem mem_blockIds {b : BlockId} : b ∈ g.blockIds ↔ b.index < g.blocks.size := by
  constructor
  · rintro h
    obtain ⟨i, hi, rfl⟩ := List.mem_map.mp h
    simpa using hi
  · intro h
    exact List.mem_map.mpr ⟨b.index, by simpa using h, rfl⟩

@[simp] theorem mem_varIds {v : VarId} : v ∈ g.varIds ↔ v.index < g.vars.size := by
  constructor
  · rintro h
    obtain ⟨i, hi, rfl⟩ := List.mem_map.mp h
    simpa using hi
  · intro h
    exact List.mem_map.mpr ⟨v.index, by simpa using h, rfl⟩

theorem mem_attached {g : Graph} {id : OpId} :
    id ∈ g.attached ↔ ∃ b block, g.block b = some block ∧ id ∈ block.ops := by
  simp only [attached, List.mem_flatMap, Array.mem_toList_iff]
  constructor
  · rintro ⟨block, hb, hid⟩
    obtain ⟨i, hi⟩ := Array.mem_iff_getElem?.mp hb
    exact ⟨⟨i⟩, block, hi, hid⟩
  · rintro ⟨b, block, hb, hid⟩
    exact ⟨block, Array.mem_of_getElem? hb, hid⟩

@[simp] theorem op_bump (id : OpId) : g.bump.op id = g.op id := rfl
@[simp] theorem var_bump (v : VarId) : g.bump.var v = g.var v := rfl
@[simp] theorem block_bump (b : BlockId) : g.bump.block b = g.block b := rfl
@[simp] theorem attached_bump : g.bump.attached = g.attached := rfl
@[simp] theorem ops_bump : g.bump.ops = g.ops := rfl
@[simp] theorem vars_bump : g.bump.vars = g.vars := rfl
@[simp] theorem blocks_bump : g.bump.blocks = g.blocks := rfl
@[simp] theorem entry_bump : g.bump.entry = g.entry := rfl
@[simp] theorem cache_bump : g.bump.cache = g.cache := rfl
@[simp] theorem version_bump : g.bump.version = g.version + 1 := rfl

@[simp] theorem op_touch (v : VarId) (id : OpId) : (g.touch v).op id = g.op id := rfl
@[simp] theorem var_touch (v w : VarId) : (g.touch v).var w = g.var w := rfl
@[simp] theorem block_touch (v : VarId) (b : BlockId) : (g.touch v).block b = g.block b := rfl
@[simp] theorem attached_touch (v : VarId) : (g.touch v).attached = g.attached := rfl
@[simp] theorem ops_touch (v : VarId) : (g.touch v).ops = g.ops := rfl
@[simp] theorem vars_touch (v : VarId) : (g.touch v).vars = g.vars := rfl
@[simp] theorem blocks_touch (v : VarId) : (g.touch v).blocks = g.blocks := rfl
@[simp] theorem entry_touch (v : VarId) : (g.touch v).entry = g.entry := rfl
@[simp] theorem version_touch (v : VarId) : (g.touch v).version = g.version := rfl

@[simp] theorem isTouched_touch (v w : VarId) :
    (g.touch v).isTouched w = (decide (w = v) || g.isTouched w) := by
  simp [isTouched, touch, ChainCache.touch, Bool.decide_or]

@[simp] theorem isTouched_bump (v : VarId) : g.bump.isTouched v = g.isTouched v := rfl

@[simp] theorem op_modifyOp (id j : OpId) (f : Operator → Operator) :
    (g.modifyOp id f).op j = if j = id then (g.op j).map f else g.op j := by
  simp only [op, modifyOp, Array.getElem?_modify, OpId.index_eq, eq_comm]

@[simp] theorem var_modifyOp (id : OpId) (f : Operator → Operator) (v : VarId) :
    (g.modifyOp id f).var v = g.var v := rfl
@[simp] theorem block_modifyOp (id : OpId) (f : Operator → Operator) (b : BlockId) :
    (g.modifyOp id f).block b = g.block b := rfl
@[simp] theorem attached_modifyOp (id : OpId) (f : Operator → Operator) :
    (g.modifyOp id f).attached = g.attached := rfl
@[simp] theorem size_ops_modifyOp (id : OpId) (f : Operator → Operator) :
    (g.modifyOp id f).ops.size = g.ops.size := by simp [modifyOp]
@[simp] theorem vars_modifyOp (id : OpId) (f : Operator → Operator) :
    (g.modifyOp id f).vars = g.vars := rfl
@[simp] theorem blocks_modifyOp (id : OpId) (f : Operator → Operator) :
    (g.modifyOp id f).blocks = g.blocks := rfl
@[simp] theorem entry_modifyOp (id : OpId) (f : Operator → Operator) :
    (g.modifyOp id f).entry = g.entry := rfl
@[simp] theorem cache_modifyOp (id : OpId) (f : Operator → Operator) :
    (g.modifyOp id f).cache = g.cache := rfl
@[simp] theorem version_modifyOp (id : OpId) (f : Operator → Operator) :
    (g.modifyOp id f).version = g.version := rfl
@[simp] theorem isTouched_modifyOp (id : OpId) (f : Operator → Operator) (v : VarId) :
    (g.modifyOp id f).isTouched v = g.isTouched v := rfl

@[simp] theorem block_modifyBlock (b c : BlockId) (f : List OpId → List OpId) :
    (g.modifyBlock b f).block c =
      if c = b then (g.block c).map fun block => { block with ops := f block.ops }
      else g.block c := by
  simp only [block, modifyBlock, Array.getElem?_modify, BlockId.index_eq, eq_comm]

@[simp] theorem op_modifyBlock (b : BlockId) (f : List OpId → List OpId) (id : OpId) :
    (g.modifyBlock b f).op id = g.op id := rfl
@[simp] theorem var_modifyBlock (b : BlockId) (f : List OpId → List OpId) (v : VarId) :
    (g.modifyBlock b f).var v = g.var v := rfl
@[simp] theorem ops_modifyBlock (b : BlockId) (f : List OpId → List OpId) :
    (g.modifyBlock b f).ops = g.ops := rfl
@[simp] theorem vars_modifyBlock (b : BlockId) (f : List OpId → List OpId) :
    (g.modifyBlock b f).vars = g.vars := rfl
@[simp] theorem size_blocks_modifyBlock (b : BlockId) (f : List OpId → List OpId) :
    (g.modifyBlock b f).blocks.size = g.blocks.size := by simp [modifyBlock]
@[simp] theorem entry_modifyBlock (b : BlockId) (f : List OpId → List OpId) :
    (g.modifyBlock b f).entry = g.entry := rfl
@[simp] theorem cache_modifyBlock (b : BlockId) (f : List OpId → List OpId) :
    (g.modifyBlock b f).cache = g.cache := rfl
@[simp] theorem version_modifyBlock (b : BlockId) (f : List OpId → List OpId) :
    (g.modifyBlock b f).version = g.version := rfl
@[simp] theorem isTouched_modifyBlock (b : BlockId) (f : List OpId → List OpId) (v : VarId) :
    (g.modifyBlock b f).isTouched v = g.isTouched v := rfl

@[simp] theorem foldl_touch (vs : List VarId) :
    vs.foldl touch g = { g with cache := vs.foldl ChainCache.touch g.cache } := by
  induction vs generalizing g with
  | nil => rfl
  | cons v vs ih => simp [ih, touch]

theorem mem_foldl_touch (vs : List VarId) (c : ChainCache) (w : VarId) :
    w ∈ (vs.foldl ChainCache.touch c).touched ↔ w ∈ vs ∨ w ∈ c.touched := by
  induction vs generalizing c with
  | nil => simp
  | cons v vs ih => simp [ih, ChainCache.touch, or_assoc, or_left_comm]

theorem foldl_touch_cache (vs : List VarId) (c : ChainCache) :
    vs.foldl ChainCache.touch c = { c with touched := (vs.foldl ChainCache.touch c).touched } := by
  induction vs generalizing c with
  | nil => rfl
  | cons v vs ih => exact ih (c.touch v)

variable (op : Operator) (b : BlockId)

@[simp] theorem pushOp_fst : (g.pushOp op b).1 = ⟨g.ops.size⟩ := by simp [pushOp]

@[simp] theorem op_pushOp (id : OpId) : (g.pushOp op b).2.op id =
    if id.index = g.ops.size then some { op with block := some b } else g.op id := by
  simp [pushOp, Graph.op, Array.getElem?_push]

@[simp] theorem var_pushOp (v : VarId) : (g.pushOp op b).2.var v = g.var v := by
  simp [pushOp, var]
@[simp] theorem block_pushOp (c : BlockId) : (g.pushOp op b).2.block c = g.block c := by
  simp [pushOp, block]
@[simp] theorem attached_pushOp : (g.pushOp op b).2.attached = g.attached := by
  simp [pushOp, attached]
@[simp] theorem size_ops_pushOp : (g.pushOp op b).2.ops.size = g.ops.size + 1 := by
  simp [pushOp]
@[simp] theorem vars_pushOp : (g.pushOp op b).2.vars = g.vars := by simp [pushOp]
@[simp] theorem blocks_pushOp : (g.pushOp op b).2.blocks = g.blocks := by simp [pushOp]
@[simp] theorem entry_pushOp : (g.pushOp op b).2.entry = g.entry := by simp [pushOp]
@[simp] theorem version_pushOp : (g.pushOp op b).2.version = g.version := by simp [pushOp]
theorem cache_pushOp : (g.pushOp op b).2.cache =
    { g.cache with touched := (g.pushOp op b).2.cache.touched } := by
  simpa [pushOp] using foldl_touch_cache op.mentions g.cache

@[simp] theorem isTouched_pushOp (v : VarId) :
    (g.pushOp op b).2.isTouched v = (decide (v ∈ op.mentions) || g.isTouched v) := by
  simp [pushOp, isTouched, mem_foldl_touch, ← Bool.decide_or, List.contains_eq_mem]

variable (kind : VarKind) (t : TypeId)

@[simp] theorem addVar_fst : (g.addVar kind t).1 = ⟨g.vars.size⟩ := rfl

@[simp] theorem var_addVar (v : VarId) : (g.addVar kind t).2.var v =
    if v.index = g.vars.size then some { kind, type := t } else g.var v := by
  simp [addVar, var, Array.getElem?_push]

@[simp] theorem op_addVar (id : OpId) : (g.addVar kind t).2.op id = g.op id := rfl
@[simp] theorem block_addVar (c : BlockId) : (g.addVar kind t).2.block c = g.block c := rfl
@[simp] theorem attached_addVar : (g.addVar kind t).2.attached = g.attached := rfl
@[simp] theorem ops_addVar : (g.addVar kind t).2.ops = g.ops := rfl
@[simp] theorem blocks_addVar : (g.addVar kind t).2.blocks = g.blocks := rfl
@[simp] theorem entry_addVar : (g.addVar kind t).2.entry = g.entry := rfl
@[simp] theorem cache_addVar : (g.addVar kind t).2.cache = g.cache := rfl
@[simp] theorem version_addVar : (g.addVar kind t).2.version = g.version + 1 := rfl
@[simp] theorem size_vars_addVar : (g.addVar kind t).2.vars.size = g.vars.size + 1 := by
  simp [addVar]
@[simp] theorem isTouched_addVar (v : VarId) :
    (g.addVar kind t).2.isTouched v = g.isTouched v := rfl

@[simp] theorem block_addBlock (c : BlockId) : g.addBlock.2.block c =
    if c.index = g.blocks.size then some {} else g.block c := by
  simp [addBlock, block, Array.getElem?_push]

@[simp] theorem op_addBlock (id : OpId) : g.addBlock.2.op id = g.op id := rfl
@[simp] theorem var_addBlock (v : VarId) : g.addBlock.2.var v = g.var v := rfl
@[simp] theorem ops_addBlock : g.addBlock.2.ops = g.ops := rfl
@[simp] theorem vars_addBlock : g.addBlock.2.vars = g.vars := rfl
@[simp] theorem attached_addBlock : g.addBlock.2.attached = g.attached := by
  simp [addBlock, attached]
@[simp] theorem cache_addBlock : g.addBlock.2.cache = g.cache := rfl
@[simp] theorem version_addBlock : g.addBlock.2.version = g.version + 1 := rfl
@[simp] theorem isTouched_addBlock (v : VarId) : g.addBlock.2.isTouched v = g.isTouched v := rfl

end Graph
end ScalarLowering
