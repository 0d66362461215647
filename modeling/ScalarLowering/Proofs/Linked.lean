import Mathlib.Data.List.Nodup
import ScalarLowering.Proofs.Edits
import ScalarLowering.Proofs.Lookup

/-! Membership: an operator records the block that lists it, and is listed there once. An
edit puts a short list of operators for one operator of a block; all of them keep the two
sides in step. -/

namespace ScalarLowering

def splice (old : OpId) (ids : List OpId) (id : OpId) : List OpId :=
  if id = old then ids else [id]

@[simp] theorem splice_self (old : OpId) (ids : List OpId) : splice old ids old = ids :=
  if_pos rfl

theorem splice_of_ne {old id : OpId} (ids : List OpId) (h : id ≠ old) :
    splice old ids id = [id] := if_neg h

theorem splice_singleton_ne_nil (old new id : OpId) : splice old [new] id ≠ [] := by
  unfold splice
  split <;> simp

theorem mem_splice {old id j : OpId} {ids : List OpId} :
    j ∈ splice old ids id ↔ (id = old ∧ j ∈ ids) ∨ (id ≠ old ∧ j = id) := by
  by_cases h : id = old <;> simp [splice, h]

theorem flatMap_splice_of_notMem {old : OpId} {l : List OpId} (ids : List OpId) (h : old ∉ l) :
    l.flatMap (splice old ids) = l := by
  induction l with
  | nil => rfl
  | cons id l ih =>
    simp only [List.mem_cons, not_or] at h
    rw [List.flatMap_cons, splice_of_ne ids (Ne.symm h.1), ih h.2, List.singleton_append]

theorem mem_flatMap_splice {old j : OpId} {ids l : List OpId} :
    j ∈ l.flatMap (splice old ids) ↔ (old ∈ l ∧ j ∈ ids) ∨ (j ≠ old ∧ j ∈ l) := by
  simp only [List.mem_flatMap, mem_splice]
  constructor
  · rintro ⟨id, hid, ⟨rfl, hj⟩ | ⟨hne, rfl⟩⟩
    · exact .inl ⟨hid, hj⟩
    · exact .inr ⟨hne, hid⟩
  · rintro (⟨hold, hj⟩ | ⟨hne, hj⟩)
    · exact ⟨old, hold, .inl ⟨rfl, hj⟩⟩
    · exact ⟨j, hj, .inr ⟨hne, rfl⟩⟩

theorem exists_split_of_idxOf? {l : List OpId} {id : OpId} {i : Nat} (h : l.idxOf? id = some i) :
    ∃ before rest, l = before ++ id :: rest ∧ before.length = i ∧ id ∉ before := by
  obtain ⟨hlt, hid, hfirst⟩ := List.idxOf?_eq_some_iff.mp h
  refine ⟨l.take i, l.drop (i + 1), ?_, by simp; omega, ?_⟩
  · rw [← hid, List.getElem_cons_drop, List.take_append_drop]
  · intro hmem
    obtain ⟨j, hj, hji⟩ := List.getElem_of_mem hmem
    simp only [List.length_take, List.getElem_take] at hj hji
    exact hfirst j (by omega) hji

section

variable {l : List OpId} {old new : OpId} {i : Nat}

theorem flatMap_splice_split {before rest : List OpId} (ids : List OpId)
    (hl : (before ++ old :: rest).Nodup) :
    (before ++ old :: rest).flatMap (splice old ids) = before ++ ids ++ rest := by
  have hb : old ∉ before := by
    intro h
    exact (List.nodup_append.mp hl).2.2 old h old (by simp) rfl
  have hr : old ∉ rest := (List.nodup_cons.mp (List.nodup_append.mp hl).2.1).1
  simp [flatMap_splice_of_notMem ids hb, flatMap_splice_of_notMem ids hr]

theorem set_eq_splice (hl : l.Nodup) (h : l.idxOf? old = some i) :
    l.set i new = l.flatMap (splice old [new]) := by
  obtain ⟨before, rest, rfl, rfl, -⟩ := exists_split_of_idxOf? h
  rw [flatMap_splice_split _ hl]
  simp

theorem insertIdx_length_append (before rest : List OpId) (new : OpId) :
    (before ++ rest).insertIdx before.length new = before ++ new :: rest := by
  induction before with
  | nil => simp
  | cons id before ih => simp [ih]

theorem insertIdx_eq_splice (hl : l.Nodup) (h : l.idxOf? old = some i) :
    l.insertIdx i new = l.flatMap (splice old [new, old]) := by
  obtain ⟨before, rest, rfl, rfl, -⟩ := exists_split_of_idxOf? h
  rw [flatMap_splice_split _ hl, insertIdx_length_append]
  simp

theorem eraseIdx_eq_splice (hl : l.Nodup) (h : l.idxOf? old = some i) :
    l.eraseIdx i = l.flatMap (splice old []) := by
  obtain ⟨before, rest, rfl, rfl, -⟩ := exists_split_of_idxOf? h
  rw [flatMap_splice_split _ hl, List.eraseIdx_append_of_length_le (Nat.le_refl _)]
  simp

theorem nodup_flatMap_splice {ids : List OpId} (hl : l.Nodup) (hids : ids.Nodup)
    (hnew : ∀ id ∈ ids, id = old ∨ id ∉ l) : (l.flatMap (splice old ids)).Nodup := by
  by_cases hold : old ∈ l
  · obtain ⟨before, rest, rfl⟩ := List.append_of_mem hold
    rw [flatMap_splice_split _ hl]
    grind
  · rwa [flatMap_splice_of_notMem ids hold]

end

namespace Graph

def blockOf (g : Graph) (id : OpId) : Option BlockId := (g.op id).bind (·.block)

theorem blockOf_eq_some {g : Graph} {id : OpId} {b : BlockId} :
    g.blockOf id = some b ↔ ∃ op, g.op id = some op ∧ op.block = some b :=
  Option.bind_eq_some_iff

theorem isAttached_eq_isSome (g : Graph) (id : OpId) : g.isAttached id = (g.blockOf id).isSome := by
  unfold isAttached blockOf Operator.isAttached
  cases g.op id <;> rfl

theorem isAttached_iff {g : Graph} {id : OpId} : g.isAttached id ↔ ∃ b, g.blockOf id = some b := by
  rw [isAttached_eq_isSome, Option.isSome_iff_exists]

theorem blockOf_lt {g : Graph} {id : OpId} {b : BlockId} (h : g.blockOf id = some b) :
    id.index < g.ops.size := by
  obtain ⟨op, hop, -⟩ := blockOf_eq_some.mp h
  exact op_eq_some_lt hop

/-- The blocks list exactly the operators that record them, each once. -/
structure Linked (g : Graph) : Prop where
  listed : ∀ {b : BlockId} {block : Block} {id : OpId}, g.block b = some block →
    (id ∈ block.ops ↔ g.blockOf id = some b)
  known : ∀ {id : OpId} {b : BlockId}, g.blockOf id = some b → ∃ block, g.block b = some block
  nodup : ∀ {b : BlockId} {block : Block}, g.block b = some block → block.ops.Nodup

namespace Linked

variable {g g' : Graph}

theorem mem_attached (hg : g.Linked) {id : OpId} : id ∈ g.attached ↔ g.isAttached id := by
  rw [Graph.mem_attached, isAttached_iff]
  constructor
  · rintro ⟨b, block, hb, hid⟩
    exact ⟨b, (hg.listed hb).mp hid⟩
  · rintro ⟨b, hid⟩
    obtain ⟨block, hb⟩ := hg.known hid
    exact ⟨b, block, hb, (hg.listed hb).mpr hid⟩

theorem exists_op_of_mem (hg : g.Linked) {id : OpId} (h : id ∈ g.attached) :
    ∃ op b, g.op id = some op ∧ op.block = some b := by
  obtain ⟨b, hb⟩ := isAttached_iff.mp (hg.mem_attached.mp h)
  obtain ⟨op, hop, hblock⟩ := blockOf_eq_some.mp hb
  exact ⟨op, b, hop, hblock⟩

theorem lt_of_mem (hg : g.Linked) {id : OpId} (h : id ∈ g.attached) : id.index < g.ops.size := by
  obtain ⟨op, -, hop, -⟩ := hg.exists_op_of_mem h
  exact op_eq_some_lt hop

theorem nodup_attached (hg : g.Linked) : g.attached.Nodup := by
  have hblock : ∀ {i : Nat} (h : i < g.blocks.size), g.block ⟨i⟩ = some g.blocks[i] :=
    fun h => Array.getElem?_eq_getElem h
  refine List.nodup_flatMap.mpr ⟨?_, ?_⟩
  · intro block h
    obtain ⟨i, hi, rfl⟩ := List.getElem_of_mem h
    exact hg.nodup (hblock (by simpa using hi))
  · refine List.pairwise_iff_getElem.mpr fun i j hi hj hij id hid hid' => ?_
    simp only [Array.length_toList, Array.getElem_toList] at hi hj hid hid'
    have h₁ := (hg.listed (hblock hi)).mp hid
    have h₂ := (hg.listed (hblock hj)).mp hid'
    rw [h₁] at h₂
    simp only [Option.some.injEq, BlockId.mk.injEq] at h₂
    omega

end Linked

variable {g : Graph} {id : OpId} {place : Place}

theorem placeOf_eq_ok : g.placeOf id = .ok place ↔ g.blockOf id = some place.block ∧
    ∃ block, g.block place.block = some block ∧ block.ops.idxOf? id = some place.index := by
  simp only [placeOf, Except.bind_eq_ok, Error.lift_eq_ok, blockOf_eq_some]
  constructor
  · rintro ⟨op, hop, h⟩
    split at h
    · simp at h
    · rename_i b hb
      obtain ⟨block, hblock, h⟩ := Except.bind_eq_ok.mp h
      simp only [Error.lift_eq_ok] at hblock
      split at h
      · rename_i i hi
        obtain rfl := Except.pure_eq_ok.mp h
        exact ⟨⟨op, hop, hb⟩, block, hblock, hi⟩
      · simp at h
  · rintro ⟨⟨op, hop, hb⟩, block, hblock, hi⟩
    refine ⟨op, hop, ?_⟩
    simp [hb, Except.bind_eq_ok, hblock, hi]

theorem lt_of_placeOf (h : g.placeOf id = .ok place) : id.index < g.ops.size :=
  blockOf_lt (placeOf_eq_ok.mp h).1

theorem Linked.exists_placeOf (hg : g.Linked) (h : g.isAttached id) :
    ∃ place, g.placeOf id = .ok place := by
  obtain ⟨b, hb⟩ := isAttached_iff.mp h
  obtain ⟨block, hblock⟩ := hg.known hb
  have hid : (block.ops.idxOf? id).isSome := by
    rw [List.isSome_idxOf?]
    exact (hg.listed hblock).mpr hb
  obtain ⟨i, hi⟩ := Option.isSome_iff_exists.mp hid
  exact ⟨⟨b, i⟩, placeOf_eq_ok.mpr ⟨hb, block, hblock, hi⟩⟩

theorem Linked.placeOf_eq_error (hg : g.Linked) {e : Error} (h : g.placeOf id = .error e) :
    g.op id = none ∧ e = .dangling ∨ g.isAttached id = false ∧ e = .graph (.detached id) := by
  cases hop : g.op id with
  | none =>
    rw [placeOf, hop] at h
    exact .inl ⟨rfl, (Except.error.inj h).symm⟩
  | some op =>
    cases hb : op.block with
    | none =>
      have hplace : g.placeOf id = .error (.graph (.detached id)) := by
        simp only [placeOf, hop, Error.lift_some_bind, hb]
        rfl
      rw [hplace] at h
      exact .inr ⟨by simp [isAttached, hop, Operator.isAttached, hb], (Except.error.inj h).symm⟩
    | some b =>
      have hattached : g.isAttached id := by simp [isAttached, hop, Operator.isAttached, hb]
      obtain ⟨place, hplace⟩ := hg.exists_placeOf hattached
      rw [hplace] at h
      cases h

theorem isAttached_of_placeOf (h : g.placeOf id = .ok place) : g.isAttached id :=
  isAttached_iff.mpr ⟨place.block, (placeOf_eq_ok.mp h).1⟩

variable (new : Operator)

theorem op_replaceAt {old : OpId} (h : old.index < g.ops.size) (id : OpId) :
    (g.replaceAt place old new).2.op id =
      if id.index = g.ops.size then some { new with block := some place.block }
      else if id = old then (g.op id).map ({ · with block := none }) else g.op id := by
  by_cases hid : id.index = g.ops.size
  · have hne : id ≠ old := by
      rintro rfl
      omega
    simp [replaceAt, detach, hid, hne]
  · simp [replaceAt, detach, hid]

theorem op_insertAt (id : OpId) : (g.insertAt place new).2.op id =
    if id.index = g.ops.size then some { new with block := some place.block } else g.op id := by
  simp [insertAt]

theorem op_eraseAt (old id : OpId) : (g.eraseAt place old).op id =
    if id = old then (g.op id).map ({ · with block := none, position := none }) else g.op id := by
  by_cases hid : id = old
  · simp [eraseAt, detach, clearPosition, hid, Function.comp_def]
  · simp [eraseAt, detach, clearPosition, hid]

theorem op_redirectAt (v : VarId) (e : Expr) (target id : OpId) :
    (g.redirectAt target v e).op id =
      if id = target then (g.op id).map (·.substitute v e) else g.op id := by
  cases e <;> simp [redirectAt, Expr.var?]

theorem op_clearPosition (target id : OpId) : (g.clearPosition target).op id =
    if id = target then (g.op id).map ({ · with position := none }) else g.op id := by
  simp [clearPosition]

@[simp] theorem blockOf_redirectAt (v : VarId) (e : Expr) (target id : OpId) :
    (g.redirectAt target v e).blockOf id = g.blockOf id := by
  rw [blockOf, op_redirectAt]
  split
  · exact Option.bind_map ..
  · rfl

@[simp] theorem blockOf_clearPosition (target id : OpId) :
    (g.clearPosition target).blockOf id = g.blockOf id := by
  rw [blockOf, op_clearPosition]
  split
  · exact Option.bind_map ..
  · rfl

theorem placeOf_clearPosition (target : OpId) (h : g.placeOf id = .ok place) :
    (g.clearPosition target).placeOf id = .ok place := by
  rw [placeOf_eq_ok] at h ⊢
  rw [blockOf_clearPosition]
  exact h

/-- Changing the list of the block that lists an operator is a splice of all blocks. -/
theorem Linked.block_modifyBlock {old : OpId} {ids : List OpId} {f : List OpId → List OpId}
    (hg : g.Linked) (hp : g.placeOf old = .ok place)
    (hf : ∀ l : List OpId, l.Nodup → l.idxOf? old = some place.index →
      f l = l.flatMap (splice old ids)) (b : BlockId) :
    (g.modifyBlock place.block f).block b =
      (g.block b).map fun block => { block with ops := block.ops.flatMap (splice old ids) } := by
  obtain ⟨hold, block, hblock, hi⟩ := placeOf_eq_ok.mp hp
  rw [Graph.block_modifyBlock]
  split
  · rename_i hb
    subst hb
    rw [hblock, Option.map_some, Option.map_some, hf _ (hg.nodup hblock) hi]
  · rename_i hb
    cases hc : g.block b with
    | none => rfl
    | some other =>
      have hnot : old ∉ other.ops := by
        intro hmem
        rw [hg.listed hc, hold] at hmem
        exact hb (Option.some.inj hmem).symm
      simp [flatMap_splice_of_notMem ids hnot]

section

variable {old : OpId} (hg : g.Linked) (hp : g.placeOf old = .ok place)
include hg hp

theorem Linked.block_replaceAt (b : BlockId) :
    (g.replaceAt place old new).2.block b = (g.block b).map fun block =>
      { block with ops := block.ops.flatMap (splice old [⟨g.ops.size⟩]) } := by
  rw [← hg.block_modifyBlock hp (fun l hl hi => set_eq_splice hl hi)]
  simp [replaceAt, detach]

theorem Linked.block_insertAt (b : BlockId) :
    (g.insertAt place new).2.block b = (g.block b).map fun block =>
      { block with ops := block.ops.flatMap (splice old [⟨g.ops.size⟩, old]) } := by
  rw [← hg.block_modifyBlock hp (fun l hl hi => insertIdx_eq_splice hl hi)]
  simp [insertAt]

theorem Linked.block_eraseAt (b : BlockId) :
    (g.eraseAt place old).block b = (g.block b).map fun block =>
      { block with ops := block.ops.flatMap (splice old []) } := by
  rw [← hg.block_modifyBlock hp (fun l hl hi => eraseIdx_eq_splice hl hi)]
  simp [eraseAt, detach, clearPosition]

end

theorem Linked.of_splice {g' : Graph} {old : OpId} {ids : List OpId} {b : BlockId} (hg : g.Linked)
    (hblocks : ∀ c, g'.block c = (g.block c).map fun block =>
      { block with ops := block.ops.flatMap (splice old ids) })
    (hold : g.blockOf old = some b) (hids : ids.Nodup)
    (hnew : ∀ id ∈ ids, id = old ∨ g.ops.size ≤ id.index)
    (hof : ∀ id, g'.blockOf id =
      if id ∈ ids then some b else if id = old then none else g.blockOf id) : g'.Linked := by
  have hfresh : ∀ {c block id}, g.block c = some block → id ∈ ids → id = old ∨ id ∉ block.ops := by
    intro c block id hc hid
    rcases hnew id hid with h | h
    · exact .inl h
    · right
      intro hmem
      have := blockOf_lt ((hg.listed hc).mp hmem)
      omega
  constructor
  · intro c block id hc
    obtain ⟨block, hc', rfl⟩ := Option.map_eq_some_iff.mp (hblocks c ▸ hc)
    simp only [mem_flatMap_splice, hg.listed hc', hof, hold]
    by_cases hid : id ∈ ids
    · have := hfresh hc' hid
      rw [hg.listed hc'] at this
      grind
    · grind
  · intro id c hid
    rw [hof] at hid
    have hc : ∃ block, g.block c = some block := by
      split at hid
      · cases hid
        exact hg.known hold
      · split at hid
        · cases hid
        · exact hg.known hid
    obtain ⟨block, hc⟩ := hc
    exact ⟨_, by rw [hblocks, hc]; rfl⟩
  · intro c block hc
    obtain ⟨block, hc', rfl⟩ := Option.map_eq_some_iff.mp (hblocks c ▸ hc)
    exact nodup_flatMap_splice (hg.nodup hc') hids fun id hid => hfresh hc' hid

/-- A change that moves no operator keeps the invariant. -/
theorem Linked.of_blocks_eq {g' : Graph} (hg : g.Linked)
    (hblocks : ∀ c, (g'.block c).map (·.ops) = (g.block c).map (·.ops))
    (hof : ∀ id, g'.blockOf id = g.blockOf id) : g'.Linked := by
  have hback : ∀ {c block}, g'.block c = some block →
      ∃ block', g.block c = some block' ∧ block'.ops = block.ops := by
    intro c block hc
    have := hblocks c
    rw [hc] at this
    exact Option.map_eq_some_iff.mp this.symm
  constructor
  · intro c block id hc
    obtain ⟨block', hc', hops⟩ := hback hc
    rw [← hops, hg.listed hc', hof]
  · intro id c hid
    obtain ⟨block, hc⟩ := hg.known (hof id ▸ hid)
    have := hblocks c
    rw [hc] at this
    obtain ⟨block', hc', -⟩ := Option.map_eq_some_iff.mp this
    exact ⟨block', hc'⟩
  · intro c block hc
    obtain ⟨block', hc', hops⟩ := hback hc
    exact hops ▸ hg.nodup hc'

section

variable {old : OpId} (hg : g.Linked) (hp : g.placeOf old = .ok place)
include hg hp

theorem Linked.replaceAt : (g.replaceAt place old new).2.Linked := by
  have hlt := lt_of_placeOf hp
  refine hg.of_splice (hg.block_replaceAt new hp) (placeOf_eq_ok.mp hp).1 (by simp) (by simp) ?_
  intro id
  simp only [blockOf, op_replaceAt new hlt, List.mem_singleton, ← OpId.index_eq]
  split
  · simp
  · split
    · simp
    · rfl

theorem Linked.insertAt : (g.insertAt place new).2.Linked := by
  have hlt := lt_of_placeOf hp
  have hold := (placeOf_eq_ok.mp hp).1
  have hne : (⟨g.ops.size⟩ : OpId) ≠ old := by
    rintro rfl
    simp at hlt
  refine hg.of_splice (hg.block_insertAt new hp) hold (by simp [hne]) (by simp) ?_
  intro id
  simp only [blockOf, op_insertAt, List.mem_cons, List.not_mem_nil, or_false]
  by_cases h : id.index = g.ops.size
  · simp [h, ← OpId.index_eq]
  · by_cases hid : id = old
    · subst hid
      simpa [h, blockOf] using hold
    · simp [h, hid, ← OpId.index_eq]

theorem Linked.eraseAt : (g.eraseAt place old).Linked := by
  refine hg.of_splice (hg.block_eraseAt hp) (placeOf_eq_ok.mp hp).1 (by simp) (by simp) ?_
  intro id
  simp only [blockOf, op_eraseAt, List.not_mem_nil, if_false]
  split
  · simp
  · rfl

end

theorem Linked.redirectAt (hg : g.Linked) (target : OpId) (v : VarId) (e : Expr) :
    (g.redirectAt target v e).Linked := by
  refine hg.of_blocks_eq (fun c => ?_) fun id => blockOf_redirectAt v e target id
  cases e <;> simp [Graph.redirectAt, Expr.var?]

theorem Linked.clearPosition (hg : g.Linked) (target : OpId) : (g.clearPosition target).Linked :=
  hg.of_blocks_eq (fun c => by simp [Graph.clearPosition]) fun id => blockOf_clearPosition target id

theorem Linked.stripResult (hg : g.Linked) (target : OpId) (v : VarId) :
    (g.stripResult target v).Linked := by
  refine hg.of_blocks_eq (fun c => by simp [Graph.stripResult]) fun id => ?_
  simp only [blockOf, Graph.stripResult, op_bump, op_modifyOp]
  split
  · exact Option.bind_map ..
  · rfl

theorem Linked.addVar (hg : g.Linked) (kind : VarKind) (t : TypeId) : (g.addVar kind t).2.Linked :=
  hg.of_blocks_eq (fun _ => rfl) fun _ => rfl

theorem Linked.addBlock (hg : g.Linked) : g.addBlock.2.Linked := by
  have hof : ∀ id, g.addBlock.2.blockOf id = g.blockOf id := fun _ => rfl
  constructor
  · intro c block id hc
    rw [block_addBlock] at hc
    split at hc
    · rename_i hsize
      cases hc
      have hnone : g.blockOf id ≠ some c := by
        intro hid
        obtain ⟨block, hblock⟩ := hg.known hid
        have := block_eq_some_lt hblock
        omega
      simpa [hof] using hnone
    · exact hg.listed hc
  · intro id c hid
    obtain ⟨block, hblock⟩ := hg.known hid
    have := block_eq_some_lt hblock
    exact ⟨block, by rw [block_addBlock, if_neg (by omega), hblock]⟩
  · intro c block hc
    rw [block_addBlock] at hc
    split at hc
    · cases hc
      exact List.nodup_nil
    · exact hg.nodup hc

theorem append_eq_some {op : Operator} {b : BlockId} {g' : Graph} :
    g.append b op = some (id, g') ↔ (∃ block, g.block b = some block) ∧ id = ⟨g.ops.size⟩ ∧
      g' = ((g.pushOp op b).2.modifyBlock b (· ++ [⟨g.ops.size⟩])).bump := by
  unfold append
  cases g.block b with
  | none => simp
  | some block => simp [Prod.ext_iff, eq_comm]

theorem op_append {op : Operator} {b : BlockId} {g' : Graph} {i : OpId}
    (h : g.append b op = some (i, g')) (id : OpId) : g'.op id =
      if id.index = g.ops.size then some { op with block := some b } else g.op id := by
  obtain ⟨-, -, rfl⟩ := append_eq_some.mp h
  simp

theorem block_append {op : Operator} {b : BlockId} {g' : Graph} {i : OpId}
    (h : g.append b op = some (i, g')) (c : BlockId) : g'.block c =
      if c = b then (g.block c).map fun block => { block with ops := block.ops ++ [⟨g.ops.size⟩] }
      else g.block c := by
  obtain ⟨-, -, rfl⟩ := append_eq_some.mp h
  simp

theorem Linked.append {op : Operator} {b : BlockId} {g' : Graph} {i : OpId} (hg : g.Linked)
    (h : g.append b op = some (i, g')) : g'.Linked := by
  obtain ⟨block, hblock⟩ := (append_eq_some.mp h).1
  have hof : ∀ id, g'.blockOf id =
      if id.index = g.ops.size then some b else g.blockOf id := by
    intro id
    rw [blockOf, op_append h]
    split
    · rfl
    · rfl
  have hfresh : g.blockOf ⟨g.ops.size⟩ = none := by
    simp [blockOf, op_eq_none]
  constructor
  · intro c block id hc
    rw [block_append h] at hc
    rw [hof]
    split at hc
    · rename_i hcb
      subst hcb
      obtain ⟨block, hc', rfl⟩ := Option.map_eq_some_iff.mp hc
      simp only [List.mem_append, hg.listed hc', List.mem_singleton]
      by_cases hid : id.index = g.ops.size
      · simp [hid, ← OpId.index_eq]
      · simp [hid, ← OpId.index_eq]
    · rename_i hcb
      rw [hg.listed hc]
      by_cases hid : id.index = g.ops.size
      · have hid' : id = ⟨g.ops.size⟩ := OpId.ext hid
        simp [hid', hfresh, Ne.symm hcb]
      · simp [hid]
  · intro id c hid
    have hc : ∃ block, g.block c = some block := by
      rw [hof] at hid
      split at hid
      · cases hid
        exact ⟨block, hblock⟩
      · exact hg.known hid
    obtain ⟨block, hc⟩ := hc
    rw [block_append h, hc]
    split
    · exact ⟨_, rfl⟩
    · exact ⟨_, rfl⟩
  · intro c block hc
    rw [block_append h] at hc
    split at hc
    · obtain ⟨block, hc', rfl⟩ := Option.map_eq_some_iff.mp hc
      refine List.nodup_append.mpr ⟨hg.nodup hc', by simp, ?_⟩
      rintro id hid _ hj rfl
      obtain rfl := List.mem_singleton.mp hj
      rw [hg.listed hc', hfresh] at hid
      cases hid
    · exact hg.nodup hc

theorem mem_of_mem_explore {unseen work : List BlockId} {b : BlockId}
    (h : b ∈ g.explore unseen work) : b ∈ unseen := by
  fun_induction explore g unseen work with
  | case1 => exact h
  | case2 unseen c work hc ih => exact List.mem_of_mem_erase (ih h)
  | case3 unseen c work hc ih => exact ih h

def swept (g : Graph) : List OpId := g.deadBlocks.flatMap fun b => (g.block b).elim [] (·.ops)

theorem Linked.mem_swept (hg : g.Linked) :
    id ∈ g.swept ↔ ∃ b ∈ g.unreached, g.blockOf id = some b := by
  simp only [swept, List.mem_flatMap, deadBlocks, List.mem_filter]
  constructor
  · rintro ⟨b, ⟨hb, hsome⟩, hid⟩
    cases hblock : g.block b with
    | none => simp [hblock] at hsome
    | some block =>
      rw [hblock] at hid
      exact ⟨b, hb, (hg.listed hblock).mp hid⟩
  · rintro ⟨b, hb, hid⟩
    obtain ⟨block, hblock⟩ := hg.known hid
    have hmem := (hg.listed hblock).mpr hid
    refine ⟨b, ⟨hb, ?_⟩, by simpa [hblock] using hmem⟩
    simpa [hblock] using List.ne_nil_of_mem hmem

theorem getElem?_foldl_detach (ids : List OpId) (ops : Array Operator) (id : OpId) :
    (ids.foldl (fun ops id => ops.modify id.index ({ · with block := none })) ops)[id.index]? =
      if id ∈ ids then ops[id.index]?.map ({ · with block := none }) else ops[id.index]? := by
  induction ids generalizing ops with
  | nil => simp
  | cons j ids ih =>
    rw [List.foldl_cons, ih, Array.getElem?_modify]
    by_cases hj : j = id
    · subst hj
      by_cases hmem : j ∈ ids
      · simp [hmem, Function.comp_def]
      · simp [hmem]
    · have hidx : j.index ≠ id.index := fun h => hj (OpId.ext h)
      simp [hidx, Ne.symm hj]

theorem op_updateReachability (id : OpId) : g.updateReachability.2.op id =
    if id ∈ g.swept then (g.op id).map ({ · with block := none }) else g.op id := by
  have h := getElem?_foldl_detach g.swept g.ops id
  simp only [updateReachability]
  split
  · exact h
  · exact h

theorem block_updateReachability (b : BlockId) : g.updateReachability.2.block b =
    (g.block b).map fun block => if b ∈ g.unreached then { block with ops := [], reachable := false }
      else { block with reachable := true } := by
  have h : (g.blocks.mapIdx fun i block => if ⟨i⟩ ∈ g.unreached then
      ({ block with ops := [], reachable := false } : Block)
      else { block with reachable := true })[b.index]? = (g.block b).map fun block =>
        if b ∈ g.unreached then { block with ops := [], reachable := false }
        else { block with reachable := true } := by
    rw [Array.getElem?_mapIdx]
    rfl
  simp only [updateReachability]
  split
  · exact h
  · exact h

@[simp] theorem vars_updateReachability : g.updateReachability.2.vars = g.vars := by
  unfold updateReachability
  dsimp only
  split <;> rfl

@[simp] theorem entry_updateReachability : g.updateReachability.2.entry = g.entry := by
  unfold updateReachability
  dsimp only
  split <;> rfl

@[simp] theorem cache_updateReachability : g.updateReachability.2.cache = g.cache := by
  unfold updateReachability
  dsimp only
  split <;> rfl

@[simp] theorem size_ops_updateReachability : g.updateReachability.2.ops.size = g.ops.size := by
  have hfold : ∀ (ids : List OpId) (ops : Array Operator), (ids.foldl (fun ops id =>
      ops.modify id.index fun op => ({ op with block := none } : Operator)) ops).size = ops.size := by
    intro ids
    induction ids with
    | nil => exact fun _ => rfl
    | cons id ids ih => exact fun ops => (ih _).trans Array.size_modify
  unfold updateReachability
  dsimp only
  split
  · exact hfold _ _
  · exact hfold _ _

theorem Linked.updateReachability (hg : g.Linked) : g.updateReachability.2.Linked := by
  have hof : ∀ id c, g.updateReachability.2.blockOf id = some c ↔
      g.blockOf id = some c ∧ c ∉ g.unreached := by
    intro id c
    rw [blockOf, op_updateReachability]
    by_cases hid : id ∈ g.swept
    · obtain ⟨b, hb, hblock⟩ := hg.mem_swept.mp hid
      have hnone : ((g.op id).map fun op => { op with block := none }).bind (·.block) = none :=
        (Option.bind_map ..).trans (Option.bind_fun_none _)
      rw [if_pos hid, hnone, hblock]
      grind
    · rw [if_neg hid]
      have hnot := mt hg.mem_swept.mpr hid
      simp only [blockOf] at hnot ⊢
      grind
  constructor
  · intro c block id hc
    rw [block_updateReachability] at hc
    obtain ⟨block, hc', rfl⟩ := Option.map_eq_some_iff.mp hc
    rw [hof, ← hg.listed hc']
    by_cases hu : c ∈ g.unreached <;> simp [hu]
  · intro id c hid
    obtain ⟨block, hc⟩ := hg.known ((hof id c).mp hid).1
    rw [block_updateReachability, hc]
    exact ⟨_, rfl⟩
  · intro c block hc
    rw [block_updateReachability] at hc
    obtain ⟨block, hc', rfl⟩ := Option.map_eq_some_iff.mp hc
    have := hg.nodup hc'
    by_cases hu : c ∈ g.unreached <;> simp [hu, this]

end Graph
end ScalarLowering
