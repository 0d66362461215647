import ScalarLowering.Proofs.LiveQueries

/-! What lasts while one operation after another is made on a graph. Blocks and operators agree
on membership at any time. An operator that is known stays known: it keeps its kind and its
flags, its results only shrink, and once detached it stays detached. -/

namespace ScalarLowering

inductive Operation
  | change (change : Change)
  | snapshot
  | setCheckpoint
  | eliminateDead
  | lower (p : Pool) (config : Config)

def Operation.apply : Operation → Graph → Graph
  | .change c, g => c.apply g
  | .snapshot, g => Edit.snapshot.after g
  | .setCheckpoint, g => Edit.setCheckpoint.after g
  | .eliminateDead, g => Edit.eliminateDead.after g
  | .lower p config, g => (Edit.lower p config).after g

/-- What later operations leave of an operator. -/
structure Operator.Remains (op op' : Operator) : Prop where
  kind : op'.kind = op.kind
  flags : op'.flags = op.flags
  results : op'.results.Sublist op.results
  detached : op.block = none → op'.block = none

theorem Operator.Remains.refl (op : Operator) : op.Remains op :=
  ⟨rfl, rfl, .refl _, fun h => h⟩

theorem Operator.Remains.trans {op op' op'' : Operator} (h : op.Remains op')
    (h' : op'.Remains op'') : op.Remains op'' :=
  ⟨h'.kind.trans h.kind, h'.flags.trans h.flags, h'.results.trans h.results,
    fun hb => h'.detached (h.detached hb)⟩

namespace Graph

variable {g g' : Graph}

def operated (g : Graph) (operations : List Operation) : Graph :=
  operations.foldl (fun g o => o.apply g) g

theorem moves_operation (o : Operation) (g : Graph) : g.Moves (o.apply g) := by
  cases o with
  | change change => exact (grows_apply change g).moves
  | snapshot => exact Edit.moves_snapshot g
  | setCheckpoint => exact Edit.moves_setCheckpoint g
  | eliminateDead => exact Edit.moves_eliminateDead g
  | lower p config => exact Edit.moves_lower p config g

theorem moves_operated (g : Graph) (operations : List Operation) :
    g.Moves (g.operated operations) := by
  induction operations generalizing g with
  | nil => exact Std.Refl.refl g
  | cons o operations ih => exact (moves_operation o g).trans (ih _)

/-- Membership stays consistent, and every known operator remains. -/
def Lasts (g g' : Graph) : Prop := g.Linked → g'.Linked ∧
  ∀ {id : OpId} {op : Operator}, g.op id = some op → ∃ op', g'.op id = some op' ∧ op.Remains op'

instance : Std.Refl Lasts := ⟨fun _ hg => ⟨hg, fun h => ⟨_, h, .refl _⟩⟩⟩

instance : IsTrans Graph Lasts := by
  refine ⟨fun a b c hab hbc ha => ?_⟩
  obtain ⟨hb, hold⟩ := hab ha
  obtain ⟨hc, hnew⟩ := hbc hb
  refine ⟨hc, fun h => ?_⟩
  obtain ⟨op', hop', h'⟩ := hold h
  obtain ⟨op'', hop'', h''⟩ := hnew hop'
  exact ⟨op'', hop'', h'.trans h''⟩

theorem lasts_of_ops_eq (hblocks : g'.blocks = g.blocks) (hops : g'.ops = g.ops) : g.Lasts g' := by
  have hop : ∀ id, g'.op id = g.op id := fun id => by simp only [op, hops]
  intro hg
  refine ⟨hg.of_blocks_eq (fun b => by simp only [block, hblocks]) fun id => ?_, fun h => ?_⟩
  · simp only [blockOf, hop]
  · exact ⟨_, (hop _).trans h, .refl _⟩

theorem Grows.lasts (h : g.Grows g') : g.Lasts g' := by
  intro hg
  obtain ⟨hg', hext⟩ := h hg
  refine ⟨hg', fun {id op} hop => ?_⟩
  have hlt := op_eq_some_lt hop
  obtain ⟨op', hop'⟩ := exists_op (Nat.lt_of_lt_of_le hlt hext.size_ops)
  obtain ⟨old, hold, hkind, hresults, hflags, -⟩ := hext.oldOp hlt hop'
  obtain rfl : old = op := Option.some.inj (hold.symm.trans hop)
  refine ⟨op', hop', hkind, hflags, hresults ▸ .refl _, fun hdetached => ?_⟩
  by_contra hb
  have hatt : g'.isAttached id := by
    simpa [isAttached, hop', Operator.isAttached, Option.isSome_iff_ne_none] using hb
  have := hext.attached hlt hatt
  simp [isAttached, hop, Operator.isAttached, hdetached] at this

theorem lasts_stripResult (target : OpId) (v : VarId) : g.Lasts (g.stripResult target v) := by
  intro hg
  refine ⟨hg.stripResult target v, fun {id op} hop => ?_⟩
  by_cases hid : id = target
  · subst hid
    exact ⟨op.withoutResult v, by simp [stripResult, hop], rfl, rfl, List.filter_sublist, fun h => h⟩
  · exact ⟨op, by simpa [stripResult, hid] using hop, .refl _⟩

theorem Move.lasts (h : Move g g') : g.Lasts g' := by
  cases h with
  | edit h => exact h.lasts
  | strip id v => exact lasts_stripResult id v
  | drop =>
    unfold dropUnmentioned
    dsimp only
    split
    · exact Std.Refl.refl g
    · exact lasts_of_ops_eq rfl rfl
  | refresh _ h =>
    have hcode := sameCode_refresh h
    exact lasts_of_ops_eq hcode.blocks hcode.ops
  | checkpoint => exact lasts_of_ops_eq rfl rfl

theorem Moves.lasts (h : g.Moves g') : g.Lasts g' := h.lift Move.lasts

/-- Blocks and operators agree on membership. -/
structure Placed (g : Graph) : Prop where
  /-- An operator records the block that lists it. -/
  recorded : ∀ (id : OpId) (b : BlockId), (∃ op, g.op id = some op ∧ op.block = some b) ↔
    ∃ block, g.block b = some block ∧ id ∈ block.ops
  once : ∀ {id : OpId} {b : BlockId} {block : Block}, g.block b = some block → id ∈ block.ops →
    block.ops.count id = 1
  oneBlock : ∀ {id : OpId} {b b' : BlockId} {block block' : Block}, g.block b = some block →
    g.block b' = some block' → id ∈ block.ops → id ∈ block'.ops → b = b'
  /-- The place that is found is where the block lists the operator. -/
  found : ∀ {id : OpId} {b : BlockId} {block : Block}, g.block b = some block → id ∈ block.ops →
    ∃ i, g.placeOf id = .ok ⟨b, i⟩ ∧ block.ops[i]? = some id
  consistent : ∀ (id op : OpId) (b : BlockId) (recorded : Option BlockId),
    g.placeOf id ≠ .error (.graph (.membership op b recorded))

theorem Linked.placed (hg : g.Linked) : g.Placed where
  recorded id b := by
    rw [← blockOf_eq_some]
    constructor
    · intro h
      obtain ⟨block, hb⟩ := hg.known h
      exact ⟨block, hb, (hg.listed hb).mpr h⟩
    · rintro ⟨block, hb, hid⟩
      exact (hg.listed hb).mp hid
  once hb hid := List.count_eq_one_of_mem (hg.nodup hb) hid
  oneBlock hb hb' hid hid' := by
    have h := (hg.listed hb).mp hid
    rw [(hg.listed hb').mp hid'] at h
    exact (Option.some.inj h).symm
  found {id b block} hb hid := by
    have hof := (hg.listed hb).mp hid
    obtain ⟨place, hplace⟩ := hg.exists_placeOf (isAttached_iff.mpr ⟨b, hof⟩)
    obtain ⟨hblock, block', hb', hi⟩ := placeOf_eq_ok.mp hplace
    obtain rfl : b = place.block := Option.some.inj (hof.symm.trans hblock)
    obtain rfl : block = block' := Option.some.inj (hb.symm.trans hb')
    obtain ⟨hlt, hget, -⟩ := List.idxOf?_eq_some_iff.mp hi
    exact ⟨place.index, hplace, List.getElem?_eq_some_iff.mpr ⟨hlt, hget⟩⟩
  consistent id op b recorded h := by
    obtain ⟨-, he⟩ | ⟨-, he⟩ := hg.placeOf_eq_error h <;> cases he

/-- Membership is consistent in every graph that operations build, and whatever is done to the
graph later, its operators remain. -/
theorem membership_lasts {g : Graph} (hg : g.Built) :
    g.Placed ∧ ∀ (operations : List Operation) (id : OpId) (op : Operator), g.op id = some op →
      ∃ op', (g.operated operations).op id = some op' ∧ op.Remains op' :=
  have hlinked := hg.coherent.linked
  ⟨hlinked.placed, fun operations _ _ hop =>
    ((moves_operated g operations).lasts hlinked).2 hop⟩

/-- Asks for a replacement of an operator that is detached. -/
def sampleHistory : List Operation :=
  [.snapshot, .change (.substitute ⟨0⟩ .nop .keep), .setCheckpoint, .eliminateDead]

theorem membership_lasts_after_removal : ∃ op',
    (((empty "f").changed (sampleProgram ++ [.remove ⟨0⟩ .discard])).operated sampleHistory).op ⟨0⟩ =
      some op' ∧ op'.kind = .copy ∧ op'.block = none := by
  obtain ⟨-, h⟩ := membership_lasts
    ((Built.empty "f").changed (sampleProgram ++ [.remove ⟨0⟩ .discard]))
  obtain ⟨op', hop', hremains⟩ := h sampleHistory ⟨0⟩ _ rfl
  exact ⟨op', hop', hremains.kind, hremains.detached rfl⟩

end Graph
end ScalarLowering
