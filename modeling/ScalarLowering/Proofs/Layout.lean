import ScalarLowering.Proofs.Tally

/-! The layout of the code. A run never changes control flow: the blocks that control reaches end
as they did, and if anything was lowered exactly these are marked as reachable and the others are
empty. Without the clean-up every operator of a reachable block stays, or gives way to one at the
same source position with perhaps a load in front. -/

namespace ScalarLowering

open ScalarLowering.Graph ScalarLowering.Edit

/-- A property of the layout: it depends on blocks and kinds only, and an operator that does not
end its block may give way to others. -/
structure LayoutInvariant (p : Pool) (I : Graph → Prop) : Prop where
  same : ∀ {g g'}, g'.blocks = g.blocks → g'.entry = g.entry →
    (∀ id, (g'.op id).map (·.kind) = (g.op id).map (·.kind)) → I g → I g'
  givesWay : ∀ {g g' old n}, g.Linked → g.GivesWay p g' old n → I g → I g'
  reachability : ∀ {g}, g.Linked → I g → I g.updateReachability.2

variable {p : Pool} {config : Config} {I : Graph → Prop} {g₀ g g' : Graph} {c : Chains}
  {stats : Stats}

theorem LayoutInvariant.edit (hI : LayoutInvariant p I) {w : WrapperUse} {id : OpId} {b : Bool}
    (hg : g.Linked) (hc : Tracks c g) (h : w.edit p c id g = .ok b g') (hIg : I g) : I g' := by
  obtain ⟨-, op, ids, hlowers⟩ | ⟨-, rfl⟩ := lowers_or_eq_of_edit hg hc h
  · exact hI.givesWay hg hlowers.givesWay hIg
  · exact hIg

theorem LayoutInvariant.sameCode (hI : LayoutInvariant p I) (h : g.SameCode g') (hIg : I g) :
    I g' :=
  hI.same h.blocks h.entry (fun id => by rw [h.op_eq]) hIg

theorem LayoutInvariant.step (hI : LayoutInvariant p I) : StepInvariant p I where
  sameCode := fun hcode _ hIg => hI.sameCode hcode hIg
  constructor := fun hg hc hIg h => hI.edit (w := .constructor) hg hc h hIg
  equality := fun hg hc hIg h => hI.edit (w := .equality) hg hc h hIg
  fieldLoad := fun hg hc hIg h => hI.edit (w := .load) hg hc h hIg
  fieldAddress := fun hg hc hIg h => hI.edit (w := .address) hg hc h hIg
  localAddress := fun _ hg hc hIg h => by
    obtain rfl | ⟨g₁, rfl | ⟨load, hload⟩, haddress⟩ := givesWay_foldLocal hg hc h
    · exact hIg
    · exact hI.givesWay hg haddress hIg
    · exact hI.givesWay (hload.linked hg) haddress (hI.givesWay hg hload hIg)
  placeAddress := fun hg _ hIg h => by
    obtain rfl | ⟨g₁, load, hload, haddress⟩ := givesWay_foldPlace hg h
    · exact hIg
    · exact hI.givesWay (hload.linked hg) haddress (hI.givesWay hg hload hIg)
  reachability := hI.reachability

theorem LayoutInvariant.dead (hI : LayoutInvariant p I) : DeadInvariant I where
  sameCode := fun hcode _ hIg => hI.sameCode hcode hIg
  remove := fun hg hIg hop hpure _ hs =>
    hI.givesWay hg (hs.givesWay hg hop (isControl_of_isPure hpure)) hIg
  strip := fun {g id _ v} _ hIg _ _ _ _ =>
    hI.same (g := g) rfl rfl (fun x => kind_stripResult id x v) hIg
  drop := fun _ hIg =>
    hI.same blocks_dropUnmentioned entry_dropUnmentioned (fun id => by rw [op_dropUnmentioned]) hIg

namespace Graph

/-- The blocks that control reaches in the first graph are there in the second and end in the same
control operator. -/
structure SameEnds (g₀ g : Graph) : Prop where
  entry : g.entry = g₀.entry
  size : g.blocks.size = g₀.blocks.size
  last : ∀ {b : BlockId} {block₀ : Block} {id : OpId} {op₀ : Operator}, g₀.Reaches b →
    g₀.block b = some block₀ → block₀.last? = some id → g₀.op id = some op₀ → op₀.isControl →
    ∃ block op, g.block b = some block ∧ block.last? = some id ∧ g.op id = some op ∧
      op.kind = op₀.kind

theorem SameEnds.refl (g : Graph) : g.SameEnds g :=
  ⟨rfl, rfl, fun _ hb hlast hop _ => ⟨_, _, hb, hlast, hop, rfl⟩⟩

structure Ended (g : Graph) : Prop where
  last : ∀ {b : BlockId} {block : Block}, g.block b = some block →
    ∃ id op, block.last? = some id ∧ g.op id = some op ∧ op.isControl

theorem ended_of_verify (hverify : g.verify = .ok ())
    (hreachable : ∀ {b block}, g.block b = some block → block.reachable) : g.Ended := by
  refine ⟨fun {b block} hb => ?_⟩
  obtain ⟨last, op, hlast, -, hop, hcontrol⟩ :=
    checkBlock_eq_ok.mp (verify_eq_ok.mp hverify b block hb (hreachable hb))
  exact ⟨last, op, hlast, hop, hcontrol⟩

theorem SameEnds.reaches (h : g₀.SameEnds g) {b : BlockId} (hb : g₀.Reaches b) : g.Reaches b := by
  induction hb with
  | entry => exact h.entry ▸ .entry
  | target hb hblock hlast hop ht hlt ih =>
    obtain ⟨block', op', hblock', hlast', hop', hkind⟩ :=
      h.last hb hblock hlast hop (isControl_of_mem_targets ht)
    refine .target ih hblock' hlast' hop' ?_ (h.size ▸ hlt)
    rwa [Operator.targets, hkind]

/-- Where every block ends in a control operator, nothing else is reached. -/
theorem SameEnds.reaches_iff (h : g₀.SameEnds g) (hends : g₀.Ended) {b : BlockId} :
    g.Reaches b ↔ g₀.Reaches b := by
  refine ⟨fun hb => ?_, h.reaches⟩
  induction hb with
  | entry => exact h.entry ▸ .entry
  | target _ hblock hlast hop ht hlt ih =>
    obtain ⟨block₀, hblock₀⟩ := exists_block (h.size ▸ block_eq_some_lt hblock)
    obtain ⟨id₀, op₀, hlast₀, hop₀, hcontrol⟩ := hends.last hblock₀
    obtain ⟨block', op', hblock', hlast', hop', hkind⟩ := h.last ih hblock₀ hlast₀ hop₀ hcontrol
    obtain rfl := Option.some.inj (hblock'.symm.trans hblock)
    obtain rfl := Option.some.inj (hlast'.symm.trans hlast)
    obtain rfl := Option.some.inj (hop'.symm.trans hop)
    refine .target ih hblock₀ hlast₀ hop₀ ?_ (h.size ▸ hlt)
    rwa [Operator.targets, ← hkind]

theorem SameEnds.givesWay {old : OpId} {n : Nat} (h : g₀.SameEnds g)
    (hway : g.GivesWay p g' old n) : g₀.SameEnds g' := by
  obtain ⟨⟨ids, hs, -⟩, oldOp, hold, hcontrol⟩ := hway
  have hsize : g'.blocks.size = g.blocks.size := by rw [blocks_of_block hs.block, Array.size_map]
  refine ⟨hs.entry.trans h.entry, hsize.trans h.size,
    fun {b block₀ id op₀} hb hblock₀ hlast₀ hop₀ hc => ?_⟩
  obtain ⟨block, op, hblock, hlast, hop, hkind⟩ := h.last hb hblock₀ hlast₀ hop₀ hc
  have hne : id ≠ old := by
    rintro rfl
    obtain rfl := Option.some.inj (hop.symm.trans hold)
    rw [Operator.isControl, hkind] at hcontrol
    simp [Operator.isControl, hcontrol] at hc
  have hid : id ∈ g.attached := mem_attached.mpr ⟨b, block, hblock, List.mem_of_getLast? hlast⟩
  obtain ⟨op', hop', hkind', -⟩ := exists_of_outline (hs.outline hid (.inl hne)) hop
  refine ⟨{ block with ops := block.ops.flatMap (splice old ids) }, op', ?_,
    getLast?_flatMap_splice hlast hne, hop', hkind'.trans hkind⟩
  rw [hs.block, hblock, Option.map_some]

theorem SameEnds.updateReachability (h : g₀.SameEnds g) : g₀.SameEnds g.updateReachability.2 where
  entry := entry_updateReachability.trans h.entry
  size := size_blocks_updateReachability.trans h.size
  last := fun {b block₀ id op₀} hb hblock₀ hlast₀ hop₀ hc => by
    obtain ⟨block, op, hblock, hlast, hop, hkind⟩ := h.last hb hblock₀ hlast₀ hop₀ hc
    obtain ⟨c, hswept⟩ := op_updateReachability_eq (g := g) id
    refine ⟨{ block with reachable := true }, { op with block := c op }, ?_, hlast, ?_, hkind⟩
    · rw [block_of_reaches (h.reaches hb), hblock, Option.map_some]
    · rw [hswept, hop, Option.map_some]

theorem SameEnds.same (h : g₀.SameEnds g) (hblocks : g'.blocks = g.blocks)
    (hentry : g'.entry = g.entry)
    (hkinds : ∀ id, (g'.op id).map (·.kind) = (g.op id).map (·.kind)) : g₀.SameEnds g' where
  entry := hentry.trans h.entry
  size := by rw [hblocks, h.size]
  last := fun {b block₀ id op₀} hb hblock₀ hlast₀ hop₀ hc => by
    obtain ⟨block, op, hblock, hlast, hop, hkind⟩ := h.last hb hblock₀ hlast₀ hop₀ hc
    obtain ⟨op', hop', hkind'⟩ := Option.map_eq_some_iff.mp ((hkinds id).trans (congrArg _ hop))
    exact ⟨block, op', by rwa [Graph.block, hblocks], hlast, hop', hkind'.trans hkind⟩

end Graph

theorem layout_sameEnds (p : Pool) (g₀ : Graph) : LayoutInvariant p g₀.SameEnds where
  same := fun hblocks hentry hkinds h => h.same hblocks hentry hkinds
  givesWay := fun _ hway h => h.givesWay hway
  reachability := fun _ h => h.updateReachability

namespace Graph

/-- Exactly the blocks that control reaches in the first graph are marked in the second, and the
others are empty. -/
structure MarkedBy (g₀ g : Graph) : Prop where
  reachable : ∀ {b : BlockId} {block : Block}, g.block b = some block →
    (block.reachable = true ↔ g₀.Reaches b)
  empty : ∀ {b : BlockId} {block : Block}, g.block b = some block → ¬ g₀.Reaches b → block.ops = []

theorem SameEnds.markedBy (h : g₀.SameEnds g) (hends : g₀.Ended) :
    g₀.MarkedBy g.updateReachability.2 := by
  have hiff : ∀ b, g.Reaches b ↔ g₀.Reaches b := fun b => h.reaches_iff hends
  refine ⟨fun {b block'} hb => ?_, fun {b block'} hb hr => ?_⟩
  · rw [← hiff]
    by_cases hr : g.Reaches b
    · rw [block_of_reaches hr] at hb
      obtain ⟨block, -, rfl⟩ := Option.map_eq_some_iff.mp hb
      simp [hr]
    · rw [block_of_not_reaches hr] at hb
      obtain ⟨block, -, rfl⟩ := Option.map_eq_some_iff.mp hb
      simp [hr]
  · rw [block_of_not_reaches (mt (hiff b).mp hr)] at hb
    obtain ⟨block, -, rfl⟩ := Option.map_eq_some_iff.mp hb
    rfl

theorem MarkedBy.givesWay {old : OpId} {n : Nat} (h : g₀.MarkedBy g)
    (hway : g.GivesWay p g' old n) : g₀.MarkedBy g' := by
  obtain ⟨ids, hs, -⟩ := hway.swapped
  refine ⟨fun {b block'} hb => ?_, fun {b block'} hb hr => ?_⟩
  · rw [hs.block] at hb
    obtain ⟨block, hblock, rfl⟩ := Option.map_eq_some_iff.mp hb
    have hmark := h.reachable hblock
    exact hmark
  · rw [hs.block] at hb
    obtain ⟨block, hblock, rfl⟩ := Option.map_eq_some_iff.mp hb
    rw [h.empty hblock hr, List.flatMap_nil]

end Graph

theorem layout_markedBy (p : Pool) (hends : g₀.Ended) :
    LayoutInvariant p fun g => g₀.SameEnds g ∧ g₀.MarkedBy g where
  same := fun {g g'} hblocks hentry hkinds h => by
    have hblock : ∀ b, g'.block b = g.block b := fun b => by rw [Graph.block, hblocks, Graph.block]
    exact ⟨h.1.same hblocks hentry hkinds, fun hb => h.2.reachable (hblock _ ▸ hb),
      fun hb => h.2.empty (hblock _ ▸ hb)⟩
  givesWay := fun _ hway h => ⟨h.1.givesWay hway, h.2.givesWay hway⟩
  reachability := fun _ h => ⟨h.1.updateReachability, h.1.markedBy hends⟩

namespace Graph

/-- What stands in the second graph for an operator of the first: the operator itself with at most
other arguments, or what it was lowered to. -/
inductive Part (p : Pool) (g₀ g : Graph) (id : OpId) : List OpId → Prop
  | kept : (g.op id).map (·.outline) = (g₀.op id).map (·.outline) → Part p g₀ g id [id]
  | lowered {op : Operator} {ids : List OpId} : g₀.op id = some op → p.isWrapperOp op.kind →
      (∀ x ∈ ids, g₀.ops.size ≤ x.index) → g.Lowered p op.position ids → Part p g₀ g id ids

/-- The lists of the second graph are those of the first with a part for every operator. -/
def Expands (p : Pool) (g₀ g : Graph) : Prop := g₀.ops.size ≤ g.ops.size ∧
  ∃ parts : OpId → List OpId, ∀ {b : BlockId} {block₀ : Block}, g₀.block b = some block₀ →
    ∃ block, g.block b = some block ∧ block.ops = block₀.ops.flatMap parts ∧
      ∀ id ∈ block₀.ops, Part p g₀ g id (parts id)

theorem Expands.refl (p : Pool) (g : Graph) : Expands p g g :=
  ⟨Nat.le_refl _, fun id => [id], fun {_ block} hb =>
    ⟨block, hb, (List.flatMap_singleton' block.ops).symm, fun _ _ => .kept rfl⟩⟩

theorem Lowered.of_outline {position : Option Position} {ids : List OpId}
    (h : g.Lowered p position ids)
    (hop : ∀ x ∈ ids, (g'.op x).map (·.outline) = (g.op x).map (·.outline)) :
    g'.Lowered p position ids := by
  cases h with
  | alone hnew => exact .alone (hnew.of_outline (hop _ (by simp)))
  | fetched hload hkind hposition hnew =>
    obtain ⟨read', hread', hkind', hposition'⟩ := exists_of_outline (hop _ (by simp)) hload
    exact .fetched hread' (hkind'.trans hkind) (hposition'.trans hposition)
      (hnew.of_outline (hop _ (by simp)))

theorem Part.of_outline {id : OpId} {ids : List OpId} (h : Part p g₀ g id ids)
    (hop : ∀ x ∈ ids, (g'.op x).map (·.outline) = (g.op x).map (·.outline)) :
    Part p g₀ g' id ids := by
  cases h with
  | kept hkept => exact .kept ((hop id (by simp)).trans hkept)
  | lowered hid hwrapper hfresh hlowered =>
    exact .lowered hid hwrapper hfresh (hlowered.of_outline hop)

/-- An operation that is lowered was kept so far: what was put by the run is no operation on a
wrapper. -/
theorem Part.lowers {old id : OpId} {op : Operator} {ids part : List OpId}
    (h : Part p g₀ g id part) (hsize : g₀.ops.size ≤ g.ops.size)
    (hpart : ∀ x ∈ part, x ∈ g.attached) (hl : g.Lowers p g' old op ids) :
    Part p g₀ g' id (part.flatMap (splice old ids)) := by
  by_cases hold : old ∈ part
  · cases h with
    | kept hkept =>
      obtain rfl := List.mem_singleton.mp hold
      obtain ⟨op₀, hop₀, hkind, hposition⟩ := exists_of_outline hkept.symm hl.found
      rw [List.flatMap_singleton, splice_self]
      exact .lowered hop₀ (by rw [hkind]; exact hl.wrapper)
        (fun x hx => Nat.le_trans hsize (hl.fresh hx)) (hposition ▸ hl.lowered)
    | lowered _ _ _ hlowered =>
      obtain ⟨op', hop', hplain, -⟩ := hlowered.plain hold
      obtain rfl := Option.some.inj (hop'.symm.trans hl.found)
      simp [hl.wrapper] at hplain
  · rw [flatMap_splice_of_notMem ids hold]
    refine h.of_outline fun x hx => hl.swapped.outline (hpart x hx) (.inl ?_)
    rintro rfl
    exact hold hx

theorem Expands.lowers {old : OpId} {op : Operator} {ids : List OpId} (h : Expands p g₀ g)
    (hg : g.Linked) (hl : g.Lowers p g' old op ids) : Expands p g₀ g' := by
  obtain ⟨hsize, parts, hparts⟩ := h
  refine ⟨Nat.le_trans hsize (hl.swapped.grows hg).2.size_ops,
    fun id => (parts id).flatMap (splice old ids), fun {b block₀} hb => ?_⟩
  obtain ⟨block, hblock, hops, hpart⟩ := hparts hb
  refine ⟨{ block with ops := block.ops.flatMap (splice old ids) }, ?_, ?_, fun id hid => ?_⟩
  · rw [hl.swapped.block, hblock, Option.map_some]
  · rw [hops, List.flatMap_assoc]
  · refine (hpart id hid).lowers hsize (fun x hx => ?_) hl
    refine mem_attached.mpr ⟨b, block, hblock, ?_⟩
    rw [hops]
    exact List.mem_flatMap.mpr ⟨id, hid, hx⟩

theorem Expands.sameCode (h : Expands p g₀ g) (hcode : g.SameCode g') : Expands p g₀ g' := by
  obtain ⟨hsize, parts, hparts⟩ := h
  refine ⟨by rwa [hcode.ops], parts, fun {b block₀} hb => ?_⟩
  obtain ⟨block, hblock, hops, hpart⟩ := hparts hb
  refine ⟨block, by rwa [hcode.block_eq], hops, fun id hid => ?_⟩
  refine (hpart id hid).of_outline fun x _ => ?_
  rw [hcode.op_eq]

/-- Marking and emptying blocks leaves what control reaches alone. -/
theorem Expands.updateReachability (h : Expands p g₀ g) (hends : g₀.SameEnds g) :
    ∃ parts : OpId → List OpId, ∀ {b : BlockId} {block₀ : Block}, g₀.Reaches b →
      g₀.block b = some block₀ → ∃ block, g.updateReachability.2.block b = some block ∧
        block.ops = block₀.ops.flatMap parts ∧
        ∀ id ∈ block₀.ops, Part p g₀ g.updateReachability.2 id (parts id) := by
  obtain ⟨-, parts, hparts⟩ := h
  refine ⟨parts, fun {b block₀} hr hb => ?_⟩
  obtain ⟨block, hblock, hops, hpart⟩ := hparts hb
  refine ⟨{ block with reachable := true }, ?_, hops, fun id hid => ?_⟩
  · rw [block_of_reaches (hends.reaches hr), hblock, Option.map_some]
  · exact (hpart id hid).of_outline fun x _ => outline_updateReachability x

end Graph

theorem tally_expands (p : Pool) (g₀ : Graph) : TallyInvariant p fun _ g => Expands p g₀ g where
  sameCode := fun hcode _ h => h.sameCode hcode
  lowers := fun hg hl h => h.lowers hg hl

namespace Edit

/-- What a run does to a block that control reaches. -/
theorem sameEnds_lower (hg : g.Coherent) (h : lower p config g = .ok stats g') : g.SameEnds g' :=
  lower_induction (layout_sameEnds p g).step (fun hends => hends)
    (fun _ => (layout_sameEnds p g).dead) hg (.refl g) h

theorem markedBy_lower (hg : g.Coherent) (hends : g.Ended) (h : lower p config g = .ok stats g')
    (hmodified : stats.modified) : g.MarkedBy g' := by
  obtain ⟨-, hzero⟩ | ⟨stats₁, g₁, hwrappers, -, hclean⟩ := lower_cases h
  · have := Stats.modified_iff.mp hmodified
    omega
  · obtain ⟨hg₁, hends₁⟩ :=
      lowerWrappers_induction (layout_sameEnds p g).step ⟨hg, .refl g⟩ hwrappers
    have hI := layout_markedBy p hends
    obtain ⟨-, -, hmarked⟩ := cleanUp_induction_of_marked hI.step (fun h => h) (fun _ => hI.dead)
      hg₁ ⟨hends₁.updateReachability, hends₁.markedBy hends⟩ hclean
    exact hmarked

/-- Without the clean-up steps a run lowers in place. -/
theorem parts_of_lower (hg : g.Coherent) (hcleanup : config.addressCleanup = false)
    (hdead : config.deadVariables = false) (h : lower p config g = .ok stats g') :
    ∃ parts : OpId → List OpId, ∀ {b : BlockId} {block : Block}, g.Reaches b →
      g.block b = some block → ∃ block', g'.block b = some block' ∧
        block'.ops = block.ops.flatMap parts ∧ ∀ id ∈ block.ops, Part p g g' id (parts id) := by
  obtain ⟨hwrappers, -⟩ | ⟨stats₁, g₁, hwrappers, -, hclean⟩ := lower_cases h
  · obtain ⟨-, -, parts, hparts⟩ :=
      lowerWrappers_tally (k := 0) (tally_expands p g) ⟨hg, .refl p g⟩ hwrappers
    exact ⟨parts, fun _ hb => hparts hb⟩
  · have hexpands :=
      (lowerWrappers_tally (k := 0) (tally_expands p g) ⟨hg, .refl p g⟩ hwrappers).2
    have hends := (lowerWrappers_induction (layout_sameEnds p g).step ⟨hg, .refl g⟩ hwrappers).2
    obtain ⟨n, m, g₂, hfold, hrest⟩ := cleanUp_steps hclean
    rw [hcleanup] at hfold
    rw [hdead] at hrest
    obtain ⟨-, rfl⟩ := pure_eq_ok.mp hfold
    obtain ⟨-, rfl⟩ := pure_eq_ok.mp hrest
    exact hexpands.updateReachability hends

/-- A run never changes control flow. In a graph that verifies with every block marked, the
blocks stay, those that control reaches end in the same operator with the same kind and targets,
and if anything was lowered exactly these are marked and the others are empty. Without the
clean-up steps every operator of such a block stays or is lowered in place. -/
theorem lower_keeps_layout {p : Pool} {config : Config} {g g' : Graph} {stats : Stats}
    (hg : g.Built) (hverify : g.verify = .ok ())
    (hmarked : ∀ {b block}, g.block b = some block → block.reachable = true)
    (h : lower p config g = .ok stats g') :
    g'.entry = g.entry ∧ g'.blocks.size = g.blocks.size ∧
    (∀ {b block}, g.Reaches b → g.block b = some block → ∃ block' id op op',
      g'.block b = some block' ∧ block.last? = some id ∧ block'.last? = some id ∧
      g.op id = some op ∧ g'.op id = some op' ∧ op.isControl ∧ op'.kind = op.kind ∧
      op'.targets = op.targets) ∧
    (stats.modified → ∀ {b block'}, g'.block b = some block' →
      (block'.reachable = true ↔ g.Reaches b) ∧ (¬ g.Reaches b → block'.ops = [])) ∧
    (config.addressCleanup = false → config.deadVariables = false →
      ∃ parts : OpId → List OpId, ∀ {b block}, g.Reaches b → g.block b = some block →
        ∃ block', g'.block b = some block' ∧ block'.ops = block.ops.flatMap parts ∧
          ∀ id ∈ block.ops, Part p g g' id (parts id)) := by
  have hended := ended_of_verify hverify hmarked
  have hends := sameEnds_lower hg.coherent h
  refine ⟨hends.entry, hends.size, fun {b block} hr hb => ?_,
    fun hmodified {b block'} hb => ?_,
    fun hcleanup hdead => parts_of_lower hg.coherent hcleanup hdead h⟩
  · obtain ⟨id, op, hlast, hop, hcontrol⟩ := hended.last hb
    obtain ⟨block', op', hb', hlast', hop', hkind⟩ := hends.last hr hb hlast hop hcontrol
    exact ⟨block', id, op, op', hb', hlast, hlast', hop, hop', hcontrol, hkind,
      by rw [Operator.targets, hkind, Operator.targets]⟩
  · have hmarks := markedBy_lower hg.coherent hended h hmodified
    exact ⟨hmarks.reachable hb, hmarks.empty hb⟩

/-- A block that control does not reach stands beside the code of `constructedAndRead`. -/
def readBesideDead : Graph := constructedAndRead.changed [.addBlock, .append ⟨1⟩ (.ret none)]

/-- The four operations are lowered in place, and the block that control does not reach loses its
operator and its mark. -/
theorem lower_keeps_layout_readBesideDead : ∃ (g' : Graph) (parts : OpId → List OpId),
    lower wrapperPool { addressCleanup := false, deadVariables := false } readBesideDead =
      .ok { constructors := 1, equality := 1, fieldLoads := 1, fieldAddresses := 1 } g' ∧
      g'.block ⟨1⟩ = some ⟨[], false⟩ ∧ ¬readBesideDead.Reaches ⟨1⟩ ∧
      g'.block ⟨0⟩ = some ⟨[⟨0⟩, ⟨7⟩, ⟨11⟩, ⟨9⟩, ⟨10⟩, ⟨8⟩, ⟨5⟩], true⟩ ∧
      [⟨0⟩, ⟨7⟩, ⟨11⟩, ⟨9⟩, ⟨10⟩, ⟨8⟩, ⟨5⟩] =
        [⟨0⟩, ⟨1⟩, ⟨2⟩, ⟨3⟩, ⟨4⟩, ⟨5⟩].flatMap parts ∧
      ∀ id ∈ [⟨0⟩, ⟨1⟩, ⟨2⟩, ⟨3⟩, ⟨4⟩, ⟨5⟩], Part wrapperPool readBesideDead g' id (parts id) := by
  have h : (lower wrapperPool { addressCleanup := false, deadVariables := false }).result?
      readBesideDead = some ⟨1, 1, 1, 1, 0, 0⟩ := by
    decide +kernel
  have hbuilt : readBesideDead.Built := (((Built.empty "f").changed _).changed _).changed _
  have hmarked : ∀ {b block}, readBesideDead.block b = some block → block.reachable = true := by
    intro b block hb
    exact (by decide +kernel : ∀ block ∈ readBesideDead.blocks.toList, block.reachable = true) block
      (Array.mem_toList_iff.mpr (Array.mem_of_getElem? hb))
  obtain ⟨-, -, -, hmarks, hparts⟩ :=
    lower_keeps_layout hbuilt (by decide +kernel) hmarked (eq_ok_of_result? h)
  obtain ⟨parts, hparts⟩ := hparts rfl rfl
  have hentry : readBesideDead.entry = ⟨0⟩ := by decide +kernel
  have hblock : readBesideDead.block ⟨0⟩ = some ⟨[⟨0⟩, ⟨1⟩, ⟨2⟩, ⟨3⟩, ⟨4⟩, ⟨5⟩], true⟩ := by
    decide +kernel
  have hcode : ((lower wrapperPool { addressCleanup := false, deadVariables := false }).after
      readBesideDead).block ⟨0⟩ = some ⟨[⟨0⟩, ⟨7⟩, ⟨11⟩, ⟨9⟩, ⟨10⟩, ⟨8⟩, ⟨5⟩], true⟩ := by
    decide +kernel
  have hdead : ((lower wrapperPool { addressCleanup := false, deadVariables := false }).after
      readBesideDead).block ⟨1⟩ = some ⟨[], false⟩ := by
    decide +kernel
  obtain ⟨block', hblock', hops, hpart⟩ := hparts (hentry ▸ .entry) hblock
  obtain rfl := Option.some.inj (hcode.symm.trans hblock')
  have hmark := (hmarks rfl hdead).1
  exact ⟨_, parts, eq_ok_of_result? h, hdead, by simpa using hmark, hcode, hops, hpart⟩

end Edit
end ScalarLowering
