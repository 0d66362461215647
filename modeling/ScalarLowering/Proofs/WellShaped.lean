import ScalarLowering.Proofs.Decisions

/-! The shape of a graph: every reachable block ends in its only control operator, the others
are empty, and the operands of every operator fit its kind. This is what verification checks
apart from the least number of results. -/

namespace ScalarLowering

/-- The operands fit the kind of the operator and exist in the graph. Results may be missing. -/
structure Operator.Fits (op : Operator) (g : Graph) : Prop where
  args : ∀ {a : Arity}, op.kind.argArity? = some a → a.admits op.args.length
  results : op.results.length ≤ op.kind.resultArity.most
  targets : ∀ b ∈ op.targets, ∃ block, g.block b = some block ∧ block.reachable
  live : ∀ v ∈ op.mentions, ∃ info, g.var v = some info ∧ info.dropped = false
  written : ∀ v ∈ op.results, ∃ info, g.var v = some info ∧ info.isArgument = false

namespace Graph

variable {g g' : Graph} {op op' : Operator} {old id : OpId} {ids : List OpId}

structure WellShaped (g : Graph) : Prop where
  linked : g.Linked
  entry : ∃ block, g.block g.entry = some block ∧ block.reachable
  unreachable : ∀ {b : BlockId} {block : Block}, g.block b = some block →
    block.reachable = false → block.ops = []
  last : ∀ {b : BlockId} {block : Block}, g.block b = some block → block.reachable →
    ∃ id op, block.ops.getLast? = some id ∧ g.op id = some op ∧ op.isControl
  control : ∀ {b : BlockId} {block : Block} {id : OpId} {op : Operator}, g.block b = some block →
    id ∈ block.ops → g.op id = some op → op.isControl → block.ops.getLast? = some id
  fits : ∀ {id : OpId} {op : Operator}, id ∈ g.attached → g.op id = some op → op.Fits g

theorem fits_of_code (h : op.code = op'.code) (hfits : op.Fits g) : op'.Fits g := by
  obtain ⟨hk, ha, hr, -⟩ := Operator.code_eq.mp h
  have hm : op'.mentions = op.mentions := by simp [Operator.mentions, Operator.reads, ha, hr]
  have ht : op'.targets = op.targets := by simp [Operator.targets, hk]
  exact ⟨by rw [← hk, ← ha]; exact hfits.args, by rw [← hk, ← hr]; exact hfits.results,
    by rw [ht]; exact hfits.targets, by rw [hm]; exact hfits.live, by rw [← hr]; exact hfits.written⟩

theorem fits_of_graph (hblock : ∀ b, (∃ block, g.block b = some block ∧ block.reachable) →
      ∃ block, g'.block b = some block ∧ block.reachable)
    (hvar : ∀ v ∈ op.mentions, g'.var v = g.var v) (h : op.Fits g) : op.Fits g' where
  args := h.args
  results := h.results
  targets := fun b hb => hblock b (h.targets b hb)
  live := fun v hv => by rw [hvar v hv]; exact h.live v hv
  written := fun v hv => by
    rw [hvar v (List.mem_append_right _ hv)]
    exact h.written v hv

theorem isControl_of_code (h : op.code = op'.code) : op'.isControl = op.isControl := by
  simp [Operator.isControl, (Operator.code_eq.mp h).1]

theorem getLast?_flatMap_splice {l : List OpId} {last : OpId} (h : l.getLast? = some last)
    (hne : last ≠ old) : (l.flatMap (splice old ids)).getLast? = some last := by
  obtain ⟨init, rfl⟩ := List.getLast?_eq_some_iff.mp h
  simp [splice_of_ne ids hne]

theorem Spliced.exists_block {b : BlockId} {block' : Block} (h : g.Spliced g' old ids)
    (hb : g'.block b = some block') : ∃ block, g.block b = some block ∧
      block'.reachable = block.reachable ∧ block'.ops = block.ops.flatMap (splice old ids) := by
  rw [h.block] at hb
  obtain ⟨block, hblock, rfl⟩ := Option.map_eq_some_iff.mp hb
  exact ⟨block, hblock, rfl, rfl⟩

theorem Spliced.exists_reachable {b : BlockId} (h : g.Spliced g' old ids)
    (hb : ∃ block, g.block b = some block ∧ block.reachable) :
    ∃ block, g'.block b = some block ∧ block.reachable := by
  obtain ⟨block, hb, hr⟩ := hb
  refine ⟨{ block with ops := block.ops.flatMap (splice old ids) }, ?_, hr⟩
  rw [h.block, hb, Option.map_some]

/-- Putting operators that fit for one that is not a control operator keeps the shape. -/
theorem WellShaped.spliced (hg : g.WellShaped) (h : g.Spliced g' old ids)
    (hold : ∃ op, g.op old = some op ∧ op.isControl = false)
    (hnew : ∀ id ∈ ids, id = old ∨ ∃ op, g'.op id = some op ∧ op.isControl = false ∧ op.Fits g) :
    g'.WellShaped := by
  obtain ⟨oldOp, hold, hcontrol⟩ := hold
  have hlinked := (h.grows hg.linked).1
  have hop : ∀ {b block id op}, g.block b = some block →
      id ∈ block.ops.flatMap (splice old ids) → g'.op id = some op →
      (op.isControl = false ∧ op.Fits g) ∨ (id ∈ block.ops ∧ g.op id = some op) := by
    intro b block id op hb hid hop
    obtain ⟨hin, hmem⟩ | ⟨hne, hmem⟩ := mem_flatMap_splice.mp hid
    · obtain rfl | ⟨op', hop', hc, hfits⟩ := hnew id hmem
      · rw [h.op (.inr hmem) (op_eq_some_lt hold)] at hop
        exact .inr ⟨hin, hop⟩
      · obtain rfl : op' = op := Option.some.inj (hop'.symm.trans hop)
        exact .inl ⟨hc, hfits⟩
    · have hlt := hg.linked.lt_of_mem (mem_attached.mpr ⟨b, block, hb, hmem⟩)
      rw [h.op (.inl hne) hlt] at hop
      exact .inr ⟨hmem, hop⟩
  have hne : ∀ {id op}, g.op id = some op → op.isControl → id ≠ old := by
    rintro id op hid hc rfl
    rw [Option.some.inj (hold.symm.trans hid), hc] at hcontrol
    cases hcontrol
  refine ⟨hlinked, ?_, ?_, ?_, ?_, ?_⟩
  · rw [h.entry]
    exact h.exists_reachable hg.entry
  · intro b block' hb hr
    obtain ⟨block, hb, hreachable, hops⟩ := h.exists_block hb
    rw [hops, hg.unreachable hb (hreachable ▸ hr), List.flatMap_nil]
  · intro b block' hb hr
    obtain ⟨block, hb, hreachable, hops⟩ := h.exists_block hb
    obtain ⟨id, op, hlast, hopid, hc⟩ := hg.last hb (hreachable ▸ hr)
    exact ⟨id, op, hops ▸ getLast?_flatMap_splice hlast (hne hopid hc),
      (h.op (.inl (hne hopid hc)) (op_eq_some_lt hopid)).trans hopid, hc⟩
  · intro b block' id op hb hid hopid hc
    obtain ⟨block, hb, hreachable, hops⟩ := h.exists_block hb
    rw [hops] at hid ⊢
    obtain ⟨hnot, -⟩ | ⟨hmem, hopid⟩ := hop hb hid hopid
    · simp [hnot] at hc
    · exact getLast?_flatMap_splice (hg.control hb hmem hopid hc) (hne hopid hc)
  · intro id op hid hopid
    obtain ⟨b, block', hb, hid⟩ := mem_attached.mp hid
    obtain ⟨block, hb, -, hops⟩ := h.exists_block hb
    rw [hops] at hid
    refine fits_of_graph (fun _ => h.exists_reachable) (fun v _ => by simp [var, h.vars]) ?_
    obtain ⟨-, hfits⟩ | ⟨hmem, hopid⟩ := hop hb hid hopid
    · exact hfits
    · exact hg.fits (mem_attached.mpr ⟨b, block, hb, hmem⟩) hopid

theorem WellShaped.of_blocks_eq (hg : g.WellShaped) (hlinked : g'.Linked)
    (hblocks : g'.blocks = g.blocks) (hentry : g'.entry = g.entry)
    (hop : ∀ {id op'}, id ∈ g.attached → g'.op id = some op' →
      (∃ op, g.op id = some op ∧ op'.kind = op.kind) ∧ op'.Fits g') : g'.WellShaped := by
  have hblock : ∀ b, g'.block b = g.block b := fun b => by simp [block, hblocks]
  have hattached : g'.attached = g.attached := by simp [attached, hblocks]
  refine ⟨hlinked, by rw [hentry, hblock]; exact hg.entry,
    fun hb hr => hg.unreachable (hblock _ ▸ hb) hr, ?_, ?_,
    fun hid hopid => (hop (hattached ▸ hid) hopid).2⟩
  · intro b block hb hr
    rw [hblock] at hb
    obtain ⟨id, op, hlast, hopid, hc⟩ := hg.last hb hr
    have hid : id ∈ g.attached := mem_attached.mpr ⟨b, block, hb, List.mem_of_getLast? hlast⟩
    obtain ⟨op', -, hop', -⟩ := hlinked.exists_op_of_mem (hattached ▸ hid)
    obtain ⟨⟨op₀, hop₀, hkind⟩, -⟩ := hop hid hop'
    obtain rfl : op₀ = op := Option.some.inj (hop₀.symm.trans hopid)
    exact ⟨id, op', hlast, hop', by rwa [Operator.isControl, hkind]⟩
  · intro b block id op' hb hid hop' hc
    rw [hblock] at hb
    obtain ⟨⟨op, hopid, hkind⟩, -⟩ := hop (mem_attached.mpr ⟨b, block, hb, hid⟩) hop'
    exact hg.control hb hid hopid (by rwa [Operator.isControl, ← hkind])

def LiveExpr (g : Graph) (e : Expr) : Prop :=
  ∀ v, e = .var v → ∃ info, g.var v = some info ∧ info.dropped = false

theorem mem_reads {v : VarId} : v ∈ op.reads ↔ .var v ∈ op.args := by
  simp [Operator.reads, Expr.var?_eq_some]

theorem liveExpr_of_fits (h : op.Fits g) {e : Expr} (he : e ∈ op.args) : g.LiveExpr e := by
  rintro v rfl
  exact h.live v (List.mem_append_left _ (mem_reads.mpr he))

theorem fits_substitute (h : op.Fits g) (v : VarId) {e : Expr} (he : g.LiveExpr e) :
    (op.substitute v e).Fits g where
  args := fun ha => by simpa [Operator.substitute] using h.args ha
  results := h.results
  targets := h.targets
  live := fun w hw => by
    obtain hw | hw := List.mem_append.mp hw
    · rw [mem_reads] at hw
      simp only [Operator.substitute, List.mem_map] at hw
      obtain ⟨a, ha, hw⟩ := hw
      split at hw
      · exact he w hw
      · exact liveExpr_of_fits h ha w hw
    · exact h.live w (List.mem_append_right _ hw)
  written := h.written

theorem WellShaped.rewired (hg : g.WellShaped) {v : VarId} {e : Expr}
    (h : g.Rewired g' ids v e) (he : g.LiveExpr e) : g'.WellShaped := by
  have hvar : ∀ v, g'.var v = g.var v := fun v => by simp [var, h.vars]
  have hblock : ∀ b, g'.block b = g.block b := fun b => by simp [block, h.blocks]
  refine hg.of_blocks_eq (h.grows hg.linked).1 h.blocks h.entry fun {id op'} hid hop' => ?_
  obtain ⟨op, -, hopid, -⟩ := hg.linked.exists_op_of_mem hid
  have hfits := hg.fits hid hopid
  rw [h.op, hopid] at hop'
  split at hop'
  · obtain rfl : op.substitute v e = op' := by simpa using hop'
    exact ⟨⟨op, hopid, rfl⟩,
      fits_of_graph (fun b hb => hblock b ▸ hb) (fun v _ => hvar v) (fits_substitute hfits v he)⟩
  · obtain rfl : op = op' := by simpa using hop'
    exact ⟨⟨op, hopid, rfl⟩, fits_of_graph (fun b hb => hblock b ▸ hb) (fun v _ => hvar v) hfits⟩

theorem WellShaped.addVar (hg : g.WellShaped) (kind : VarKind) (t : TypeId) :
    (g.addVar kind t).2.WellShaped := by
  refine hg.of_blocks_eq (hg.linked.addVar kind t) rfl rfl fun {id op} hid hop => ?_
  have hfits := hg.fits hid hop
  refine ⟨⟨op, hop, rfl⟩, fits_of_graph (g := g) (fun _ hb => hb) (fun v hv => ?_) hfits⟩
  obtain ⟨info, hinfo, -⟩ := hfits.live v hv
  rw [var_addVar, if_neg (Nat.ne_of_lt (var_eq_some_lt hinfo))]

theorem WellShaped.stripResult (hg : g.WellShaped) (target : OpId) (v : VarId) :
    (g.stripResult target v).WellShaped := by
  refine hg.of_blocks_eq (hg.linked.stripResult target v) rfl rfl fun {id op'} hid hop' => ?_
  obtain ⟨op, -, hop, -⟩ := hg.linked.exists_op_of_mem hid
  have hfits := hg.fits hid hop
  simp only [Graph.stripResult, op_bump, op_modifyOp, hop] at hop'
  split at hop'
  · obtain rfl : op.withoutResult v = op' := by simpa using hop'
    refine ⟨⟨op, hop, rfl⟩, hfits.args, ?_, hfits.targets, fun w hw => ?_, fun w hw => ?_⟩
    · exact Nat.le_trans (List.length_filter_le _ _) hfits.results
    · obtain hw | hw := List.mem_append.mp hw
      · exact hfits.live w (List.mem_append_left _ hw)
      · exact hfits.live w (List.mem_append_right _ (List.mem_filter.mp hw).1)
    · exact hfits.written w (List.mem_filter.mp hw).1
  · obtain rfl : op = op' := by simpa using hop'
    exact ⟨⟨op, hop, rfl⟩, hfits.args, hfits.results, hfits.targets, hfits.live, hfits.written⟩

theorem op_dropUnmentioned (id : OpId) : g.dropUnmentioned.2.op id = g.op id := by
  unfold Graph.dropUnmentioned
  dsimp only
  split <;> rfl

theorem attached_dropUnmentioned : g.dropUnmentioned.2.attached = g.attached := by
  unfold Graph.dropUnmentioned
  dsimp only
  split <;> rfl

theorem WellShaped.dropUnmentioned (hg : g.WellShaped) : g.dropUnmentioned.2.WellShaped := by
  unfold Graph.dropUnmentioned
  dsimp only
  split
  · exact hg
  · refine hg.of_blocks_eq (hg.linked.of_blocks_eq (fun _ => rfl) fun _ => rfl) rfl rfl
      fun {id op} hid hop => ?_
    have hop : g.op id = some op := hop
    refine ⟨⟨op, hop, rfl⟩, fits_of_graph (g := g) (fun _ hb => hb) (fun v hv => ?_)
      (hg.fits hid hop)⟩
    have hmentioned : v ∈ g.mentioned := mem_mentioned.mpr ⟨id, hid, op, hop, hv⟩
    simp only [var_bump]
    cases hinfo : g.var v with
    | none => simpa [var] using hinfo
    | some info =>
      have hinfo' : g.vars[v.index]? = some info := hinfo
      simp [var, hinfo', isUnmentioned, hmentioned]

def targetsFrom (g : Graph) (b : BlockId) : List BlockId :=
  g.targetsOf ((g.block b).elim [] (·.ops))

theorem notMem_explore_of_mem {unseen work : List BlockId} (hunseen : unseen.Nodup) {b : BlockId}
    (hb : b ∈ work) : b ∉ g.explore unseen work := by
  fun_induction explore g unseen work with
  | case1 => cases hb
  | case2 unseen c work hc ih =>
    obtain rfl | hb := List.mem_cons.mp hb
    · exact fun h => hunseen.not_mem_erase (mem_of_mem_explore h)
    · exact ih (hunseen.erase c) (List.mem_append_right _ hb)
  | case3 unseen c work hc ih =>
    obtain rfl | hb := List.mem_cons.mp hb
    · exact fun h => hc (mem_of_mem_explore h)
    · exact ih hunseen hb

/-- What is explored is closed: the targets of a block that was seen are seen as well. -/
theorem notMem_explore_of_target {unseen work : List BlockId} (hunseen : unseen.Nodup)
    (hseen : ∀ b, b ∉ unseen → ∀ t ∈ g.targetsFrom b, t ∉ unseen ∨ t ∈ work) {b t : BlockId}
    (hb : b ∉ g.explore unseen work) (ht : t ∈ g.targetsFrom b) : t ∉ g.explore unseen work := by
  fun_induction explore g unseen work with
  | case1 => exact (hseen b hb t ht).resolve_right List.not_mem_nil
  | case2 unseen c work hc ih =>
    refine ih (hunseen.erase c) (fun b hb t ht => ?_) hb
    by_cases hbc : b = c
    · subst hbc
      exact .inr (List.mem_append_left _ ht)
    · obtain h | h := hseen b (fun h => hb ((List.mem_erase_of_ne hbc).mpr h)) t ht
      · exact .inl fun h' => h (List.mem_of_mem_erase h')
      · obtain rfl | h := List.mem_cons.mp h
        · exact .inl hunseen.not_mem_erase
        · exact .inr (List.mem_append_right _ h)
  | case3 unseen c work hc ih =>
    refine ih hunseen (fun b hb t ht => ?_) hb
    obtain h | h := hseen b hb t ht
    · exact .inl h
    · obtain rfl | h := List.mem_cons.mp h
      · exact .inl hc
      · exact .inr h

theorem of_notMem_explore {P : BlockId → Prop} (hstep : ∀ b, P b → ∀ t ∈ g.targetsFrom b, P t)
    {unseen work : List BlockId} (hwork : ∀ b ∈ work, P b) {b : BlockId} (hb : b ∈ unseen)
    (h : b ∉ g.explore unseen work) : P b := by
  fun_induction explore g unseen work with
  | case1 => exact absurd hb h
  | case2 unseen c work hc ih =>
    have hc' : P c := hwork c List.mem_cons_self
    by_cases hbc : b = c
    · exact hbc ▸ hc'
    · refine ih (fun d hd => ?_) ((List.mem_erase_of_ne hbc).mpr hb) h
      obtain hd | hd := List.mem_append.mp hd
      · exact hstep c hc' d hd
      · exact hwork d (List.mem_cons_of_mem _ hd)
  | case3 unseen c work hc ih => exact ih (fun d hd => hwork d (List.mem_cons_of_mem _ hd)) hb h

theorem nodup_blockIds : g.blockIds.Nodup :=
  List.nodup_range.map fun _ _ h => by simpa using h

theorem entry_notMem_unreached : g.entry ∉ g.unreached :=
  notMem_explore_of_mem nodup_blockIds (List.mem_singleton.mpr rfl)

theorem target_notMem_unreached {b t : BlockId} (hb : b ∉ g.unreached)
    (ht : t ∈ g.targetsFrom b) : t ∉ g.unreached := by
  refine notMem_explore_of_target nodup_blockIds (fun b hb t ht => ?_) hb ht
  have hnone : g.block b = none := by
    by_contra hsome
    obtain ⟨block, hblock⟩ := Option.ne_none_iff_exists'.mp hsome
    exact hb ((mem_blockIds g).mpr (block_eq_some_lt hblock))
  simp [targetsFrom, hnone, targetsOf] at ht

theorem isControl_of_mem_targets {t : BlockId} (ht : t ∈ op.targets) : op.isControl := by
  unfold Operator.targets OpKind.targets at ht
  unfold Operator.isControl OpKind.isControl
  split at ht <;> simp_all

theorem WellShaped.mem_targetsFrom (hg : g.WellShaped) {b t : BlockId} {block : Block}
    (hb : g.block b = some block) (hid : id ∈ block.ops) (hop : g.op id = some op)
    (ht : t ∈ op.targets) : t ∈ g.targetsFrom b := by
  have hlast := hg.control hb hid hop (isControl_of_mem_targets ht)
  simpa [targetsFrom, hb, targetsOf, hlast, hop] using ht

theorem WellShaped.reachable_of_target (hg : g.WellShaped) {b t : BlockId}
    (ht : t ∈ g.targetsFrom b) : ∃ block, g.block t = some block ∧ block.reachable := by
  unfold targetsFrom targetsOf at ht
  split at ht
  · rename_i op hop
    obtain ⟨id, hid, hop⟩ := Option.bind_eq_some_iff.mp hop
    cases hb : g.block b with
    | none => simp [hb] at hid
    | some block =>
      rw [hb] at hid
      have hmem : id ∈ g.attached := mem_attached.mpr ⟨b, block, hb, List.mem_of_getLast? hid⟩
      exact (hg.fits hmem hop).targets t ht
  · cases ht

/-- Control only reaches blocks that are marked reachable. -/
theorem WellShaped.reachable_of_reached (hg : g.WellShaped) {b : BlockId} {block : Block}
    (hb : g.block b = some block) (h : b ∉ g.unreached) : block.reachable := by
  have hreach : ∃ block, g.block b = some block ∧ block.reachable :=
    of_notMem_explore (fun _ _ t ht => hg.reachable_of_target ht)
      (fun d hd => by rw [List.mem_singleton.mp hd]; exact hg.entry)
      ((mem_blockIds g).mpr (block_eq_some_lt hb)) h
  obtain ⟨block', hb', hr⟩ := hreach
  rwa [Option.some.inj (hb.symm.trans hb')]

theorem exists_block_of_updateReachability {b : BlockId} {block' : Block}
    (hb : g.updateReachability.2.block b = some block') : ∃ block, g.block b = some block ∧
      (b ∈ g.unreached ∧ block'.ops = [] ∧ block'.reachable = false ∨
        b ∉ g.unreached ∧ block'.ops = block.ops ∧ block'.reachable = true) := by
  rw [block_updateReachability] at hb
  obtain ⟨block, hblock, rfl⟩ := Option.map_eq_some_iff.mp hb
  refine ⟨block, hblock, ?_⟩
  by_cases hu : b ∈ g.unreached
  · exact .inl ⟨hu, by simp [hu]⟩
  · exact .inr ⟨hu, by simp [hu]⟩

theorem exists_reachable_of_notMem_unreached {b : BlockId} {block : Block}
    (hb : g.block b = some block) (hu : b ∉ g.unreached) :
    ∃ block', g.updateReachability.2.block b = some block' ∧ block'.reachable :=
  ⟨{ block with reachable := true }, by simp [block_updateReachability, hb, hu], rfl⟩

theorem exists_op_of_updateReachability {id : OpId} {op' : Operator}
    (hop' : g.updateReachability.2.op id = some op') : ∃ op, g.op id = some op ∧ op.code = op'.code := by
  rw [op_updateReachability] at hop'
  split at hop'
  · obtain ⟨op, hop, rfl⟩ := Option.map_eq_some_iff.mp hop'
    exact ⟨op, hop, rfl⟩
  · exact ⟨op', hop', rfl⟩

theorem WellShaped.updateReachability (hg : g.WellShaped) :
    g.updateReachability.2.WellShaped := by
  refine ⟨hg.linked.updateReachability, ?_, ?_, ?_, ?_, ?_⟩
  · obtain ⟨block, hb, -⟩ := hg.entry
    rw [entry_updateReachability]
    exact exists_reachable_of_notMem_unreached hb entry_notMem_unreached
  · intro b block' hb hr
    obtain ⟨block, -, ⟨-, hops, -⟩ | ⟨-, -, hr'⟩⟩ := exists_block_of_updateReachability hb
    · exact hops
    · rw [hr'] at hr
      cases hr
  · intro b block' hb hr
    obtain ⟨block, hb, ⟨-, -, hr'⟩ | ⟨hu, hops, -⟩⟩ := exists_block_of_updateReachability hb
    · rw [hr'] at hr
      cases hr
    · obtain ⟨id, op, hlast, hop, hc⟩ := hg.last hb (hg.reachable_of_reached hb hu)
      have hlt : id.index < g.updateReachability.2.ops.size := by simpa using op_eq_some_lt hop
      obtain ⟨op', hop'⟩ := exists_op hlt
      obtain ⟨op₀, hop₀, hcode⟩ := exists_op_of_updateReachability hop'
      obtain rfl : op₀ = op := Option.some.inj (hop₀.symm.trans hop)
      exact ⟨id, op', hops ▸ hlast, hop', by rw [isControl_of_code hcode]; exact hc⟩
  · intro b block' id op' hb hid hop' hc
    obtain ⟨block, hb, ⟨-, hops, -⟩ | ⟨-, hops, -⟩⟩ := exists_block_of_updateReachability hb
    · simp [hops] at hid
    · obtain ⟨op, hop, hcode⟩ := exists_op_of_updateReachability hop'
      rw [hops] at hid ⊢
      exact hg.control hb hid hop (by rwa [← isControl_of_code hcode])
  · intro id op' hid hop'
    obtain ⟨b, block', hb, hid⟩ := mem_attached.mp hid
    obtain ⟨block, hb, ⟨-, hops, -⟩ | ⟨hu, hops, -⟩⟩ := exists_block_of_updateReachability hb
    · simp [hops] at hid
    · rw [hops] at hid
      obtain ⟨op, hop, hcode⟩ := exists_op_of_updateReachability hop'
      have hfits := hg.fits (mem_attached.mpr ⟨b, block, hb, hid⟩) hop
      refine fits_of_code hcode ⟨hfits.args, hfits.results, fun t ht => ?_, ?_, ?_⟩
      · obtain ⟨block, hblock, -⟩ := hfits.targets t ht
        exact exists_reachable_of_notMem_unreached hblock
          (target_notMem_unreached hu (hg.mem_targetsFrom hb hid hop ht))
      · simpa [Graph.var] using hfits.live
      · simpa [Graph.var] using hfits.written

end Graph
end ScalarLowering
