import ScalarLowering.Program.Text
import ScalarLowering.Proofs.Depletion

/-! Lowering a second time. Once a run has gone through an orderly graph, no wrapper operation is
left that a run would lower: the batches leave none, the steps after them make none, and what they
pass over because nobody reads its result goes with the dead variables. A second run then only takes
snapshots, which the printout does not show. -/

namespace ScalarLowering

namespace Graph

variable {g g' : Graph} {p : Pool} {c : Chains} {id : OpId} {op : Operator} {b : BlockId} {v : VarId}
  {w : WrapperUse}

theorem SameCode.text (h : g.SameCode g') (hname : g'.name = g.name) : g'.text p = g.text p := by
  have hany : ∀ (f : Variable → Bool), (∀ info, f { info with index := none } = f info) →
      ∀ v, (g'.var v).any f = (g.var v).any f := by
    intro f hf v
    have hmap := congrArg (Option.any f) (h.var v)
    simpa only [Option.any_map, Function.comp_def, hf] using hmap
  have hargument := hany Variable.isArgument fun _ => rfl
  have hdropped := hany Variable.dropped fun _ => rfl
  have hvar : g'.varText p = g.varText p := by
    funext v
    have htype := congrArg (Option.map Variable.type) (h.var v)
    simp only [Option.map_map, Function.comp_def] at htype
    cases hv : g.var v <;> cases hv' : g'.var v <;> simp_all [varText]
  have hblocks : g'.blockText p = g.blockText p := by
    funext b
    simp only [blockText, h.block_eq, h.op_eq]
  simp only [Graph.text, Graph.varIds, h.size_vars, hargument, hdropped, hvar, h.block_eq, hblocks,
    Graph.blockIds, h.blocks, hname]

theorem WellShaped.reachable_of_reaches (hg : g.WellShaped) (h : g.Reaches b) :
    ∃ block, g.block b = some block ∧ block.reachable := by
  cases h with
  | entry => exact hg.entry
  | target _ hb hlast hop ht _ =>
    exact (hg.fits (mem_attached.mpr ⟨_, _, hb, List.mem_of_getLast? hlast⟩) hop).targets _ ht

theorem Tended.updateReachability_eq (hg : g.Tended p) : g.updateReachability = (0, g) := by
  have hunmarked : ∀ {b block}, b ∈ g.unreached → g.block b = some block →
      block.reachable = false := by
    intro b block hu hb
    by_contra hr
    exact (mem_unreached_iff.mp hu).2 (hg.marked hb (by simpa using hr))
  refine updateReachability_eq_self (List.filter_eq_nil_iff.mpr fun b hu => ?_) fun {b block} hb => ?_
  · obtain ⟨block, hb⟩ := exists_block (mem_unreached_iff.mp hu).1
    simp [hb, hg.unreachable hb (hunmarked hu hb)]
  · split
    · rename_i hu
      have hr := hunmarked hu hb
      rw [← hg.unreachable hb hr, ← hr]
    · rename_i hu
      have hreaches : g.Reaches b := by
        by_contra hnot
        exact hu (mem_unreached_iff.mpr ⟨block_eq_some_lt hb, hnot⟩)
      obtain ⟨block', hb', hr⟩ := hg.reachable_of_reaches hreaches
      obtain rfl := Option.some.inj (hb.symm.trans hb')
      rw [← hr]

/-- A graph that verifies and has code is in good shape, if what is reached was looked for. -/
theorem tended_of_verify (hg : g.Linked) (hverify : g.verify = .ok ())
    (hmarks : g.updateReachability = (0, g)) (horderly : g.Orderly p) (hcode : g.attached ≠ []) :
    g.Tended p := by
  have hreached : ∀ {b block}, g.Reaches b → g.block b = some block → block.reachable := by
    intro b block hr hb
    have hblock := block_of_reaches hr
    rw [hmarks, hb, Option.map_some, Option.some.injEq] at hblock
    rw [hblock]
  have hunreached : ∀ {b block}, ¬g.Reaches b → g.block b = some block →
      block.ops = [] ∧ block.reachable = false := by
    intro b block hr hb
    have hblock := block_of_not_reaches hr
    rw [hmarks, hb, Option.map_some, Option.some.injEq] at hblock
    rw [hblock]
    exact ⟨rfl, rfl⟩
  have hmarked : ∀ {b block}, g.block b = some block → block.reachable → g.Reaches b := by
    intro b block hb hr
    by_contra hnot
    simp [(hunreached hnot hb).2] at hr
  have hentry : ∃ block, g.block g.entry = some block := by
    obtain ⟨id, hid⟩ := List.exists_mem_of_ne_nil _ hcode
    obtain ⟨b, block, hb, hid⟩ := mem_attached.mp hid
    have hr : g.Reaches b := by
      by_contra hnot
      simp [(hunreached hnot hb).1] at hid
    clear hid
    induction hr generalizing block with
    | entry => exact ⟨block, hb⟩
    | target _ hprev _ _ _ _ ih => exact ih _ hprev
  obtain ⟨entry, hentry⟩ := hentry
  refine ⟨shaped_of_verify hg hverify ⟨entry, hentry, hreached .entry hentry⟩
    fun {b block} hb hr => ?_, horderly, hmarked⟩
  have hnot : ¬g.Reaches b := fun hreaches => by simp [hreached hreaches hb] at hr
  refine ⟨(hunreached hnot hb).1, fun {b' block'} hb' hr' ht => hnot ?_⟩
  obtain ⟨op, hop, ht⟩ : ∃ op, block'.last?.bind g.op = some op ∧ b ∈ op.targets := by
    unfold targetsOf at ht
    split at ht
    · exact ⟨_, ‹_›, ht⟩
    · cases ht
  obtain ⟨id, hlast, hop⟩ := Option.bind_eq_some_iff.mp hop
  exact (hmarked hb' hr').target hb' hlast hop ht (block_eq_some_lt hb)

/-- Nothing is left to lower but what nobody reads. -/
structure Depleted (g : Graph) (p : Pool) : Prop extends Tended g p where
  pending : ∀ w id, ¬g.Pending p w id

theorem Advances.depleted (h : g.Advances g' p) (hg : g.Depleted p) : g'.Depleted p :=
  ⟨h.tended, fun w id hp => hg.pending w id (h.pending hp)⟩

theorem stepInvariant_depleted (p : Pool) : StepInvariant p (Depleted · p) where
  sameCode h hg' hg := (hg.advances_sameCode h hg'.linked).depleted hg
  constructor _ hc hg h := (Edit.advances_lowerConstructor hc hg.toTended h).1.depleted hg
  equality _ hc hg h := (Edit.advances_lowerEquality hc hg.toTended h).1.depleted hg
  fieldLoad _ hc hg h := (Edit.advances_lowerFieldLoad hc hg.toTended h).1.depleted hg
  fieldAddress _ hc hg h := (Edit.advances_lowerFieldAddress hc hg.toTended h).1.depleted hg
  localAddress haddress _ hc hg h := (Edit.advances_foldLocal hc hg.toTended haddress h).depleted hg
  placeAddress _ hc hg h := (Edit.advances_foldPlace hc hg.toTended (hg.pending _ _) h).depleted hg
  reachability _ hg := by
    rw [hg.updateReachability_eq]
    exact hg

theorem deadInvariant_depleted (p : Pool) : DeadInvariant (Depleted · p) where
  sameCode h hg' hg := (hg.advances_sameCode h hg'.linked).depleted hg
  remove hlinked hg hop hpure hunread hs :=
    (hg.advances_spliced hs hop (isControl_of_isPure hpure) (by simp) fun _ x hx =>
      .inl (Edit.readers_of_erased hlinked hs (hunread x hx))).depleted hg
  strip hlinked hg hid hop hunread hread :=
    (hg.advances_stripResult hunread
      (deadInvariant_shaped.strip hlinked hg.toShaped hid hop hunread hread)).depleted hg
  drop _ hg := hg.advances_dropUnmentioned.depleted hg

theorem SameCode.bind_var {α : Type} {f : Variable → Except Error α} (h : g.SameCode g')
    (hf : ∀ info i, f { info with index := i } = f info) (v : VarId) :
    (liftM (g'.var v) >>= f) = (liftM (g.var v) >>= f) := by
  have hv := h.var v
  cases hold : g.var v with
  | none =>
    rw [hold, Option.map_none, Option.map_eq_none_iff] at hv
    rw [hv]
  | some info =>
    rw [hold, Option.map_some] at hv
    obtain ⟨info', hinfo', heq⟩ := Option.map_eq_some_iff.mp hv
    rw [hinfo', Error.lift_some_bind, Error.lift_some_bind, ← hf info none, ← hf info' none, heq]

theorem SameCode.checkOperator (h : g.SameCode g') (id : OpId) (op : Operator) :
    g'.checkOperator id op = g.checkOperator id op := by
  have hdropped := fun v => h.bind_var (v := v)
    (f := fun info => if info.dropped then throw (.graph (.droppedVariable id v)) else pure ())
    fun _ _ => rfl
  have hargument := fun v => h.bind_var (v := v)
    (f := fun info => if info.isArgument then throw (.graph (.definesArgument id v)) else pure ())
    fun _ _ => rfl
  unfold Graph.checkOperator
  simp only [h.blocks, hdropped, hargument]

theorem SameCode.verify (h : g.SameCode g') : g'.verify = g.verify := by
  have hlisted : ∀ b last id, g'.checkListed b last id = g.checkListed b last id := fun b last id => by
    simp only [Graph.checkListed, h.op_eq, h.checkOperator]
  have hblock : ∀ b ids, g'.checkBlock b ids = g.checkBlock b ids := fun b ids => by
    simp only [Graph.checkBlock, funext (hlisted b _), h.op_eq]
  simp only [Graph.verify, Graph.blockIds, h.block_eq, h.blocks, hblock]

/-- A graph that a run would leave as it is. -/
structure Settled (g : Graph) (p : Pool) : Prop extends Depleted g p where
  coherent : g.Coherent
  idle : ∀ v, g.Idle v

theorem Tended.batchable (hg : g.Tended p) (hcoherent : g.Coherent) : g.Batchable := by
  refine ⟨hcoherent, fun v hv => ?_⟩
  obtain ⟨id, hid, op, hop, hmem⟩ := mem_mentioned.mp hv
  exact (hg.fits hid hop).live v hmem

theorem Settled.of_sameCode (hg : g.Settled p) (h : g.SameCode g') (hg' : g'.Coherent) :
    g'.Settled p :=
  ⟨(hg.advances_sameCode h hg'.linked).depleted hg.toDepleted, hg',
    fun v => h.idle_iff.mpr (hg.idle v)⟩

/-- What nobody reads is gone, so that nothing at all is left to lower. -/
theorem Settled.not_lowerable (hg : g.Settled p) (hid : id ∈ g.attached) (hop : g.op id = some op) :
    ¬g.Lowerable p id op w := by
  intro hlower
  refine hg.pending w id ⟨op, hid, hop, hlower, fun x hx hunread => ?_⟩
  obtain ⟨info, hinfo, hdropped, harg⟩ := writable_of_fits (hg.fits hid hop) hx
  have hnone := hg.idle x info hinfo harg hdropped hunread
  have hmem : id ∈ g.definers x := mem_definers.mpr ⟨hid, op, hop, List.contains_iff_mem.mpr hx⟩
  simp [hnone] at hmem

end Graph

namespace Edit

open ScalarLowering.Graph

variable {g g' g₁ : Graph} {p : Pool} {c : Chains} {id : OpId} {w : WrapperUse} {n : Nat}
  {stats stats' : Stats}

theorem lower_eq_ok {verify : Bool} : lower p { verify } g = .ok stats g' ↔ ∃ stats₁ g₁,
    lowerWrappers p {} g = .ok stats₁ g₁ ∧
      (if stats₁.modified then cleanUp p {} stats₁ else pure stats₁ : Edit Stats) g₁ =
        .ok stats g' ∧ (verify → g'.verify = .ok ()) :=
  lower_eq_ok_iff

theorem lowerWrappers_eq_ok : lowerWrappers p {} g = .ok stats g' ↔ ∃ n₁ g₁ n₂ g₂ n₃ g₃ n₄,
    WrapperUse.constructor.batch p g = .ok n₁ g₁ ∧ WrapperUse.equality.batch p g₁ = .ok n₂ g₂ ∧
      WrapperUse.load.batch p g₂ = .ok n₃ g₃ ∧ WrapperUse.address.batch p g₃ = .ok n₄ g' ∧
      stats = { constructors := n₁, equality := n₂, fieldLoads := n₃, fieldAddresses := n₄ } := by
  rw [lowerWrappers_eq]
  constructor
  · intro h
    obtain ⟨n₁, g₁, h₁, h⟩ := bind_eq_ok.mp h
    obtain ⟨n₂, g₂, h₂, h⟩ := bind_eq_ok.mp h
    obtain ⟨n₃, g₃, h₃, h⟩ := bind_eq_ok.mp h
    obtain ⟨n₄, g₄, h₄, h⟩ := bind_eq_ok.mp h
    obtain ⟨rfl, rfl⟩ := pure_eq_ok.mp h
    exact ⟨n₁, g₁, n₂, g₂, n₃, g₃, n₄, h₁, h₂, h₃, h₄, rfl⟩
  · rintro ⟨n₁, g₁, n₂, g₂, n₃, g₃, n₄, h₁, h₂, h₃, h₄, rfl⟩
    refine bind_eq_ok.mpr ⟨n₁, g₁, h₁, bind_eq_ok.mpr ⟨n₂, g₂, h₂, ?_⟩⟩
    refine bind_eq_ok.mpr ⟨n₃, g₃, h₃, bind_eq_ok.mpr ⟨n₄, g', h₄, ?_⟩⟩
    exact pure_eq_ok.mpr ⟨rfl, rfl⟩

theorem modified_cleanUp (h : cleanUp p {} stats g = .ok stats' g') :
    stats'.modified = stats.modified ∧ ∃ m n g₁, foldRoundTrips p g.updateReachability.2 = .ok m g₁ ∧
      eliminateDead g₁ = .ok n g' := by
  obtain ⟨_, g₁, hreach, h⟩ := bind_eq_ok.mp h
  obtain rfl : g.updateReachability.2 = g₁ := congrArg Prod.snd (modifyGet_eq_ok.mp hreach)
  obtain ⟨m, g₂, hfold, h⟩ := bind_eq_ok.mp h
  obtain ⟨n, g₃, hdead, h⟩ := bind_eq_ok.mp h
  obtain ⟨rfl, rfl⟩ := pure_eq_ok.mp h
  exact ⟨rfl, m, n, g₂, hfold, hdead⟩

theorem depleted_lowerWrappers (hg : g.Batchable) (hT : g.Tended p)
    (h : lowerWrappers p {} g = .ok stats g') : g'.Batchable ∧ g'.Depleted p := by
  obtain ⟨n₁, g₁, n₂, g₂, n₃, g₃, n₄, h₁, h₂, h₃, h₄, -⟩ := lowerWrappers_eq_ok.mp h
  obtain ⟨hg₁, ha₁, hnone₁⟩ := advances_batch hg hT h₁
  obtain ⟨hg₂, ha₂, hnone₂⟩ := advances_batch hg₁ ha₁.tended h₂
  obtain ⟨hg₃, ha₃, hnone₃⟩ := advances_batch hg₂ ha₂.tended h₃
  obtain ⟨hg₄, ha₄, hnone₄⟩ := advances_batch hg₃ ha₃.tended h₄
  refine ⟨hg₄, ha₄.tended, fun w id hp => ?_⟩
  cases w with
  | constructor => exact hnone₁ id (ha₂.pending (ha₃.pending (ha₄.pending hp)))
  | equality => exact hnone₂ id (ha₃.pending (ha₄.pending hp))
  | load => exact hnone₃ id (ha₄.pending hp)
  | address => exact hnone₄ id hp

theorem settled_cleanUp (hg : g.Batchable) (hD : g.Depleted p)
    (h : cleanUp p {} stats g = .ok stats' g') : g'.Settled p := by
  obtain ⟨-, m, n, g₁, hfold, hdead⟩ := modified_cleanUp h
  rw [hD.updateReachability_eq] at hfold
  obtain ⟨hg₁, hD₁⟩ := foldRoundTrips_induction (stepInvariant_depleted p) ⟨hg.coherent, hD⟩ hfold
  obtain ⟨hg', hD'⟩ := eliminateDead_induction (deadInvariant_depleted p) ⟨hg₁, hD₁⟩ hdead
  refine ⟨hD', hg', ?_⟩
  have hbatchable : g₁.Batchable := (obeys_foldRoundTrips hg).ok hfold
  obtain ⟨u, g₂, hrounds, -, -, hidle⟩ := ensures_deadRounds hbatchable (Nat.lt_succ_self _)
  obtain ⟨k, hk, hdead⟩ := query_bind_eq_ok.mp hdead
  obtain rfl := Except.ok.inj hk
  rw [bind_of_ok hrounds, modifyGet_eq_ok] at hdead
  obtain rfl : g₂.dropUnmentioned.2 = g' := congrArg Prod.snd hdead
  exact fun v => idle_dropUnmentioned (hidle v)

theorem name_of_snapshot (h : snapshot g = .ok c g') : g'.name = g.name := by
  obtain ⟨-, -, rfl⟩ | ⟨-, h⟩ := snapshot_eq_ok.mp h
  · rfl
  · obtain ⟨-, rfl⟩ := refresh_eq_some.mp h
    rfl

theorem sweep_of_unchanged {α : Type} {edit : α → Edit Bool} {as : List α}
    (h : ∀ a ∈ as, edit a g = .ok false g) : sweep edit as g = .ok 0 g := by
  induction as with
  | nil => rfl
  | cons a as ih =>
    refine bind_eq_ok.mpr ⟨false, g, h a List.mem_cons_self, bind_eq_ok.mpr ⟨0, g, ?_, rfl⟩⟩
    exact ih fun b hb => h b (List.mem_cons_of_mem _ hb)

/-- A batch finds nothing to do in a settled graph. -/
theorem batch_of_settled (w : WrapperUse) (hg : g.Settled p) :
    ∃ g', w.batch p g = .ok 0 g' ∧ g'.Settled p ∧ g.SameCode g' ∧ g'.name = g.name := by
  obtain ⟨c, g₁, hsnapshot⟩ := exists_snapshot (hg.batchable hg.coherent).mentionsKnown
  obtain ⟨hexact, hg₁, hcode⟩ := snapshot_spec hg.coherent hsnapshot
  have hg₂ : g₁.checkpointed.Settled p :=
    hg.of_sameCode hcode.checkpointed (Move.checkpoint.steady hg₁)
  have hc : Ready c g₁.checkpointed :=
    (hg₂.batchable hg₂.coherent).ready (hexact.of_sameScans ⟨rfl, rfl, rfl, rfl⟩)
  have hname : g₁.checkpointed.name = g.name := (name_of_snapshot hsnapshot :)
  refine ⟨g₁.checkpointed, batch_eq_ok.mpr ⟨c, g₁, hsnapshot, sweep_of_unchanged fun id hid => ?_, ?_⟩,
    hg₂, hcode.checkpointed, hname⟩
  · obtain ⟨hid, htest⟩ := List.mem_filter.mp hid
    obtain ⟨op, hop, -⟩ := (Option.any_eq_true _ _).mp htest
    exact edit_of_declines
      (declines_of_not_lowerable hc hg₂.toTended hid hop (hg₂.not_lowerable hid hop))
  · simp [checkCheckpoint, checkpointed]

/-- A run leaves a settled graph as it is, but for the snapshots it takes. -/
theorem lower_of_settled {verify : Bool} (hg : g.Settled p) (hverify : verify → g.verify = .ok ()) :
    ∃ g', lower p { verify } g = .ok {} g' ∧ g'.text p = g.text p := by
  obtain ⟨g₁, h₁, hg₁, hcode₁, hname₁⟩ := batch_of_settled .constructor hg
  obtain ⟨g₂, h₂, hg₂, hcode₂, hname₂⟩ := batch_of_settled .equality hg₁
  obtain ⟨g₃, h₃, hg₃, hcode₃, hname₃⟩ := batch_of_settled .load hg₂
  obtain ⟨g₄, h₄, hg₄, hcode₄, hname₄⟩ := batch_of_settled .address hg₃
  have hwrappers : lowerWrappers p {} g = .ok {} g₄ :=
    lowerWrappers_eq_ok.mpr ⟨0, g₁, 0, g₂, 0, g₃, 0, h₁, h₂, h₃, h₄, rfl⟩
  have hcode : g.SameCode g₄ := ((hcode₁.trans hcode₂).trans hcode₃).trans hcode₄
  have hname : g₄.name = g.name := hname₄.trans (hname₃.trans (hname₂.trans hname₁))
  exact ⟨g₄, lower_eq_ok.mpr ⟨{}, g₄, hwrappers, rfl, fun h => hcode.verify.trans (hverify h)⟩,
    hcode.text hname⟩

/-- A snapshot and a checkpoint would be the ones there are. -/
def Steadied (g : Graph) : Prop := (∃ c, snapshot g = .ok c g) ∧ g.checkpointed = g

theorem bind_true_ne_false {α : Type} {x : Edit α} : (x >>= fun _ => pure true) g ≠ .ok false g' := by
  intro h
  obtain ⟨_, g₁, -, h⟩ := bind_eq_ok.mp h
  cases (pure_eq_ok.mp h).1

theorem edit_eq_false (h : w.edit p c id g = .ok false g') : g' = g := by
  cases w with
  | constructor =>
    obtain ⟨found, -, h⟩ := query_bind_eq_ok.mp h
    cases found with
    | none => exact (pure_eq_ok.mp h).2.symm
    | some copy => exact absurd h bind_true_ne_false
  | equality =>
    obtain ⟨found, -, h⟩ := query_bind_eq_ok.mp h
    cases found with
    | none => exact (pure_eq_ok.mp h).2.symm
    | some cmp =>
      obtain ⟨_, -, h⟩ := query_bind_eq_ok.mp h
      obtain ⟨_, g₁, -, h⟩ := bind_eq_ok.mp h
      exact absurd h bind_true_ne_false
  | load =>
    obtain ⟨found, -, h⟩ := query_bind_eq_ok.mp h
    cases found with
    | none => exact (pure_eq_ok.mp h).2.symm
    | some read =>
      obtain ⟨_, -, h⟩ := query_bind_eq_ok.mp h
      obtain ⟨_, g₁, -, h⟩ := bind_eq_ok.mp h
      obtain ⟨result, source⟩ := read
      cases source with
      | value e =>
        obtain ⟨_, -, h⟩ := query_bind_eq_ok.mp h
        exact absurd h bind_true_ne_false
      | behind pointer t =>
        obtain ⟨_, g₂, -, h⟩ := bind_eq_ok.mp h
        exact absurd h bind_true_ne_false
  | address =>
    obtain ⟨found, -, h⟩ := query_bind_eq_ok.mp h
    rcases found with _ | ⟨_ | _⟩
    · exact (pure_eq_ok.mp h).2.symm
    · exact absurd h bind_true_ne_false
    · exact absurd h bind_true_ne_false

theorem sweep_eq_zero {α : Type} {edit : α → Edit Bool}
    (hedit : ∀ {a g g'}, edit a g = .ok false g' → g' = g) {as : List α}
    (h : sweep edit as g = .ok 0 g') : g' = g := by
  induction as generalizing g with
  | nil => exact (pure_eq_ok.mp h).2.symm
  | cons a as ih =>
    obtain ⟨done, g₁, ha, h⟩ := bind_eq_ok.mp h
    obtain ⟨rest, g₂, has, h⟩ := bind_eq_ok.mp h
    obtain ⟨hcount, rfl⟩ := pure_eq_ok.mp h
    obtain ⟨rfl, rfl⟩ : done = false ∧ rest = 0 := by
      cases done <;> simp_all
    exact (ih has).trans (hedit ha)

theorem steadied_of_snapshot (h : snapshot g = .ok c g') :
    snapshot g'.checkpointed = .ok c g'.checkpointed := by
  refine snapshot_eq_ok.mpr (.inl ?_)
  obtain ⟨hlatest, hversion, rfl⟩ | ⟨-, h⟩ := snapshot_eq_ok.mp h
  · exact ⟨hlatest, hversion, rfl⟩
  · have hversion := version_of_refresh h
    obtain ⟨-, rfl⟩ := refresh_eq_some.mp h
    exact ⟨rfl, hversion, rfl⟩

/-- A batch that did nothing does nothing again. -/
theorem batch_eq_zero (h : w.batch p g = .ok 0 g') :
    Steadied g' ∧ w.batch p g' = .ok 0 g' ∧ (Steadied g → g' = g) := by
  obtain ⟨c, g₁, hsnapshot, hsweep, hcheck⟩ := batch_eq_ok.mp h
  obtain rfl := sweep_eq_zero edit_eq_false hsweep
  have hsteady := steadied_of_snapshot hsnapshot
  refine ⟨⟨⟨c, hsteady⟩, rfl⟩, batch_eq_ok.mpr ⟨c, _, hsteady, hsweep, hcheck⟩, ?_⟩
  rintro ⟨⟨c', hc'⟩, hcheckpoint⟩
  obtain ⟨-, rfl⟩ := EStateM.Result.ok.inj (hsnapshot.symm.trans hc')
  exact hcheckpoint

/-- A run that lowered nothing does nothing again. -/
theorem lower_of_unmodified {verify : Bool} (h : lower p { verify } g = .ok stats g')
    (hstats : stats.modified = false) : lower p { verify } g' = .ok {} g' := by
  obtain ⟨stats₁, g₁, hwrappers, h, hverify⟩ := lower_eq_ok.mp h
  cases hmodified : stats₁.modified with
  | true =>
    rw [hmodified] at h
    have := (modified_cleanUp h).1
    simp_all
  | false =>
    rw [hmodified] at h
    obtain ⟨rfl, rfl⟩ := pure_eq_ok.mp h
    obtain ⟨n₁, g₁, n₂, g₂, n₃, g₃, n₄, h₁, h₂, h₃, h₄, rfl⟩ := lowerWrappers_eq_ok.mp hwrappers
    obtain ⟨rfl, rfl, rfl, rfl⟩ : n₁ = 0 ∧ n₂ = 0 ∧ n₃ = 0 ∧ n₄ = 0 := by
      simp only [Stats.modified, decide_eq_false_iff_not] at hstats
      omega
    obtain ⟨hs₁, h₁, -⟩ := batch_eq_zero h₁
    obtain ⟨hs₂, h₂, heq₂⟩ := batch_eq_zero h₂
    obtain rfl := heq₂ hs₁
    obtain ⟨hs₃, h₃, heq₃⟩ := batch_eq_zero h₃
    obtain rfl := heq₃ hs₁
    obtain ⟨hs₄, h₄, heq₄⟩ := batch_eq_zero h₄
    obtain rfl := heq₄ hs₁
    have hagain := lowerWrappers_eq_ok.mpr ⟨0, _, 0, _, 0, _, 0, h₁, h₂, h₃, h₄, rfl⟩
    exact lower_eq_ok.mpr ⟨{}, _, hagain, rfl, hverify⟩

theorem batch_of_empty (hg : g.Coherent) (hempty : g.attached = []) (h : w.batch p g = .ok n g') :
    n = 0 ∧ g'.Coherent ∧ g'.attached = [] := by
  obtain ⟨c, g₁, hsnapshot, hsweep, -⟩ := batch_eq_ok.mp h
  obtain ⟨-, hg₁, hcode⟩ := snapshot_spec hg hsnapshot
  have hempty₁ : g₁.attached = [] := by rw [hcode.attached_eq, hempty]
  rw [attachedWhere, hempty₁] at hsweep
  obtain ⟨rfl, rfl⟩ := pure_eq_ok.mp hsweep
  exact ⟨rfl, Move.checkpoint.steady hg₁, hempty₁⟩

theorem attached_of_modified (hg : g.Coherent) (h : lowerWrappers p {} g = .ok stats g')
    (hstats : stats.modified) : g.attached ≠ [] := by
  intro hempty
  obtain ⟨n₁, g₁, n₂, g₂, n₃, g₃, n₄, h₁, h₂, h₃, h₄, rfl⟩ := lowerWrappers_eq_ok.mp h
  obtain ⟨rfl, hg₁, hempty₁⟩ := batch_of_empty hg hempty h₁
  obtain ⟨rfl, hg₂, hempty₂⟩ := batch_of_empty hg₁ hempty₁ h₂
  obtain ⟨rfl, hg₃, hempty₃⟩ := batch_of_empty hg₂ hempty₂ h₃
  obtain ⟨rfl, -, -⟩ := batch_of_empty hg₃ hempty₃ h₄
  cases hstats

/-- A run on an orderly graph is enough: a second one succeeds, lowers nothing and does not change
the printout. The same holds of every graph in which the first run found nothing to lower. -/
theorem lower_idempotent {p : Pool} {stats : Stats} (verify : Bool) (hg : g.Built)
    (h : lower p { verify } g = .ok stats g')
    (horderly : stats.modified → g.verify = .ok () ∧ g.updateReachability = (0, g) ∧ g.Orderly p) :
    ∃ stats' g'', lower p { verify } g' = .ok stats' g'' ∧ stats'.modified = false ∧
      g''.text p = g'.text p := by
  cases hstats : stats.modified with
  | false => exact ⟨{}, g', lower_of_unmodified h hstats, rfl, rfl⟩
  | true =>
    obtain ⟨hverify, hmarks, horderly⟩ := horderly hstats
    obtain ⟨stats₁, g₁, hwrappers, h, hverify'⟩ := lower_eq_ok.mp h
    cases hmodified : stats₁.modified with
    | false =>
      rw [hmodified] at h
      obtain ⟨rfl, -⟩ := pure_eq_ok.mp h
      simp [hmodified] at hstats
    | true =>
      rw [hmodified] at h
      have hT := tended_of_verify hg.coherent.linked hverify hmarks horderly
        (attached_of_modified hg.coherent hwrappers hmodified)
      obtain ⟨hg₁, hD⟩ := depleted_lowerWrappers (hT.batchable hg.coherent) hT hwrappers
      obtain ⟨g'', hagain, htext⟩ := lower_of_settled (settled_cleanUp hg₁ hD h) hverify'
      exact ⟨{}, g'', hagain, rfl, htext⟩

def result? {α : Type} (e : Edit α) (g : Graph) : Option α :=
  match e g with
  | .ok a _ => some a
  | .error _ _ => none

theorem eq_ok_of_result? {α : Type} {e : Edit α} {a : α} (h : e.result? g = some a) :
    e g = .ok a (e.after g) := by
  unfold result? at h
  unfold after
  split at h
  · rename_i a' g' hok
    rw [hok, ← Option.some.inj h]
  · cases h

def wrapperPool : Pool := (Pool.new.addMembers (.ofScalar .i32)).2

def constructed (pointer : Operator) : Graph := (Graph.empty "f").changed
  [.addVar .local (.ofScalar .i32), .addVar .local ⟨14⟩, .append ⟨0⟩ pointer,
    .append ⟨0⟩ (.call ⟨0⟩ [.var ⟨1⟩, .const (.int (.ofScalar .i32) 5)] none)]

/-- The wrapper is compared with the value read through its address. -/
def constructedAndRead : Graph := (constructed (.addressOf ⟨1⟩ ⟨0⟩)).changed
  [.addVar .local ⟨14⟩, .addVar .local (.ofScalar .i32), .addVar .local (.ofScalar .bool),
    .append ⟨0⟩ (.loadFieldAddress ⟨0⟩ ⟨2⟩ (.var ⟨1⟩) false),
    .append ⟨0⟩ (.loadField ⟨0⟩ ⟨3⟩ (.var ⟨2⟩) false),
    .append ⟨0⟩ (.call ⟨1⟩ [.var ⟨1⟩, .var ⟨3⟩] (some ⟨4⟩)), .append ⟨0⟩ (.ret (some (.var ⟨4⟩)))]

theorem lower_idempotent_constructedAndRead : ∃ g',
    lower wrapperPool {} constructedAndRead = .ok ⟨1, 1, 1, 1, 1, 4⟩ g' ∧
      constructedAndRead.Orderly wrapperPool ∧
      ∃ stats' g'', lower wrapperPool {} g' = .ok stats' g'' ∧ stats'.modified = false ∧
        g''.text wrapperPool = g'.text wrapperPool := by
  have h : (lower wrapperPool {}).result? constructedAndRead = some ⟨1, 1, 1, 1, 1, 4⟩ := by
    decide +kernel
  have horderly : constructedAndRead.Orderly wrapperPool :=
    ⟨by decide +kernel, by decide +kernel, by decide +kernel, by decide +kernel⟩
  exact ⟨_, eq_ok_of_result? h, horderly, lower_idempotent true
    (((Built.empty "f").changed _).changed _) (eq_ok_of_result? h) fun _ => ⟨by decide +kernel, by decide +kernel, horderly⟩⟩

/-- The wrapper is constructed through the address of its field, which the first run makes the
address of the variable. Only the second run then finds the constructor. -/
def constructedThroughField : Graph := (constructed (.loadFieldAddress ⟨0⟩ ⟨1⟩ (.var ⟨0⟩) false)).changed
  [.append ⟨0⟩ (.ret (some (.var ⟨0⟩)))]

theorem lower_constructedThroughField : ∃ g' g'', constructedThroughField.Built ∧
    constructedThroughField.verify = .ok () ∧
      lower wrapperPool {} constructedThroughField = .ok { fieldAddresses := 1 } g' ∧
      lower wrapperPool {} g' = .ok { constructors := 1, addressLoads := 1, droppedVariables := 1 } g'' ∧
      g''.text wrapperPool ≠ g'.text wrapperPool := by
  have h : (lower wrapperPool {}).result? constructedThroughField = some { fieldAddresses := 1 } := by
    decide +kernel
  have h' : (lower wrapperPool {}).result? ((lower wrapperPool {}).after constructedThroughField) =
      some { constructors := 1, addressLoads := 1, droppedVariables := 1 } := by
    decide +kernel
  exact ⟨_, _, ((Built.empty "f").changed _).changed _, by decide +kernel, eq_ok_of_result? h,
    eq_ok_of_result? h', by decide +kernel⟩

end Edit
end ScalarLowering
