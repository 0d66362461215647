import ScalarLowering.Proofs.Decisions

/-! Induction over the lowering. A property of graphs that each single edit keeps, under what
the decision before it has found out, holds after the whole lowering. -/

namespace ScalarLowering

open ScalarLowering.Graph ScalarLowering.Edit

/-- A property that the steps of the lowering keep while their snapshot tracks the graph. -/
structure StepInvariant (p : Pool) (I : Graph → Prop) : Prop where
  sameCode : ∀ {g g'}, g.SameCode g' → g'.Coherent → I g → I g'
  constructor : ∀ {g g' c id b}, g.Linked → Tracks c g → I g →
    lowerConstructor p c id g = .ok b g' → I g'
  equality : ∀ {g g' c id b}, g.Linked → Tracks c g → I g →
    lowerEquality p c id g = .ok b g' → I g'
  fieldLoad : ∀ {g g' c id b}, g.Linked → Tracks c g → I g →
    lowerFieldLoad p c id g = .ok b g' → I g'
  fieldAddress : ∀ {g g' c id b}, g.Linked → Tracks c g → I g →
    lowerFieldAddress p c id g = .ok b g' → I g'
  localAddress : ∀ {g g' c id b}, (∀ op ∈ g.op id, op.kind = .addressOf) → g.Linked →
    Tracks c g → I g → foldLocal p c id g = .ok b g' → I g'
  placeAddress : ∀ {g g' c id b}, g.Linked → Tracks c g → I g →
    foldPlace p c id g = .ok b g' → I g'
  reachability : ∀ {g}, g.Linked → I g → I g.updateReachability.2

/-- A property that the elimination of dead variables keeps. -/
structure DeadInvariant (I : Graph → Prop) : Prop where
  sameCode : ∀ {g g'}, g.SameCode g' → g'.Coherent → I g → I g'
  remove : ∀ {g g' : Graph} {id op}, g.Linked → I g → g.op id = some op → op.isPure →
    (∀ v ∈ op.results, g.readers v = []) → g.Spliced g' id [] → I g'
  strip : ∀ {g : Graph} {id op v}, g.Linked → I g → id ∈ g.attached → g.op id = some op →
    g.readers v = [] → op.isPure = false ∨ (∃ w ∈ op.results, g.readers w ≠ []) →
    I (g.stripResult id v)
  drop : ∀ {g : Graph}, g.Linked → I g → I g.dropUnmentioned.2

variable {p : Pool} {I : Graph → Prop} {g g' : Graph} {c : Chains}

namespace Edit

theorem sweep_induction {α : Type} {edit : α → Edit Bool} {R : Graph → Prop}
    {as : List α} (h : ∀ {a g b g'}, a ∈ as → R g → edit a g = .ok b g' → R g') {n : Nat} (hg : R g)
    (hs : sweep edit as g = .ok n g') : R g' := by
  induction as generalizing g n with
  | nil =>
    obtain ⟨-, rfl⟩ := pure_eq_ok.mp hs
    exact hg
  | cons a as ih =>
    obtain ⟨b, g₁, ha, hs⟩ := bind_eq_ok.mp hs
    obtain ⟨m, g₂, has, hs⟩ := bind_eq_ok.mp hs
    obtain ⟨-, rfl⟩ := pure_eq_ok.mp hs
    exact ih (fun ha' => h (List.mem_cons_of_mem a ha')) (h List.mem_cons_self hg ha) has

/-- A batch of edits at the operators of some kinds. An operator keeps its kind as long as it
stands. -/
theorem batch_sweep_induction {edit : Chains → OpId → Edit Bool}
    (hsame : ∀ {g g'}, g.SameCode g' → g'.Coherent → I g → I g')
    (hgrows : ∀ c id, (edit c id).Keeps Grows)
    {test : OpKind → Bool}
    (hedit : ∀ {g g' c id b}, (∀ op ∈ g.op id, test op.kind) → g.Linked → Tracks c g → I g →
      edit c id g = .ok b g' → I g')
    {n : Nat} (hg : g.Coherent) (hI : I g)
    (h : batch (fun c => do sweep (edit c) (← query fun g => .ok (g.attachedWhere test))) g =
      .ok n g') : g'.Coherent ∧ I g' := by
  refine ⟨((moves_batch_sweep hgrows _).ok h).steady hg, ?_⟩
  obtain ⟨c, g₁, hsnapshot, h⟩ := bind_eq_ok.mp h
  obtain ⟨hexact, hg₁, hcode⟩ := snapshot_spec hg hsnapshot
  obtain ⟨_, g₂, hcheckpoint, h⟩ := bind_eq_ok.mp h
  have hg₂ := (moves_setCheckpoint.ok hcheckpoint).steady hg₁
  obtain ⟨hscans, hcode₂⟩ := setCheckpoint_spec hcheckpoint
  obtain ⟨m, g₃, hstep, h⟩ := bind_eq_ok.mp h
  obtain ⟨_, -, h⟩ := query_bind_eq_ok.mp h
  obtain ⟨-, rfl⟩ := pure_eq_ok.mp h
  obtain ⟨ids, hids, hsweep⟩ := query_bind_eq_ok.mp hstep
  obtain rfl := Except.ok.inj hids
  have hstart : Tracks c g₂ := (hexact.of_sameScans hscans).tracks hg₂.linked
  have hI₂ : I g₂ := hsame hcode₂ hg₂ (hsame hcode hg₁ hI)
  let Kept (g : Graph) : Prop := ∀ id ∈ g₂.attachedWhere test, id.index < g.ops.size ∧
    ∀ op ∈ g.op id, test op.kind
  have hkept : Kept g₂ := by
    intro id hid
    obtain ⟨hatt, htest⟩ := List.mem_filter.mp hid
    obtain ⟨op, hop, htest⟩ := (Option.any_eq_true _ _).mp htest
    refine ⟨hg₂.linked.lt_of_mem hatt, fun op' hop' => ?_⟩
    obtain rfl := Option.some.inj (hop.symm.trans hop')
    exact htest
  refine (sweep_induction (R := fun g => g.Linked ∧ Tracks c g ∧ Kept g ∧ I g) ?_
    ⟨hg₂.linked, hstart, hkept, hI₂⟩ hsweep).2.2.2
  rintro id g b g' hmem ⟨hlinked, htracks, hkept, hI⟩ hid
  obtain ⟨hlinked', hext⟩ := (hgrows c id).ok hid hlinked
  refine ⟨hlinked', htracks.extends hext hlinked', fun id' hid' => ?_,
    hedit (hkept id hmem).2 hlinked htracks hI hid⟩
  obtain ⟨hlt, htest⟩ := hkept id' hid'
  refine ⟨Nat.lt_of_lt_of_le hlt hext.size_ops, fun op' hop' => ?_⟩
  obtain ⟨op, hop, hkind, -⟩ := hext.oldOp hlt hop'
  rw [hkind]
  exact htest op hop

theorem allUnread_spec (hc : TracksUses c g) {vs : List VarId} {unread : Bool}
    (h : g.allUnread c vs = .ok unread) :
    (unread = true → ∀ v ∈ vs, g.readers v = []) ∧
      (unread = false → ∃ v ∈ vs, g.readers v ≠ []) := by
  induction vs with
  | nil =>
    obtain rfl : true = unread := by simpa [allUnread] using h
    simp
  | cons v vs ih =>
    obtain ⟨ids, hids, h⟩ := Except.bind_eq_ok.mp h
    obtain rfl := hc.attachedUses hids
    split at h
    · rename_i hempty
      obtain ⟨htrue, hfalse⟩ := ih h
      refine ⟨fun hu => ?_, fun hu => ?_⟩
      · exact List.forall_mem_cons.mpr ⟨List.isEmpty_iff.mp hempty, htrue hu⟩
      · obtain ⟨w, hw, hread⟩ := hfalse hu
        exact ⟨w, List.mem_cons_of_mem _ hw, hread⟩
    · rename_i hread
      obtain rfl : false = unread := Except.pure_eq_ok.mp h
      exact ⟨nofun, fun _ => ⟨v, List.mem_cons_self, by simpa using hread⟩⟩

/-- The definition is detached already, is removed, or loses the result. -/
theorem dropDefinition_spec {v : VarId} {id : OpId} {b : Bool} (hg : g.Linked)
    (hc : TracksUses c g) (h : dropDefinition c v id g = .ok b g') :
    g' = g ∨ ∃ op, id ∈ g.attached ∧ g.op id = some op ∧
      ((op.isPure ∧ (∀ w ∈ op.results, g.readers w = []) ∧
          ∃ left, remove id .discard g = .ok left g') ∨
        ((op.isPure = false ∨ ∃ w ∈ op.results, g.readers w ≠ []) ∧ g' = g.stripResult id v)) := by
  obtain ⟨op, hop, h⟩ := query_bind_eq_ok.mp h
  have hop : g.op id = some op := by simpa using hop
  have hrest : ∀ {unread : Bool} {g₀ : Graph}, (if unread then do
      let _ ← remove id .discard
      return true
    else do
      modify (·.stripResult id v)
      return true : Edit Bool) g₀ = .ok b g' →
      (unread = true ∧ ∃ left, remove id .discard g₀ = .ok left g') ∨
        (unread = false ∧ g' = g₀.stripResult id v) := by
    intro unread g₀ h
    cases unread with
    | true =>
      obtain ⟨left, g₁, hremove, h⟩ := bind_eq_ok.mp h
      obtain ⟨-, rfl⟩ := pure_eq_ok.mp h
      exact .inl ⟨rfl, left, hremove⟩
    | false =>
      obtain ⟨_, g₁, hstrip, h⟩ := bind_eq_ok.mp h
      obtain ⟨-, rfl⟩ := pure_eq_ok.mp h
      exact .inr ⟨rfl, (modify_eq_ok.mp hstrip).symm⟩
  dsimp only at h
  split at h
  · exact .inl (pure_eq_ok.mp h).2.symm
  · rename_i hatt
    have hid : id ∈ g.attached := hg.mem_attached.mpr (by simpa [isAttached, hop] using hatt)
    refine .inr ⟨op, hid, hop, ?_⟩
    split at h
    · rename_i hpure
      obtain ⟨unread, hunread, h⟩ := query_bind_eq_ok.mp h
      obtain ⟨htrue, hfalse⟩ := allUnread_spec hc hunread
      obtain ⟨hu, hremove⟩ | ⟨hu, hstrip⟩ := hrest h
      · exact .inl ⟨hpure, htrue hu, hremove⟩
      · exact .inr ⟨.inr (hfalse hu), hstrip⟩
    · rename_i hpure
      obtain ⟨_, g₁, hunread, h⟩ := bind_eq_ok.mp h
      obtain ⟨rfl, rfl⟩ := pure_eq_ok.mp hunread
      obtain ⟨hu, -⟩ | ⟨-, hstrip⟩ := hrest h
      · cases hu
      · exact .inr ⟨.inl (by simpa using hpure), hstrip⟩

theorem readers_stripResult (hg : g.Linked) (id : OpId) (v w : VarId) :
    (g.stripResult id v).readers w = g.readers w := by
  refine List.filter_congr fun x hx => ?_
  obtain ⟨op, b, hop, -⟩ := hg.exists_op_of_mem hx
  simp only [stripResult, op_bump, op_modifyOp, hop]
  split
  · rfl
  · rfl

theorem tracksUses_stripResult (hg : g.Linked) (hc : TracksUses c g) (id : OpId) (v : VarId) :
    TracksUses c (g.stripResult id v) := by
  have hatt : (g.stripResult id v).isAttached = g.isAttached := by
    funext x
    simp only [isAttached, stripResult, op_bump, op_modifyOp]
    split
    · cases g.op x <;> rfl
    · rfl
  refine ⟨fun {w ids} hw hids => ?_⟩
  obtain ⟨hlt, hscan⟩ := hc.uses (v := w) hw hids
  rw [readers_stripResult hg, hatt]
  exact ⟨fun x hx => by simpa [stripResult] using hlt x hx, hscan⟩

theorem readers_of_erased {old : OpId} (hg : g.Linked) (h : g.Spliced g' old []) {v : VarId}
    (hv : g.readers v = []) : g'.readers v = [] := by
  refine List.eq_nil_iff_forall_not_mem.mpr fun x hx => ?_
  obtain ⟨hx, op, hop, hreads⟩ := mem_readers.mp hx
  obtain ⟨hne, hx⟩ := (h.mem_attached.mp hx).resolve_left List.not_mem_nil
  rw [h.op (.inl hne) (hg.lt_of_mem hx)] at hop
  have hmem : x ∈ g.readers v := mem_readers.mpr ⟨hx, op, hop, hreads⟩
  simp [hv] at hmem

theorem dropDefinitions_induction (hI : DeadInvariant I) {v : VarId} {b : Bool}
    (hg : g.Linked ∧ TracksUses c g ∧ I g) (h : dropDefinitions c v g = .ok b g') :
    g'.Linked ∧ TracksUses c g' ∧ I g' := by
  obtain ⟨info, -, h⟩ := query_bind_eq_ok.mp h
  split at h
  · rwa [← (pure_eq_ok.mp h).2]
  obtain ⟨uses, huses, h⟩ := query_bind_eq_ok.mp h
  obtain rfl := hg.2.1.attachedUses huses
  split at h
  · rwa [← (pure_eq_ok.mp h).2]
  rename_i hunread
  obtain ⟨defs, -, h⟩ := query_bind_eq_ok.mp h
  obtain ⟨n, g₁, hsweep, h⟩ := bind_eq_ok.mp h
  obtain ⟨-, rfl⟩ := pure_eq_ok.mp h
  have hstart : g.Linked ∧ TracksUses c g ∧ I g ∧ g.readers v = [] :=
    ⟨hg.1, hg.2.1, hg.2.2, by simpa using hunread⟩
  have hend := sweep_induction
    (R := fun g => g.Linked ∧ TracksUses c g ∧ I g ∧ g.readers v = []) ?_ hstart hsweep
  · exact ⟨hend.1, hend.2.1, hend.2.2.1⟩
  rintro id g b g' - ⟨hlinked, htracks, hIg, hv⟩ hid
  obtain rfl | ⟨op, hatt, hop, ⟨hpure, hres, left, hremove⟩ | ⟨hread, rfl⟩⟩ :=
    dropDefinition_spec hlinked htracks hid
  · exact ⟨hlinked, htracks, hIg, hv⟩
  · obtain ⟨hlinked', hext⟩ := (grows_remove id .discard).ok hremove hlinked
    obtain ⟨hs, -⟩ := remove_discard_spec hlinked hremove
    exact ⟨hlinked', htracks.extends hext hlinked', hI.remove hlinked hIg hop hpure hres hs,
      readers_of_erased hlinked hs hv⟩
  · exact ⟨hlinked.stripResult id v, tracksUses_stripResult hlinked htracks id v,
      hI.strip hlinked hIg hatt hop hv hread, by rwa [readers_stripResult hlinked]⟩

theorem deadRounds_induction (hI : DeadInvariant I) {n : Nat} {u : Unit} (hg : g.Coherent ∧ I g)
    (h : deadRounds n g = .ok u g') : g'.Coherent ∧ I g' := by
  induction n generalizing g with
  | zero =>
    obtain ⟨-, rfl⟩ := pure_eq_ok.mp h
    exact hg
  | succ n ih =>
    obtain ⟨c, g₁, hsnapshot, h⟩ := bind_eq_ok.mp h
    obtain ⟨hexact, hg₁, hcode⟩ := snapshot_spec hg.1 hsnapshot
    obtain ⟨vars, -, h⟩ := query_bind_eq_ok.mp h
    obtain ⟨count, g₂, hsweep, h⟩ := bind_eq_ok.mp h
    have hg₂ := ((keeps_sweep (moves_dropDefinitions c) vars).ok hsweep).steady hg₁
    have hstart : g₁.Linked ∧ TracksUses c g₁ ∧ I g₁ :=
      ⟨hg₁.linked, (hexact.tracks hg₁.linked).toTracksUses, hI.sameCode hcode hg₁ hg.2⟩
    have hI₂ := (sweep_induction (R := fun g => g.Linked ∧ TracksUses c g ∧ I g)
      (fun _ => dropDefinitions_induction hI) hstart hsweep).2.2
    split at h
    · exact ih ⟨hg₂, hI₂⟩ h
    · obtain ⟨-, rfl⟩ := pure_eq_ok.mp h
      exact ⟨hg₂, hI₂⟩

theorem eliminateDead_induction (hI : DeadInvariant I) {n : Nat} (hg : g.Coherent ∧ I g)
    (h : eliminateDead g = .ok n g') : g'.Coherent ∧ I g' := by
  obtain ⟨m, -, h⟩ := query_bind_eq_ok.mp h
  obtain ⟨u, g₁, hrounds, h⟩ := bind_eq_ok.mp h
  obtain ⟨hg₁, hI₁⟩ := deadRounds_induction hI hg hrounds
  rw [modifyGet_eq_ok] at h
  obtain rfl : g₁.dropUnmentioned.2 = g' := congrArg Prod.snd h
  exact ⟨steady_dropUnmentioned hg₁, hI.drop hg₁.linked hI₁⟩

theorem onlyIf_induction {enabled : Bool} {step : Edit Nat} {R : Graph → Prop} {n : Nat}
    (hstep : ∀ {n g'}, enabled → step g = .ok n g' → R g') (hg : R g)
    (h : onlyIf enabled step g = .ok n g') : R g' := by
  unfold onlyIf at h
  split at h
  · exact hstep ‹_› h
  · rwa [← (pure_eq_ok.mp h).2]

variable {config : Config} {J : Graph → Prop}

theorem lowerWrappers_induction (hI : StepInvariant p I) {stats : Stats} (hg : g.Coherent ∧ I g)
    (h : lowerWrappers p config g = .ok stats g') : g'.Coherent ∧ I g' := by
  obtain ⟨_, g₁, h₁, h⟩ := bind_eq_ok.mp h
  obtain ⟨_, g₂, h₂, h⟩ := bind_eq_ok.mp h
  obtain ⟨_, g₃, h₃, h⟩ := bind_eq_ok.mp h
  obtain ⟨_, g₄, h₄, h⟩ := bind_eq_ok.mp h
  obtain ⟨-, rfl⟩ := pure_eq_ok.mp h
  have hg₁ : g₁.Coherent ∧ I g₁ := onlyIf_induction
    (fun _ => batch_sweep_induction hI.sameCode (grows_lowerConstructor p) (fun _ => hI.constructor) hg.1 hg.2)
    hg h₁
  have hg₂ : g₂.Coherent ∧ I g₂ := onlyIf_induction
    (fun _ => batch_sweep_induction hI.sameCode (grows_lowerEquality p) (fun _ => hI.equality) hg₁.1 hg₁.2)
    hg₁ h₂
  have hg₃ : g₃.Coherent ∧ I g₃ := onlyIf_induction
    (fun _ => batch_sweep_induction hI.sameCode (grows_lowerFieldLoad p) (fun _ => hI.fieldLoad) hg₂.1 hg₂.2)
    hg₂ h₃
  exact onlyIf_induction
    (fun _ => batch_sweep_induction hI.sameCode (grows_lowerFieldAddress p) (fun _ => hI.fieldAddress)
      hg₃.1 hg₃.2) hg₃ h₄

theorem foldRoundTrips_induction (hI : StepInvariant p I) {n : Nat} (hg : g.Coherent ∧ I g)
    (h : foldRoundTrips p g = .ok n g') : g'.Coherent ∧ I g' := by
  obtain ⟨_, g₁, h₁, h⟩ := bind_eq_ok.mp h
  obtain ⟨_, g₂, h₂, h⟩ := bind_eq_ok.mp h
  obtain ⟨_, g₃, h₃, h⟩ := bind_eq_ok.mp h
  obtain ⟨-, rfl⟩ := pure_eq_ok.mp h
  have hg₁ := batch_sweep_induction hI.sameCode (grows_foldLocal p)
    (fun hkind => hI.localAddress fun op hop => of_decide_eq_true (hkind op hop)) hg.1 hg.2 h₁
  have hg₂ := batch_sweep_induction hI.sameCode (grows_foldPlace p) (fun _ => hI.placeAddress) hg₁.1 hg₁.2 h₂
  exact batch_sweep_induction hI.sameCode (grows_foldPlace p) (fun _ => hI.placeAddress) hg₂.1 hg₂.2 h₃

theorem cleanUp_steps {stats stats' : Stats} (h : cleanUp p config stats g = .ok stats' g') :
    ∃ n m g₁, onlyIf config.addressCleanup (foldRoundTrips p) g.updateReachability.2 = .ok n g₁ ∧
      onlyIf config.deadVariables eliminateDead g₁ = .ok m g' := by
  obtain ⟨_, g₁, h₁, h⟩ := bind_eq_ok.mp h
  obtain ⟨n, g₂, h₂, h⟩ := bind_eq_ok.mp h
  obtain ⟨m, g₃, h₃, h⟩ := bind_eq_ok.mp h
  obtain ⟨-, rfl⟩ := pure_eq_ok.mp h
  rw [modifyGet_eq_ok] at h₁
  obtain rfl : g.updateReachability.2 = g₁ := congrArg Prod.snd h₁
  exact ⟨n, m, g₂, h₂, h₃⟩

theorem cleanUp_induction_of_marked (hI : StepInvariant p I) (hIJ : ∀ {g}, I g → J g)
    (hdead : config.deadVariables → DeadInvariant J) {stats stats' : Stats} (hg : g.Coherent)
    (hIg : I g.updateReachability.2) (h : cleanUp p config stats g = .ok stats' g') :
    g'.Coherent ∧ J g' := by
  obtain ⟨n, m, g₁, hfold, hrest⟩ := cleanUp_steps h
  have hstart : g.updateReachability.2.Coherent ∧ I g.updateReachability.2 :=
    ⟨grows_updateReachability.steady hg, hIg⟩
  have hg₁ : g₁.Coherent ∧ I g₁ :=
    onlyIf_induction (fun _ => foldRoundTrips_induction hI hstart) hstart hfold
  have hg₁ : g₁.Coherent ∧ J g₁ := ⟨hg₁.1, hIJ hg₁.2⟩
  exact onlyIf_induction (fun henabled => eliminateDead_induction (hdead henabled) hg₁) hg₁ hrest

theorem cleanUp_induction (hI : StepInvariant p I) (hIJ : ∀ {g}, I g → J g)
    (hdead : config.deadVariables → DeadInvariant J) {stats stats' : Stats}
    (hg : g.Coherent ∧ I g) (h : cleanUp p config stats g = .ok stats' g') :
    g'.Coherent ∧ J g' :=
  cleanUp_induction_of_marked hI hIJ hdead hg.1 (hI.reachability hg.1.linked hg.2) h

/-- What every step keeps holds after the lowering; the elimination of dead variables may keep
less. -/
theorem lower_induction (hI : StepInvariant p I) (hIJ : ∀ {g}, I g → J g)
    (hdead : config.deadVariables → DeadInvariant J) {stats : Stats} (hg : g.Coherent) (hIg : I g)
    (h : lower p config g = .ok stats g') : J g' := by
  obtain ⟨stats₁, g₁, h₁, h⟩ := bind_eq_ok.mp h
  have hg₁ := lowerWrappers_induction hI ⟨hg, hIg⟩ h₁
  have hrest : ∀ {stats₂ : Stats} {g₂ : Graph}, (if config.verify then do
      query (·.verify)
      return stats₂
    else return stats₂ : Edit Stats) g₂ = .ok stats g' → g' = g₂ := by
    intro stats₂ g₂ h
    split at h
    · obtain ⟨_, -, h⟩ := query_bind_eq_ok.mp h
      exact (pure_eq_ok.mp h).2.symm
    · exact (pure_eq_ok.mp h).2.symm
  dsimp only at h
  split at h
  · obtain ⟨stats₂, g₂, h₂, h⟩ := bind_eq_ok.mp h
    rw [hrest h]
    exact (cleanUp_induction hI hIJ hdead hg₁ h₂).2
  · obtain ⟨stats₂, g₂, h₂, h⟩ := bind_eq_ok.mp h
    obtain ⟨-, rfl⟩ := pure_eq_ok.mp h₂
    rw [hrest h]
    exact hIJ hg₁.2

/-- A run that succeeds: it lowers the wrapper operations, cleans up if there were any, and the
graph that it leaves verifies if that is asked for. -/
theorem lower_eq_ok_iff {stats : Stats} : lower p config g = .ok stats g' ↔ ∃ stats₁ g₁,
    lowerWrappers p config g = .ok stats₁ g₁ ∧
      (if stats₁.modified then cleanUp p config stats₁ else pure stats₁ : Edit Stats) g₁ =
        .ok stats g' ∧
      (config.verify → g'.verify = .ok ()) := by
  have hverify : ∀ {stats₂ : Stats} {g₂ : Graph}, (if config.verify then do
      query (·.verify)
      return stats₂
    else return stats₂ : Edit Stats) g₂ = .ok stats g' ↔
      stats₂ = stats ∧ g₂ = g' ∧ (config.verify → g'.verify = .ok ()) := by
    intro stats₂ g₂
    cases config.verify with
    | false => simp [pure_eq_ok]
    | true =>
      simp only [if_true, query_bind_eq_ok, pure_eq_ok, true_implies]
      constructor
      · rintro ⟨_, hok, rfl, rfl⟩
        exact ⟨rfl, rfl, hok⟩
      · rintro ⟨rfl, rfl, hok⟩
        exact ⟨(), hok, rfl, rfl⟩
  unfold lower
  rw [bind_eq_ok]
  refine exists_congr fun stats₁ => exists_congr fun g₁ => and_congr_right fun _ => ?_
  dsimp only
  cases stats₁.modified with
  | false =>
    simp only [Bool.false_eq_true, if_false, bind_eq_ok, pure_eq_ok]
    constructor
    · rintro ⟨stats₂, g₂, ⟨rfl, rfl⟩, h⟩
      obtain ⟨rfl, rfl, hok⟩ := hverify.mp h
      exact ⟨⟨rfl, rfl⟩, hok⟩
    · rintro ⟨⟨rfl, rfl⟩, hok⟩
      exact ⟨_, _, ⟨rfl, rfl⟩, hverify.mpr ⟨rfl, rfl, hok⟩⟩
  | true =>
    simp only [if_true, bind_eq_ok]
    constructor
    · rintro ⟨stats₂, g₂, hclean, h⟩
      obtain ⟨rfl, rfl, hok⟩ := hverify.mp h
      exact ⟨hclean, hok⟩
    · rintro ⟨hclean, hok⟩
      exact ⟨_, _, hclean, hverify.mpr ⟨rfl, rfl, hok⟩⟩

/-- A run without the steps that look at fields and without the clean-up. -/
theorem lower_calls_eq_ok {stats : Stats} (hfields : config.fieldLoads = false)
    (hcleanup : config.addressCleanup = false) (hdead : config.deadVariables = false) :
    lower p config g = .ok stats g' ↔ ∃ n m g₁ g₂,
      onlyIf config.constructors (batch (lowerConstructors p)) g = .ok n g₁ ∧
      onlyIf config.equality (batch (lowerEqualities p)) g₁ = .ok m g₂ ∧
      stats = { constructors := n, equality := m } ∧
      g' = (if 0 < n + m then g₂.updateReachability.2 else g₂) ∧
      (config.verify → g'.verify = .ok ()) := by
  have hwrappers : ∀ {stats g₂}, lowerWrappers p config g = .ok stats g₂ ↔ ∃ n m g₁,
      onlyIf config.constructors (batch (lowerConstructors p)) g = .ok n g₁ ∧
      onlyIf config.equality (batch (lowerEqualities p)) g₁ = .ok m g₂ ∧
      stats = { constructors := n, equality := m } := by
    intro stats g₂
    unfold lowerWrappers
    simp only [hfields, bind_eq_ok]
    constructor
    · rintro ⟨n, g₁, h₁, m, g₂, h₂, k, g₃, h₃, k', g₄, h₄, h⟩
      obtain ⟨rfl, rfl⟩ := pure_eq_ok.mp h₃
      obtain ⟨rfl, rfl⟩ := pure_eq_ok.mp h₄
      obtain ⟨rfl, rfl⟩ := pure_eq_ok.mp h
      exact ⟨n, m, g₁, h₁, h₂, rfl⟩
    · rintro ⟨n, m, g₁, h₁, h₂, rfl⟩
      exact ⟨n, g₁, h₁, m, g₂, h₂, 0, g₂, rfl, 0, g₂, rfl, rfl⟩
  have hclean : ∀ {stats stats' g₂ g₃}, cleanUp p config stats g₂ = .ok stats' g₃ ↔
      g₃ = g₂.updateReachability.2 ∧ stats' = { stats with addressLoads := 0, droppedVariables := 0 } := by
    intro stats stats' g₂ g₃
    unfold cleanUp
    rw [hcleanup, hdead]
    simp only [bind_eq_ok, modifyGet_eq_ok]
    constructor
    · rintro ⟨_, g₃, h₁, _, g₄, h₂, _, g₅, h₃, h⟩
      obtain ⟨rfl, rfl⟩ := pure_eq_ok.mp h₂
      obtain ⟨rfl, rfl⟩ := pure_eq_ok.mp h₃
      obtain ⟨rfl, rfl⟩ := pure_eq_ok.mp h
      exact ⟨(congrArg Prod.snd h₁).symm, rfl⟩
    · rintro ⟨rfl, rfl⟩
      exact ⟨_, _, rfl, 0, _, rfl, 0, _, rfl, rfl⟩
  rw [lower_eq_ok_iff]
  constructor
  · rintro ⟨stats₁, g₂, h₁, h, hverify⟩
    obtain ⟨n, m, g₁, hn, hm, rfl⟩ := hwrappers.mp h₁
    refine ⟨n, m, g₁, g₂, hn, hm, ?_⟩
    by_cases hmodified : 0 < n + m
    · rw [if_pos (by simpa [Stats.modified] using hmodified)] at h
      obtain ⟨rfl, rfl⟩ := hclean.mp h
      exact ⟨rfl, (if_pos hmodified).symm, hverify⟩
    · rw [if_neg (by simpa [Stats.modified] using hmodified)] at h
      obtain ⟨rfl, rfl⟩ := pure_eq_ok.mp h
      exact ⟨rfl, (if_neg hmodified).symm, hverify⟩
  · rintro ⟨n, m, g₁, g₂, hn, hm, rfl, hg', hverify⟩
    refine ⟨_, g₂, hwrappers.mpr ⟨n, m, g₁, hn, hm, rfl⟩, ?_, hverify⟩
    by_cases hmodified : 0 < n + m
    · rw [if_pos (by simpa [Stats.modified] using hmodified)]
      exact hclean.mpr ⟨hg'.trans (if_pos hmodified), rfl⟩
    · rw [if_neg (by simpa [Stats.modified] using hmodified)]
      exact pure_eq_ok.mpr ⟨rfl, (hg'.trans (if_neg hmodified)).symm⟩
end Edit
end ScalarLowering
