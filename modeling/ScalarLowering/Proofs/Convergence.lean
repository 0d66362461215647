import ScalarLowering.Proofs.Tally

/-! Lowering converges. No step brings an operation on a wrapper back, and every operation that a
run reports as lowered is gone, so a graph bounds the number of runs that can still change
something. -/

namespace ScalarLowering

open ScalarLowering.Graph ScalarLowering.Edit

variable {p : Pool} {config : Config} {g g' : Graph} {c : Chains} {n : Nat}

namespace Graph

theorem wrapperOps_of_kinds (hattached : g'.attached.Sublist g.attached)
    (hkind : ∀ id ∈ g'.attached, (g'.op id).map (·.kind) = (g.op id).map (·.kind)) :
    g'.wrapperOps p ≤ g.wrapperOps p := by
  have hsame : g'.attachedWhere p.isWrapperOp =
      g'.attached.filter fun id => (g.op id).any fun op => p.isWrapperOp op.kind :=
    List.filter_congr fun id hid => any_of_kind (hkind id hid)
  rw [wrapperOps, hsame]
  exact (hattached.filter _).length_le

theorem wrapperOps_updateReachability_le (hg : g.Linked) :
    g.updateReachability.2.wrapperOps p ≤ g.wrapperOps p := by
  refine wrapperOps_of_kinds ?_ fun id _ => kind_of_outline (outline_updateReachability id)
  rw [hg.attached_updateReachability]
  exact List.filter_sublist

theorem wrapperOps_stripResult_le (id : OpId) (v : VarId) :
    (g.stripResult id v).wrapperOps p ≤ g.wrapperOps p :=
  wrapperOps_of_kinds (List.Sublist.refl _) fun x _ => kind_stripResult id x v

theorem wrapperOps_dropUnmentioned_le : g.dropUnmentioned.2.wrapperOps p ≤ g.wrapperOps p := by
  refine wrapperOps_of_kinds ?_ fun x _ => ?_
  · rw [attached_dropUnmentioned]
  · rw [op_dropUnmentioned]

theorem SameCode.wrapperOps_eq (h : g.SameCode g') : g'.wrapperOps p = g.wrapperOps p := by
  simp only [wrapperOps, attachedWhere, h.attached_eq, h.op_eq]

end Graph

namespace Edit

theorem wrapperOps_edit_le {w : WrapperUse} {id : OpId} {b : Bool} (hg : g.Linked)
    (hc : Tracks c g) (h : w.edit p c id g = .ok b g') : g'.wrapperOps p ≤ g.wrapperOps p := by
  obtain ⟨-, op, ids, hlowers⟩ | ⟨-, rfl⟩ := lowers_or_eq_of_edit hg hc h
  · exact Nat.le_of_lt (hlowers.wrapperOps_lt hg)
  · exact Nat.le_refl _

theorem wrapperOps_foldLocal_le {id : OpId} {b : Bool} (hg : g.Linked) (hc : Tracks c g)
    (h : foldLocal p c id g = .ok b g') : g'.wrapperOps p ≤ g.wrapperOps p := by
  obtain rfl | ⟨g₁, hload, haddress⟩ := givesWay_foldLocal hg hc h
  · exact Nat.le_refl _
  obtain rfl | ⟨load, hload⟩ := hload
  · have := haddress.wrapperOps_add_le hg
    omega
  · have hfirst := hload.wrapperOps_add_le hg
    have hsecond := haddress.wrapperOps_add_le (hload.linked hg)
    omega

theorem wrapperOps_foldPlace_le {id : OpId} {b : Bool} (hg : g.Linked)
    (h : foldPlace p c id g = .ok b g') : g'.wrapperOps p ≤ g.wrapperOps p := by
  obtain rfl | ⟨g₁, load, hload, haddress⟩ := givesWay_foldPlace hg h
  · exact Nat.le_refl _
  · have hfirst := hload.wrapperOps_add_le hg
    have hsecond := haddress.wrapperOps_add_le (hload.linked hg)
    omega

end Edit

theorem stepInvariant_wrapperOps (p : Pool) (n : Nat) :
    StepInvariant p fun g => g.wrapperOps p ≤ n where
  sameCode := fun hcode _ hn => hcode.wrapperOps_eq ▸ hn
  constructor := fun hg hc hn h => Nat.le_trans (wrapperOps_edit_le (w := .constructor) hg hc h) hn
  equality := fun hg hc hn h => Nat.le_trans (wrapperOps_edit_le (w := .equality) hg hc h) hn
  fieldLoad := fun hg hc hn h => Nat.le_trans (wrapperOps_edit_le (w := .load) hg hc h) hn
  fieldAddress := fun hg hc hn h => Nat.le_trans (wrapperOps_edit_le (w := .address) hg hc h) hn
  localAddress := fun _ hg hc hn h => Nat.le_trans (wrapperOps_foldLocal_le hg hc h) hn
  placeAddress := fun hg _ hn h => Nat.le_trans (wrapperOps_foldPlace_le hg h) hn
  reachability := fun hg hn => Nat.le_trans (wrapperOps_updateReachability_le hg) hn

theorem deadInvariant_wrapperOps (p : Pool) (n : Nat) :
    DeadInvariant fun g => g.wrapperOps p ≤ n where
  sameCode := fun hcode _ hn => hcode.wrapperOps_eq ▸ hn
  remove := fun hg hn hop hpure _ hs => by
    have := (hs.givesWay (p := p) hg hop (isControl_of_isPure hpure)).wrapperOps_add_le hg
    omega
  strip := fun _ hn _ _ _ _ => Nat.le_trans (wrapperOps_stripResult_le _ _) hn
  drop := fun _ hn => Nat.le_trans wrapperOps_dropUnmentioned_le hn

/-- What was lowered and what is left are together no more than there was. -/
theorem tally_wrapperOps (p : Pool) (n : Nat) :
    TallyInvariant p fun k g => g.wrapperOps p + k ≤ n where
  sameCode := fun hcode _ hn => hcode.wrapperOps_eq ▸ hn
  lowers := fun hg h hn => by
    have := h.wrapperOps_lt hg
    omega

namespace Edit

/-- Every operation that a run reports as lowered is gone for good. -/
theorem wrapperOps_add_lowered_le {stats : Stats} (hg : g.Coherent)
    (h : lower p config g = .ok stats g') :
    g'.wrapperOps p + stats.lowered ≤ g.wrapperOps p := by
  have hstart : g.Coherent ∧ g.wrapperOps p + 0 ≤ g.wrapperOps p := ⟨hg, Nat.le_refl _⟩
  obtain ⟨hwrappers, -⟩ | ⟨stats₁, g₁, hwrappers, -, hclean⟩ := lower_cases h
  · have htally := (lowerWrappers_tally (tally_wrapperOps p _) hstart hwrappers).2
    omega
  · obtain ⟨hg₁, htally⟩ := lowerWrappers_tally (tally_wrapperOps p _) hstart hwrappers
    have hcleaned := (cleanUp_induction (stepInvariant_wrapperOps p (g₁.wrapperOps p))
      (fun hn => hn) (fun _ => deadInvariant_wrapperOps p (g₁.wrapperOps p))
      ⟨hg₁, Nat.le_refl _⟩ hclean).2
    have hcount := lowered_of_cleanUp hclean
    omega

/-- Successive runs, one for each configuration, that all report a change. -/
inductive Reruns (p : Pool) : List Config → Graph → Graph → Prop
  | done {g : Graph} : Reruns p [] g g
  | again {config : Config} {configs : List Config} {stats : Stats} {g g₁ g' : Graph} :
      lower p config g = .ok stats g₁ → stats.modified → Reruns p configs g₁ g' →
      Reruns p (config :: configs) g g'

/-- Every run that reports a change leaves fewer operations on wrappers for the runs after it. -/
theorem exists_unchanged_run (hg : g.Built) {configs : List Config}
    (hlength : g.wrapperOps p < configs.length) :
    ∃ before config after g', configs = before ++ config :: after ∧ Reruns p before g g' ∧
      ∀ {stats g''}, lower p config g' = .ok stats g'' → stats.modified = false := by
  induction configs generalizing g with
  | nil => cases hlength
  | cons config configs ih =>
    by_cases hchange : ∃ stats g₁, lower p config g = .ok stats g₁ ∧ stats.modified
    · obtain ⟨stats, g₁, hlower, hmodified⟩ := hchange
      have hg₁ : g₁.Built := after_of_ok hlower ▸ hg.lower p config
      have hless := wrapperOps_add_lowered_le hg.coherent hlower
      have hpos := Stats.modified_iff.mp hmodified
      have hshort : g₁.wrapperOps p < configs.length := by
        rw [List.length_cons] at hlength
        omega
      obtain ⟨before, last, after, g', rfl, hreruns, hlast⟩ := ih hg₁ hshort
      exact ⟨config :: before, last, after, g', rfl, .again hlower hmodified hreruns, hlast⟩
    · refine ⟨[], config, configs, g, rfl, .done, fun {stats g''} hlower => ?_⟩
      by_contra hmodified
      exact hchange ⟨stats, g'', hlower, by simpa using hmodified⟩

/-- What a run reports as lowered counts against the operations on wrappers. So of successive
runs, one more than there are such operations, one fails or reports no change. -/
theorem lower_converges {p : Pool} {g : Graph} (hg : g.Built) :
    (∀ {config stats g'}, lower p config g = .ok stats g' → g'.wrapperOps p +
      (stats.constructors + stats.equality + stats.fieldLoads + stats.fieldAddresses) ≤
        g.wrapperOps p) ∧
    ∀ configs : List Config, configs.length = g.wrapperOps p + 1 →
      ∃ before config after g', configs = before ++ config :: after ∧ Reruns p before g g' ∧
        ∀ {stats g''}, lower p config g' = .ok stats g'' → stats.modified = false :=
  ⟨fun h => wrapperOps_add_lowered_le hg.coherent h,
    fun _ hlength => exists_unchanged_run hg (hlength ▸ Nat.lt_succ_self _)⟩

/-- The first run uncovers the constructor for the second, but of three runs one finds nothing. -/
theorem lower_converges_constructedThroughField : ∃ g' g'',
    constructedThroughField.wrapperOps wrapperPool = 2 ∧
      lower wrapperPool {} constructedThroughField = .ok { fieldAddresses := 1 } g' ∧
      g'.wrapperOps wrapperPool + (0 + 0 + 0 + 1) ≤ 2 ∧
      (∃ before config after, [{}, {}, {}] = before ++ config :: after ∧
        Reruns wrapperPool before constructedThroughField g'' ∧
        ∀ {stats g₃}, lower wrapperPool config g'' = .ok stats g₃ → stats.modified = false) := by
  have h : (lower wrapperPool {}).result? constructedThroughField =
      some { fieldAddresses := 1 } := by decide +kernel
  have hcount : constructedThroughField.wrapperOps wrapperPool = 2 := by decide +kernel
  have hbuilt : constructedThroughField.Built := ((Built.empty "f").changed _).changed _
  obtain ⟨hless, hruns⟩ := lower_converges (p := wrapperPool) hbuilt
  obtain ⟨before, config, after, g'', hsplit, hreruns, hlast⟩ :=
    hruns [{}, {}, {}] (by rw [hcount]; rfl)
  exact ⟨_, g'', hcount, eq_ok_of_result? h, hcount ▸ hless (eq_ok_of_result? h), before, config,
    after, hsplit, hreruns, hlast⟩

end Edit
end ScalarLowering
