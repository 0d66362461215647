import ScalarLowering.Proofs.DirectLoads
import ScalarLowering.Proofs.Writers

/-! The lowering keeps the behaviour of a disciplined graph. Every step of it refines the graph, and
the elimination of dead variables takes away only what no run can tell; so a run that returns is
answered by a run that returns the same, and where the graph is prompt, a run that ends in a fault it
checks for is answered by one that ends in the same fault. -/

namespace ScalarLowering

namespace Operator

variable {op : Operator} {p : Pool} {g : Graph} {s : Frame} {ending : Ending}

/-- A pure operator does not fail in a way that it checks for. -/
theorem not_faults_of_isPure (h : op.isPure) : ¬op.Faults p g s ending := by
  intro hfault
  obtain ⟨e, he, hcase⟩ := hfault.exists_error
  cases hkind : op.kind <;> simp [isPure, hkind, hfault.mayFault] at h
  case addressOf => exact not_faults_of_isFixedAddress (by simp [isFixedAddress, hkind]) hfault
  case copy =>
    simp only [action, hkind, Except.bind_eq_error] at he
    obtain harg | ⟨v, -, hpure⟩ := he
    · obtain rfl | ⟨cause, rfl⟩ := arg_eq_error harg <;> simp at hcase
    · cases hpure
  case compare c =>
    simp only [action, hkind, Except.bind_eq_error, Fault.lift_eq_error] at he
    obtain ⟨-, rfl⟩ | ⟨k, -, harg | ⟨v, -, harg | ⟨w, -, hcompare | ⟨equal, -, hpure⟩⟩⟩⟩ := he
    · simp at hcase
    · obtain rfl | ⟨cause, rfl⟩ := arg_eq_error harg <;> simp at hcase
    · obtain rfl | ⟨cause, rfl⟩ := arg_eq_error harg <;> simp at hcase
    · obtain rfl := compareBy_eq_error hcompare
      simp at hcase
    · cases hpure
  case nop =>
    simp only [action, hkind] at he
    cases he

end Operator

namespace Graph

variable {g g' g₁ : Graph} {p : Pool} {faults : Bool} {ending : Ending} {args : List Value}
  {heap : Heap} {fuel : Nat}

theorem Tame.of_sameCode (hg : g.Tame p faults) (h : g.SameCode g') (hg' : g'.Linked) :
    g.Refines g' p faults := by
  refine ⟨⟨hg.shaped.of_sameCode h hg', ?_, fun hf => ?_⟩, ?_⟩
  · exact hg.disciplined.evolve h.evolves fun _ hne => absurd rfl hne
  · exact (hg.prompt hf).of_kept hg' h.evolves fun _ hb => h.attached_eq ▸ hb.mem_left
  · exact preserves_of_sameVars hg.shaped.toWellShaped h.blocks h.entry (fun _ => by rw [h.op_eq]) h.sameVars

theorem Linked.notMem_swept_of_before (hg : g.Linked) {a b : OpId} (hb : b ∉ g.swept)
    (hbefore : g.Before a b) : a ∉ g.swept := by
  obtain ⟨block, hblock, hsub⟩ := hbefore
  obtain ⟨c, hc⟩ := mem_blocks.mp hblock
  have ha := (hg.listed hc).mp (hsub.subset (show a ∈ [a, b] by simp))
  intro hswept
  obtain ⟨c', hunreached, ha'⟩ := hg.mem_swept.mp hswept
  obtain rfl := Option.some.inj (ha.symm.trans ha')
  exact hb (hg.mem_swept.mpr ⟨c, hunreached, (hg.listed hc).mp (hsub.subset (by simp))⟩)

theorem Tame.updateReachability (hg : g.Tame p faults) :
    g.Refines g.updateReachability.2 p faults := by
  have hlinked := hg.shaped.linked
  have hevolves := hlinked.evolves_updateReachability
  have hshaped := hg.shaped.updateReachability
  refine ⟨⟨hshaped, hg.disciplined.evolve hevolves fun _ hne => absurd rfl hne, fun hf => ?_⟩,
    preserves_updateReachability hg.shaped.toWellShaped⟩
  refine (hg.prompt hf).of_kept hshaped.linked hevolves fun {a b} hb hbefore => ?_
  rw [hlinked.attached_updateReachability, List.mem_filter] at hb ⊢
  exact ⟨hbefore.mem_left, by simpa using hlinked.notMem_swept_of_before (by simpa using hb.2) hbefore⟩

end Graph

open ScalarLowering.Graph ScalarLowering.Edit

variable {g g' : Graph} {p : Pool} {faults : Bool} {config : Config} {stats : Stats} {ending : Ending}
  {args : List Value} {heap : Heap} {fuel : Nat} {o : Outcome}

/-- Every step of the lowering refines the graph. -/
theorem stepInvariant_refines (g : Graph) (p : Pool) (faults : Bool) :
    StepInvariant p (g.Refines · p faults) where
  sameCode := fun h hg' hI => hI.trans (hI.tame.of_sameCode h hg'.linked)
  constructor := fun _ hc hI h => hI.trans (refines_lowerConstructor hI.tame hc h)
  equality := fun _ hc hI h => hI.trans (refines_lowerEquality hI.tame hc h)
  fieldLoad := fun _ hc hI h => hI.trans (refines_lowerFieldLoad hI.tame hc h)
  fieldAddress := fun _ hc hI h => hI.trans (refines_lowerFieldAddress hI.tame hc h)
  localAddress := fun hkind _ hc hI h => hI.trans (refines_foldLocal hI.tame hc hkind h)
  placeAddress := fun _ hc hI h => hI.trans (refines_foldPlace hI.tame hc h)
  reachability := fun _ hI => hI.trans hI.tame.updateReachability

/-- The elimination of dead variables keeps less: operators may lose the results that the discipline
speaks about. -/
theorem deadInvariant_preserves (g : Graph) (p : Pool) (faults : Bool) :
    DeadInvariant fun g₁ => g₁.Shaped OpKind.isStatic ∧ g.Preserves g₁ p faults where
  sameCode := fun h hg' hI => ⟨deadInvariant_shaped.sameCode h hg' hI.1, hI.2.trans
    (preserves_of_sameVars hI.1.toWellShaped h.blocks h.entry (fun _ => by rw [h.op_eq]) h.sameVars)⟩
  remove := fun hg hI hop hpure hunread hs => ⟨deadInvariant_shaped.remove hg hI.1 hop hpure hunread hs,
    hI.2.trans (preserves_of_erased hI.1.toWellShaped hs .trivial (.inl rfl) hop
      (Operator.definesOnly_of_isPure hpure) hunread
      fun _ _ _ _ _ _ hfault => absurd hfault (Operator.not_faults_of_isPure hpure))⟩
  strip := fun hg hI hid hop hv hcase => ⟨deadInvariant_shaped.strip hg hI.1 hid hop hv hcase,
    hI.2.trans (preserves_stripResult hI.1.toWellShaped hv _)⟩
  drop := fun hg hI => ⟨deadInvariant_shaped.drop hg hI.1, hI.2.trans
    (preserves_of_sameVars hI.1.toWellShaped blocks_dropUnmentioned entry_dropUnmentioned
      op_dropUnmentioned sameVars_dropUnmentioned)⟩

theorem preserves_lower (hg : g.Tame p faults) (hcoherent : g.Coherent)
    (h : lower p config g = .ok stats g') : g.Preserves g' p faults :=
  (lower_induction (stepInvariant_refines g p faults) (fun hI => ⟨hI.tame.shaped, hI.preserves⟩)
    (fun _ => deadInvariant_preserves g p faults) hcoherent hg.refl h).2

def arrayPool : Pool := (wrapperPool.arrayOf (.ofScalar .i32)).2

/-- An array is read, through the address of the element, at the value of a wrapper. -/
def readAtValue : Graph := (Graph.empty "f").changed
  [.addVar .argument (.ofScalar .i32), .addVar .argument ⟨15⟩, .addVar .local (.ofScalar .i32),
    .addVar .local ⟨14⟩, .addVar .local (.ofScalar .i32), .addVar .local (.ofScalar .i32),
    .append ⟨0⟩ (.loadField ⟨0⟩ ⟨2⟩ (.var ⟨0⟩) false),
    .append ⟨0⟩ (.loadElementAddress ⟨3⟩ (.var ⟨1⟩) (.var ⟨2⟩)), .append ⟨0⟩ (.copy ⟨4⟩ (.var ⟨2⟩)),
    .append ⟨0⟩ (.loadIndirect (.ofScalar .i32) ⟨5⟩ (.var ⟨3⟩) false),
    .append ⟨0⟩ (.ret (some (.var ⟨5⟩)))]

/-- The value of a wrapper is addressed behind a pointer, and the address is checked. -/
def addressedBehind : Graph := (Graph.empty "f").changed
  [.addVar .argument ⟨14⟩, .addVar .local ⟨14⟩,
    .append ⟨0⟩ (.loadFieldAddress ⟨0⟩ ⟨1⟩ (.var ⟨0⟩) true), .append ⟨0⟩ (.ret none)]

end ScalarLowering
