import ScalarLowering.Proofs.Sources

/-! Folding an address and the one load through it refines the graph. -/

namespace ScalarLowering

namespace Graph

variable {g g' : Graph} {p : Pool} {faults : Bool} {c : Chains} {address load id n : OpId}
  {op read new : Operator} {q y : VarId} {ids : List OpId}

/-- The operator `address` alone defines `q`, and a load through `q` alone reads it. -/
structure LoneLoad (g : Graph) (address load : OpId) (op read : Operator) (q : VarId) : Prop where
  found : g.op address = some op
  foundLoad : g.op load = some read
  alone : g.definers q = [address]
  sole : g.readers q = [load]
  kind : ∃ t, read.kind = .loadIndirect t

theorem loneLoad_of_query (hc : Tracks c g) (h : g.loneLoad c address = .ok (some load))
    (hop : g.op address = some op) (hread : g.op load = some read) :
    ∃ q, op.result? = some q ∧ g.LoneLoad address load op read q := by
  obtain ⟨op', q, read', t, hop', hresult, halone, huses, hread', hkind⟩ := loneLoad_spec h
  obtain rfl := Option.some.inj (hop.symm.trans hop')
  obtain rfl := Option.some.inj (hread.symm.trans hread')
  exact ⟨q, hresult, hop, hread, hc.definesAlone halone, (hc.attachedUses huses).symm, t, hkind⟩

namespace LoneLoad

variable (h : g.LoneLoad address load op read q)
include h

theorem attached : address ∈ g.attached :=
  (mem_definers.mp (h.alone ▸ List.mem_singleton_self address)).1

theorem attachedLoad : load ∈ g.attached :=
  (mem_readers.mp (h.sole ▸ List.mem_singleton_self load)).1

theorem results (hg : g.WellShaped) : op.results = [q] :=
  (results_eq_singleton (hg.fits h.attached h.found)
    (mem_results_of_mem_definers (h.alone ▸ List.mem_singleton_self address) h.found)).1

theorem args (hg : g.WellShaped) : read.args = [.var q] := by
  obtain ⟨t, hkind⟩ := h.kind
  have hlength := (hg.fits h.attachedLoad h.foundLoad).args (a := .exactly 1) (by rw [hkind]; rfl)
  obtain ⟨e, hargs⟩ := List.length_eq_one_iff.mp (Arity.admits_exactly.mp hlength)
  have hmem : q ∈ read.reads :=
    mem_reads_of_mem_readers (h.sole ▸ List.mem_singleton_self load) h.foundLoad
  obtain rfl : e = .var q := by simpa [mem_reads, hargs, eq_comm] using hmem
  exact hargs

theorem info (hg : g.WellShaped) : ∃ info, g.var q = some info ∧ info.isArgument = false :=
  (hg.fits h.attached h.found).written q (by simp [h.results hg])

theorem eq_of_derefs (hg : g.WellShaped) (hderefs : read.derefs p y) : y = q := by
  simp only [Operator.derefs, Bool.and_eq_true, decide_eq_true_eq, h.args hg] at hderefs
  simpa [eq_comm] using hderefs.1

theorem eq_of_placeOf (hplace : g.PlaceOf id q) : id = address ∧ op.isPlace := by
  obtain rfl := List.mem_singleton.mp (h.alone ▸ hplace.mem_definers)
  obtain ⟨-, op', hop', hplace, -⟩ := placeOf_iff.mp hplace
  obtain rfl := Option.some.inj (h.found.symm.trans hop')
  exact ⟨rfl, hplace⟩

end LoneLoad
end Graph

def Operator.isFixedAddress (op : Operator) : Bool :=
  match op.kind with
  | .addressOf | .loadStaticAddress _ => true
  | _ => false

namespace Operator

variable {op : Operator} {p : Pool} {g : Graph} {s : Frame} {ending : Ending}

theorem not_faults_of_isFixedAddress (h : op.isFixedAddress) : ¬op.Faults p g s ending := by
  have herror : ∀ {e}, op.action p g s = .error e → e = .invalidOperand .constantAddress := by
    intro e he
    unfold isFixedAddress at h
    split at h
    · rename_i hkind
      simp only [action, hkind] at he
      split at he
      · cases he
      · exact (Except.error.inj he).symm
    · rename_i f hkind
      simp only [action, hkind] at he
      cases he
    · cases h
  rintro (⟨ha, -⟩ | ⟨ha, -⟩)
  · cases herror ha
  · cases herror ha

end Operator
end ScalarLowering
