import ScalarLowering.Proofs.Fusing
import ScalarLowering.Proofs.Wrappers

/-! Folding the address of a variable and the one load through it refines the graph: the readers of
what is loaded read the variable. The address and the load go away, and so do the address of a static
field and a load through it that has no result. -/

namespace ScalarLowering

theorem Operator.action_of_address {op : Operator} {p : Pool} {g : Graph} {s : Frame}
    {a : Option (Location × Value)} (h : op.isPlace ∨ op.isFixedAddress)
    (ha : op.action p g s = .ok a) : ∃ l, a = op.into (.pointer l) := by
  obtain hplace | hfixed := h
  · exact action_of_isPlace hplace ha
  unfold isFixedAddress at hfixed
  split at hfixed
  · rename_i hkind
    simp only [action, hkind] at ha
    split at ha
    · exact ⟨_, (Except.pure_eq_ok.mp ha).symm⟩
    · cases ha
  · rename_i f hkind
    simp only [action, hkind] at ha
    exact ⟨_, (Except.pure_eq_ok.mp ha).symm⟩
  · cases hfixed

namespace Graph

variable {g g' : Graph} {p : Pool} {faults : Bool} {address load id : OpId} {op read : Operator}
  {q : VarId} {ids : List OpId}

theorem Spliced.readers_eq_nil (hg : g.Linked) (h : g.Spliced g' load ids)
    (hsole : ∀ user ∈ g.readers q, user = load)
    (hnew : ∀ n ∈ ids, ∀ op ∈ g'.op n, q ∉ op.reads) : g'.readers q = [] := by
  refine List.eq_nil_iff_forall_not_mem.mpr fun user huser => ?_
  obtain ⟨huser, op, hop, hread⟩ := mem_readers.mp huser
  have hread : q ∈ op.reads := List.contains_iff_mem.mp hread
  obtain hmem | ⟨hne, huser⟩ := h.mem_attached.mp huser
  · exact hnew user hmem op hop hread
  · rw [h.op (.inl hne) (hg.lt_of_mem huser)] at hop
    exact hne (hsole user (mem_readers_of_reads huser hop hread))

/-- The address of a variable or of a static field that nobody reads can go. -/
theorem Tame.unused {left : Option OpId} (hg : g.Tame p faults)
    (h : Edit.remove id .discard g = .ok left g') (hop : g.op id = some op)
    (hfixed : op.isFixedAddress) (hunread : ∀ x ∈ op.results, g.readers x = []) :
    g.Refines g' p faults := by
  have hkind : op.definesOnly ∧ op.isStore = false ∧ ∀ y, op.derefs p y = false := by
    unfold Operator.isFixedAddress at hfixed
    split at hfixed <;> simp_all [Operator.definesOnly, Operator.isStore, Operator.derefs]
  refine hg.removed h hop hkind.1 hunread (fun _ _ y _ _ hsettles => ?_) .trivial
    fun _ _ _ _ _ _ hfault => absurd hfault (Operator.not_faults_of_isFixedAddress hfixed)
  obtain ⟨-, op', hop', hcase⟩ := settles_iff.mp hsettles
  obtain rfl := Option.some.inj (hop.symm.trans hop')
  simp [hkind] at hcase

namespace LoneLoad

variable (h : g.LoneLoad address load op read q) (hg : g.WellShaped)
include h hg

theorem through : read.args.head? = some (.var q) := by rw [h.args hg, List.head?_cons]

/-- The variable holds nothing or an address. -/
theorem wideInvariant_notNull (haddress : op.isPlace ∨ op.isFixedAddress) :
    g.WideInvariant p fun _ _ s => ∃ w, s.read (.var q) = some w ∧ w ≠ .null := by
  obtain ⟨info, hinfo, harg⟩ := h.info hg
  refine wideInvariant_written h.quiet hinfo harg (by simp) fun {d op' s w} hd hop' ha => ?_
  rw [h.alone, List.mem_singleton] at hd
  subst hd
  obtain rfl := Option.some.inj (h.found.symm.trans hop')
  obtain ⟨l, hl⟩ := Operator.action_of_address haddress ha
  obtain ⟨-, -, -, rfl⟩ := Operator.into_eq_some.mp hl.symm
  simp

theorem not_faults {s : Frame} {ending : Ending}
    (hs : ∃ w, s.read (.var q) = some w ∧ w ≠ .null) : ¬read.Faults p g s ending := by
  obtain ⟨t, hkind⟩ := h.kind
  obtain ⟨w, hw, hne⟩ := hs
  intro hfault
  exact hne (Option.some.inj (hw.symm.trans
    (Operator.null_of_loadIndirect hkind (h.through hg) hfault)))

theorem isPlace_of_derefs {y : VarId} (hplace : g.PlaceOf id y) (hderefs : read.derefs p y) :
    op.isPlace := by
  obtain rfl := h.eq_of_derefs hg hderefs
  exact (h.eq_of_placeOf hplace).2

omit hg in
/-- A load without a result stood only for its check, which cannot fail. -/
theorem refines_void {g₁ : Graph} {left left' : Option OpId} (hg : g.Tame p faults)
    (hfixed : op.isFixedAddress) (hne : address ≠ load) (hvoid : read.results = [])
    (hload : Edit.remove load .discard g = .ok left g₁)
    (haddress : Edit.remove address .discard g₁ = .ok left' g') : g.Refines g' p faults := by
  have hshaped := hg.shaped.toWellShaped
  obtain ⟨t, hkind⟩ := h.kind
  have hrefines : g.Refines g₁ p faults := by
    refine hg.removed hload h.foundLoad (by simp [Operator.definesOnly, hkind]) (by simp [hvoid])
      (fun _ _ y hplace _ hsettles => ?_)
      (h.wideInvariant_notNull hshaped (.inr hfixed)).runInvariant
      fun _ _ _ hI _ _ hfault => absurd hfault (h.not_faults hshaped hI)
    obtain ⟨-, read', hread', hcase⟩ := settles_iff.mp hsettles
    obtain rfl := Option.some.inj (h.foundLoad.symm.trans hread')
    have hnot := h.isPlace_of_derefs hshaped hplace
      (hcase.resolve_right (by simp [Operator.isStore, hkind]))
    unfold Operator.isFixedAddress at hfixed
    unfold Operator.isPlace at hnot
    split at hfixed <;> simp_all
  obtain ⟨hs, -⟩ := Edit.remove_discard_spec hshaped.linked hload
  have hfound : g₁.op address = some op :=
    (hs.op (.inl hne) (hshaped.linked.lt_of_mem h.attached)).trans h.found
  refine hrefines.trans (hrefines.tame.unused haddress hfound hfixed fun x hx => ?_)
  obtain rfl : x = q := by simpa [h.results hshaped] using hx
  exact hs.readers_eq_nil hshaped.linked (fun user huser => by simpa [h.sole] using huser) (by simp)

end LoneLoad
end Graph

namespace Edit

open ScalarLowering.Graph

variable {g g' : Graph} {p : Pool} {faults : Bool} {c : Chains} {address load id : OpId}
  {op read : Operator} {q : VarId} {b : Bool}

/-- Forwarding takes away the one reader of another variable, and leaves the other operators their
kinds and results. -/
theorem forward_keeps {result : VarId} {value : Expr} {stable : Bool} (hg : g.Linked)
    (hc : Tracks c g) (h : forward c load result value stable g = .ok b g')
    (hsole : g.readers q = [load]) (hvalue : value ≠ .var q) :
    g'.readers q = [] ∧ ∀ {id op}, id ∈ g.attached → id ≠ load → g.op id = some op →
      ∃ op', g'.op id = some op' ∧ op'.kind = op.kind ∧ op'.results = op.results := by
  obtain ⟨-, -, -, -, n, g₁, left, hredirect, hremove⟩ | ⟨-, new, hcopy⟩ := forward_spec h
  · obtain ⟨hrewired, hop₁⟩ := redirectAll_spec hg hc hredirect
    have hg₁ := (hrewired.grows hg).1
    have hatt := hrewired.attached_eq
    obtain ⟨⟨hs, hnop⟩, -⟩ := remove_keep_spec hg₁ hremove
    have hnop : (g'.op ⟨g₁.ops.size⟩).map (·.code) = some Operator.nop.code := hnop
    refine ⟨hs.readers_eq_nil hg₁ (fun user huser => ?_) fun n hn op hop => ?_,
      fun {id op} hid hne hop => ⟨op.substitute result value, ?_, rfl, rfl⟩⟩
    · obtain ⟨hread, -⟩ := ((hrewired.mem_readers hop₁).mp huser).resolve_right fun h => hvalue h.2
      exact List.mem_singleton.mp (hsole ▸ hread)
    · rw [List.mem_singleton.mp hn] at hop
      rw [hop, Option.map_some] at hnop
      rw [Operator.eq_of_code (Option.some.inj hnop)]
      rintro ⟨⟩
    · rw [hs.op (.inl hne) (hrewired.size ▸ hg.lt_of_mem hid), hop₁ id hid, hop, Option.map_some]
  · obtain ⟨hs, -, hcode⟩ := substitute_spec hg hcopy
    refine ⟨hs.readers_eq_nil hg (fun user huser => ?_) fun n hn op hop hread => ?_,
      fun {id op} hid hne hop => ⟨op, (hs.op (.inl hne) (hg.lt_of_mem hid)).trans hop, rfl, rfl⟩⟩
    · rwa [hsole, List.mem_singleton] at huser
    · rw [List.mem_singleton.mp hn] at hop
      rw [hop, Option.map_some] at hcode
      rw [Operator.eq_of_code (Option.some.inj hcode)] at hread
      exact hvalue (by simpa [mem_reads, Operator.copy, eq_comm] using hread)

/-- A load through the address of a variable has the value of the variable. -/
theorem forwards_loneLoad {loaded : VarId} {addressed : Expr} (hg : g.Tame p faults)
    (h : g.LoneLoad address load op read q) (hkind : op.kind = .addressOf)
    (hargs : op.args = [addressed]) (hresult : read.result? = some loaded)
    (halone : g.definers loaded = [load]) : g.Forwards p faults load read loaded addressed
      fun _ _ s => ∃ w, s.read (.var q) = some w ∧ Addresses addressed w := by
  have hshaped := hg.shaped.toWellShaped
  have hd := hg.disciplined
  obtain ⟨t, hload⟩ := h.kind
  obtain ⟨info, hinfo, harg⟩ := h.info hshaped
  have hhead : op.args.head? = some addressed := by simp [hargs]
  refine ⟨h.foundLoad, by simp [Operator.definesOnly, hload], halone,
    liveExpr_of_fits (hshaped.fits h.attached h.found) (by simp [hargs]), ?_, ?_, ?_, ?_,
    runInvariant_address h.quiet hinfo harg h.alone h.found hkind hhead, ?_, ?_⟩
  · rw [← Operator.wellTyped_addressOf (hd.typed _ h.attached _ h.found) hkind hhead
        (x := q) (by simp [h.results hshaped]),
      Operator.wellTyped_loadIndirect (hd.typed _ h.attachedLoad _ h.foundLoad) hload
        (h.through hshaped) (List.mem_of_mem_head? hresult)]
  · rintro y rfl
    exact .inl (hd.free_of_addressed h.attached h.found hkind (mem_reads.mpr (by simp [hargs])))
  · intro id op' hid hop' hread hne
    by_contra hescapes
    have hnot := hd.notLoaded id hid op' hop' (by simpa using hescapes) hne loaded hread load
      (halone ▸ List.mem_singleton_self load) read h.foundLoad
    simp [Operator.isLoad, hload] at hnot
  · intro _ a y hplace _ hderefs
    have hnot := h.isPlace_of_derefs hshaped hplace hderefs
    simp [Operator.isPlace, hkind] at hnot
  · rintro pre rest s a - - ⟨v, hv, haddresses⟩ - ha
    obtain ⟨l, w, hl, hw, rfl⟩ := (Operator.loadIndirect_eq_ok hload (h.through hshaped)).mp ha
    refine ⟨w, rfl, ?_⟩
    obtain rfl := Option.some.inj (hv.symm.trans hl)
    obtain h | ⟨x, rfl, hx⟩ := haddresses
    · cases h
    · obtain rfl := Value.pointer.inj hx
      exact hw
  · rintro pre rest s ending - - - ⟨v, hv, haddresses⟩ -
    refine h.not_faults hshaped ⟨v, hv, ?_⟩
    rintro rfl
    obtain h | ⟨x, -, h⟩ := haddresses <;> cases h

theorem refines_foldLocal (hg : g.Tame p faults) (hc : Tracks c g)
    (haddress : ∀ op ∈ g.op id, op.kind = .addressOf) (h : foldLocal p c id g = .ok b g') :
    g.Refines g' p faults := by
  have hshaped := hg.shaped.toWellShaped
  obtain ⟨found, hfound, h⟩ := query_bind_eq_ok.mp h
  rcases found with _ | fold
  · obtain ⟨-, rfl⟩ := pure_eq_ok.mp h
    exact hg.refl
  have hrest : ∀ {g₁ : Graph}, (remove id .discard >>= fun _ => pure true : Edit Bool) g₁ = .ok b g' →
      ∃ left, remove id .discard g₁ = .ok left g' := by
    intro g₁ h
    obtain ⟨left, g₂, hremove, h⟩ := bind_eq_ok.mp h
    obtain ⟨-, rfl⟩ := pure_eq_ok.mp h
    exact ⟨left, hremove⟩
  obtain ⟨op, pointer, hop, hpointer, hcase⟩ := localFold_spec hfound
  have hkind := haddress op hop
  have hfixed : op.isFixedAddress := by simp [Operator.isFixedAddress, hkind]
  obtain ⟨huses, rfl⟩ | ⟨load, addressed, read, hload, hargs, hread, hcase⟩ := hcase
  · obtain ⟨left, hremove⟩ := hrest h
    have hid := (remove_discard_spec hshaped.linked hremove).1.attached
    refine hg.unused hremove hop hfixed fun x hx => ?_
    obtain ⟨hresults, -⟩ := results_eq_singleton (hshaped.fits hid hop) (List.mem_of_mem_head? hpointer)
    obtain rfl : x = pointer := by simpa [hresults] using hx
    exact (hc.attachedUses huses).symm
  obtain ⟨q, hq, hlone⟩ := loneLoad_of_query hc hload hop hread
  have hne : id ≠ load := by
    rintro rfl
    obtain ⟨t, hloadKind⟩ := hlone.kind
    obtain rfl := Option.some.inj (hop.symm.trans hread)
    cases hkind.symm.trans hloadKind
  obtain ⟨hnone, rfl⟩ | ⟨loaded, stable, hresult, halone, hstable, rfl⟩ := hcase
  · obtain ⟨left, g₁, hremove, h⟩ := bind_eq_ok.mp h
    obtain ⟨left', hremove'⟩ := hrest h
    exact hlone.refines_void hg hfixed hne (List.head?_eq_none_iff.mp hnone) hremove hremove'
  · obtain ⟨b', g₁, hforward, h⟩ := bind_eq_ok.mp h
    obtain ⟨left, hremove⟩ := hrest h
    have hrefines := (forwards_loneLoad hg hlone hkind hargs hresult
      (hc.definesAlone halone)).refines hg hc (fun hs y hy => by
        subst hs hy
        exact hg.disciplined.quiet_of_stable hshaped hc hstable) hforward
    have hvalue : addressed ≠ .var q := by
      rintro rfl
      have hmem := mem_readers_of_reads hlone.attached hop (v := q) (mem_reads.mpr (by simp [hargs]))
      exact hne (by simpa [hlone.sole] using hmem)
    obtain ⟨hunread, hkept⟩ := forward_keeps hshaped.linked hc hforward hlone.sole hvalue
    obtain ⟨op', hop', hkind', hresults'⟩ := hkept hlone.attached hne hop
    refine hrefines.trans (hrefines.tame.unused hremove hop' ?_ fun x hx => ?_)
    · simp [Operator.isFixedAddress, hkind', hkind]
    · obtain rfl : x = q := by simpa [hresults', hlone.results hshaped] using hx
      exact hunread

end Edit
end ScalarLowering
