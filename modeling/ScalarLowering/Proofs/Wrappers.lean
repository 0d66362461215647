import ScalarLowering.Proofs.Sources

/-! Lowering the members of the scalar wrappers refines the graph. -/

namespace ScalarLowering

theorem Pool.exists_scalarOf {p : Pool} {t : TypeId} (h : p.isScalar t = some true) :
    ∃ k, p.scalarOf t = some (some k) := by
  obtain ⟨k, hk, hsome⟩ := Option.map_eq_some_iff.mp h
  obtain ⟨k, rfl⟩ := Option.isSome_iff_exists.mp hsome
  exact ⟨k, hk⟩

namespace Operator

variable {op : Operator} {p : Pool} {g : Graph} {s : Frame} {m : MethodId} {method : Method}
  {a : Option (Location × Value)} {ending : Ending} {this : VarId} {value : Expr}

theorem ctor_action (hkind : op.kind = .call m) (hm : p.method m = some method)
    (hctor : method.kind = .ctor) (hscalar : p.isScalar method.owner = some true) :
    op.action p g s = .error .dangling ∨ (∃ name, op.action p g s = .error (.unsupportedCall name)) ∨
      op.action p g s = (do
        let l ← (← s.arg op 0).target
        return some (l, ← s.arg op 1)) := by
  obtain ⟨k, hk⟩ := Pool.exists_scalarOf hscalar
  simp only [action, hkind, callAction, hm, Fault.lift_some_bind]
  cases hname : p.name method.name with
  | none => exact .inl rfl
  | some name =>
    simp only [Fault.lift_some_bind, hk]
    cases hof : WrapperMethod.of? method.kind name with
    | none => exact .inr (.inl ⟨name, rfl⟩)
    | some w =>
      have hw := (WrapperMethod.kind_of? hof).symm.trans hctor
      cases w with
      | ctor => exact .inr (.inr rfl)
      | equals | opEquality | opInequality => cases hw

theorem ctor_eq_ok (hkind : op.kind = .call m) (hm : p.method m = some method)
    (hctor : method.kind = .ctor) (hscalar : p.isScalar method.owner = some true)
    (hargs : op.args = [.var this, value]) (ha : op.action p g s = .ok a) :
    ∃ l w, s.read (.var this) = some (.pointer l) ∧ s.eval value = some w ∧ a = some (l, w) := by
  obtain h | ⟨name, h⟩ | h := ctor_action (g := g) (s := s) hkind hm hctor hscalar
  · cases h.symm.trans ha
  · cases h.symm.trans ha
  · rw [h] at ha
    simp only [Except.bind_eq_ok, Except.pure_eq_ok, target_eq_ok] at ha
    obtain ⟨v, hv, l, rfl, w, hw, rfl⟩ := ha
    refine ⟨l, w, read_of_arg_zero (by simp [hargs]) hv, ?_, rfl⟩
    obtain ⟨e, he, hw⟩ := arg_eq_ok.mp hw
    obtain rfl : value = e := by simpa [hargs] using he
    exact hw

theorem null_of_ctor (hkind : op.kind = .call m) (hm : p.method m = some method)
    (hctor : method.kind = .ctor) (hscalar : p.isScalar method.owner = some true)
    (hargs : op.args = [.var this, value]) (h : op.Faults p g s ending) :
    s.read (.var this) = some .null := by
  obtain ⟨e, he, hcase⟩ := h.exists_error
  obtain h | ⟨name, h⟩ | h := ctor_action (g := g) (s := s) hkind hm hctor hscalar
  · obtain rfl := Except.error.inj (h.symm.trans he)
    simp at hcase
  · obtain rfl := Except.error.inj (h.symm.trans he)
    simp at hcase
  · rw [h] at he
    simp only [Except.bind_eq_error] at he
    obtain harg | ⟨v, hv, htarget | ⟨l, -, harg | ⟨w, -, hpure⟩⟩⟩ := he
    · obtain rfl | ⟨cause, rfl⟩ := arg_eq_error harg <;> simp at hcase
    · obtain rfl : v = .null := target_eq_fault htarget hcase
      exact read_of_arg_zero (by simp [hargs]) hv
    · obtain rfl | ⟨cause, rfl⟩ := arg_eq_error harg <;> simp at hcase
    · cases hpure

/-- What the equality operators do. -/
theorem equality_action {c : Condition} {k : Scalar} (hkind : op.kind = .call m)
    (hm : p.method m = some method) (hstatic : method.kind = .ofType)
    (hc : p.equalityCondition method = some (some c)) (hk : p.scalarOf method.owner = some (some k)) :
    op.action p g s = (do
      let left ← s.arg op 1
      let equal ← left.compareBy (Scalar.equal k) (← s.arg op 2)
      return op.into (.ofBool (c.holds equal))) := by
  obtain ⟨name, hname, ⟨-, hinstance, -⟩ | ⟨hof, -, rfl⟩ | ⟨hof, -, rfl⟩⟩ :=
    Pool.equalityCondition_spec hc
  · cases hinstance.symm.trans hstatic
  all_goals
    simp only [action, hkind, callAction, hm, Fault.lift_some_bind, hname, hk, hof]
    rfl

theorem action_compare {c : Condition} {k : Option Scalar} {t : TypeId} {left right : Expr}
    {v w : Value} {equal : Bool} (result : VarId) (hv : s.eval left = some v)
    (hw : s.eval right = some w) (ht : g.typeOf left = some t) (hk : p.scalarOf t = some k)
    (hequal : v.compareBy (Scalar.equal k) w = .ok equal) :
    (Operator.compare c result left right).action p g s =
      .ok (some (.var result, .ofBool (c.holds equal))) := by
  have harg₀ : s.arg (.compare c result left right) 0 = .ok v := arg_eq_ok.mpr ⟨left, rfl, hv⟩
  have harg₁ : s.arg (.compare c result left right) 1 = .ok w := arg_eq_ok.mpr ⟨right, rfl, hw⟩
  have hkind : (Operator.compare c result left right).comparedKind p g = some k := by
    simp [comparedKind, compare, ht, hk]
  simp only [action, compare] at harg₀ harg₁ hkind ⊢
  rw [hkind, harg₀, harg₁, Fault.lift_some_bind]
  simp only [bind, Except.bind, hequal]
  rfl

theorem loadFieldAddress_eq_ok {f : FieldId} {e : Expr} (hkind : op.kind = .loadFieldAddress f)
    (hhead : op.args.head? = some e) : op.action p g s = .ok a ↔
      ∃ v l, s.eval e = some v ∧ p.fieldPlace op v f = .ok l ∧ a = op.into (.pointer l) := by
  rw [List.head?_eq_getElem?] at hhead
  simp only [action, hkind, Except.bind_eq_ok, Except.pure_eq_ok, arg_eq_ok, hhead,
    Option.some.injEq]
  constructor
  · rintro ⟨v, ⟨_, rfl, hv⟩, l, hl, rfl⟩
    exact ⟨v, l, hv, hl, rfl⟩
  · rintro ⟨v, l, hv, hl, rfl⟩
    exact ⟨v, ⟨e, rfl, hv⟩, l, hl, rfl⟩

theorem null_of_loadFieldAddress {f : FieldId} {e : Expr} (hkind : op.kind = .loadFieldAddress f)
    (hhead : op.args.head? = some e) (h : op.Faults p g s ending) :
    s.eval e = some .null ∧ op.checkForNull := by
  rw [List.head?_eq_getElem?] at hhead
  obtain ⟨cause, he, hcase⟩ := h.exists_error
  simp only [action, hkind, Except.bind_eq_error] at he
  obtain harg | ⟨v, hv, hplace | ⟨l, -, hpure⟩⟩ := he
  · obtain rfl | ⟨cause, rfl⟩ := arg_eq_error harg <;> simp at hcase
  · obtain ⟨e', he', hv⟩ := arg_eq_ok.mp hv
    obtain rfl := Option.some.inj (hhead.symm.trans he')
    cases v with
    | null =>
      obtain rfl := Except.error.inj hplace
      obtain ⟨-, -, hcheck⟩ | ⟨i, n, h, -⟩ := hcase
      · exact ⟨hv, hcheck⟩
      · cases h
    | object o => cases hplace
    | undefined | array =>
      obtain rfl := Except.error.inj hplace
      simp at hcase
    | bits w =>
      simp only [Pool.fieldPlace] at hplace
      split at hplace
      · cases hplace
      · obtain rfl := Except.error.inj hplace
        simp at hcase
    | pointer l =>
      simp only [Pool.fieldPlace, Except.bind_eq_error] at hplace
      obtain hlift | ⟨b, -, hplace⟩ := hplace
      · obtain ⟨-, rfl⟩ := Fault.lift_eq_error.mp hlift
        simp at hcase
      · cases b
        · obtain rfl := Except.error.inj hplace
          simp at hcase
        · cases hplace
  · cases hpure

end Operator

namespace Edit

open ScalarLowering.Graph

variable {g g' : Graph} {p : Pool} {faults : Bool} {c : Chains} {id : OpId} {b : Bool}

theorem refines_lowerConstructor (hg : g.Tame p faults) (hc : Tracks c g)
    (h : lowerConstructor p c id g = .ok b g') : g.Refines g' p faults := by
  obtain ⟨found, hfound, h⟩ := query_bind_eq_ok.mp h
  cases found with
  | none =>
    obtain ⟨-, rfl⟩ := pure_eq_ok.mp h
    exact hg.refl
  | some copy =>
    obtain ⟨new, g₁, hs, h⟩ := bind_eq_ok.mp h
    obtain ⟨-, rfl⟩ := pure_eq_ok.mp h
    obtain ⟨op, m, method, this, value, d, source, x, infoThis, info, hop, hkind, hm, hctor, hscalar, hargs,
      hresults, -, hinfoThis, hargThis, hd, hsource, hsourceKind, hx, hinfo, harg, htype, rfl⟩ :=
      constructorCopy_spec hfound
    have hshaped := hg.shaped.toWellShaped
    have hid := (substitute_spec hshaped.linked hs).1.attached
    have hdatt := mem_attached_of_defCount hc hd
    have hcontrol : op.isControl = false := by simp [Operator.isControl, hkind, OpKind.isControl]
    have hpasses : ∀ q, p.readsThrough q op ≠ some true :=
      Operator.passes_of_ctor hkind hm (by simp [hctor])
    obtain ⟨info', hinfo', hdropped⟩ := liveExpr_of_fits (hshaped.fits hdatt hsource)
      (List.mem_of_mem_head? hx) x rfl
    obtain rfl := Option.some.inj (hinfo.symm.trans hinfo')
    have hlive : g.LiveExpr value := liveExpr_of_fits (hshaped.fits hid hop) (by simp [hargs])
    have hthis : this ∈ source.results :=
      mem_results_of_mem_definers (hc.definers_eq hd ▸ List.mem_singleton_self d) hsource
    have hpointee : g.pointeeOf p (.var this) = some method.owner := by
      rw [Operator.wellTyped_addressOf (hg.disciplined.typed d hdatt source hsource) hsourceKind hx
        hthis, ← htype]
      simp [typeOf, hinfo]
    have hinvariant := runInvariant_address (hg.disciplined.quiet_of_pointee hpointee) hinfoThis
      hargThis (hc.definers_eq hd) hsource hsourceKind hx
    refine hg.substituted hs hop hcontrol (sound_copy ⟨info, hinfo, hdropped, harg⟩ hlive) ?_
      (fun _ => ?_) hinvariant ?_ ?_
    · refine ⟨rfl, rfl, rfl, fun q hq {id' op'} hid' hop' hdef => ?_, by rintro ⟨⟩⟩
      have hread : q ∈ op.reads := by
        simp_all [mem_reads, Operator.copy]
      refine ⟨fun hescapes => ?_, fun hplace => ⟨(hg.disciplined.nearby id' hid' op' hop' hplace q
        hdef id (mem_readers_of_reads hid hop hread)).1, by rintro ⟨⟩⟩⟩
      rw [hg.disciplined.not_escapes_of_passes hid' hop' hdef hid hop hread (hpasses q)] at hescapes
      cases hescapes
    · refine ⟨by rintro ⟨⟩, fun _ hq => .inl ?_, fun _ _ hderefs => ?_⟩
      · simp_all [mem_reads, Operator.copy]
      · simp [Operator.derefs, Operator.isStore, hkind, hm, hctor] at hderefs
    · rintro pre rest s a hat hsane ⟨v, hv, haddresses⟩ hsafe ha
      obtain ⟨l, w, hl, hw, rfl⟩ := Operator.ctor_eq_ok hkind hm hctor hscalar hargs ha
      obtain rfl := Option.some.inj (hv.symm.trans hl)
      obtain h | ⟨y, hy, hl⟩ := haddresses
      · cases h
      · obtain rfl := Value.pointer.inj hl
        obtain rfl := Expr.var.inj hy
        exact ⟨by rintro ⟨⟩, Operator.action_copy x hw⟩
    · rintro pre rest s ending - hat hsane ⟨v, hv, haddresses⟩ hsafe hfault
      have hnull := Operator.null_of_ctor hkind hm hctor hscalar hargs hfault
      obtain rfl := Option.some.inj (hv.symm.trans hnull)
      obtain h | ⟨y, -, h⟩ := haddresses <;> cases h

theorem checkForNull_of_query {op : Operator} {check : Bool} (hop : g.op id = some op)
    (h : (do return (← g.op id).checkForNull : Except Error Bool) = .ok check) :
    op.checkForNull = check := by
  obtain ⟨op', hop', hcheck⟩ := Except.bind_eq_ok.mp h
  obtain rfl := Option.some.inj (hop.symm.trans (Error.lift_eq_ok.mp hop'))
  exact Except.pure_eq_ok.mp hcheck

theorem readsBehind_loadField {op : Operator} {f : FieldId} {x : VarId}
    (hkind : op.kind = .loadField f) (hf : p.isValueField f = some true)
    (hargs : op.args = [.var x]) : op.ReadsBehind p g x where
  toUnwraps := Operator.unwraps_loadField hkind hf (by simp [hargs])
  derefs := by simp [Operator.derefs, hkind, hargs]
  silent := by simp [Operator.silent, hkind]
  scalars := fun y hy => .inl (by simpa [mem_reads, hargs] using hy)
  control := by simp [Operator.isControl, hkind, OpKind.isControl]

/-- A load of the value field forwards what its receiver stands for. -/
theorem forwards_loadField {op : Operator} {f : FieldId} {x result : VarId} {e : Expr}
    {I : List OpId → List OpId → Frame → Prop} (hg : g.Tame p faults)
    (hsupplies : g.Supplies p faults id op x e I) (hkind : op.kind = .loadField f)
    (hf : p.isValueField f = some true) (hargs : op.args = [.var x])
    (hresult : op.result? = some result) (halone : g.definers result = [id]) :
    g.Forwards p faults id op result e I := by
  have hhead : op.args.head? = some (.var x) := by simp [hargs]
  have hid : id ∈ g.attached := (mem_definers.mp (halone ▸ List.mem_singleton_self id)).1
  obtain ⟨t, ht⟩ := typeOf_of_live hsupplies.live
  have hcontent : g.contentOf p (.var x) = some t := hsupplies.type.symm.trans ht
  refine ⟨hsupplies.found, by simp [Operator.definesOnly, hkind], halone, hsupplies.live, ?_,
    fun y hy => .inl (hsupplies.free y hy), fun {id' op'} hid' hop' hread hne => ?_,
    hsupplies.settled, hsupplies.invariant, fun hat hsane hI hsafe ha => ?_, hsupplies.fault⟩
  · rw [ht, Operator.wellTyped_loadField (hg.disciplined.typed id hid op hsupplies.found) hkind hf
      hhead hcontent (List.mem_of_mem_head? hresult)]
  · by_contra hescapes
    have hload := hg.disciplined.notLoaded id' hid' op' hop' (by simpa using hescapes) hne result
      hread id (halone ▸ List.mem_singleton_self id) op hsupplies.found
    simp [Operator.isLoad, hkind] at hload
  · obtain ⟨v, w, hv, hw, rfl⟩ := Operator.loadField_action hkind hhead hsupplies.wraps hsafe ha
    exact ⟨w, rfl, hsupplies.value hat hsane hI hsafe hv hw⟩

theorem refines_lowerFieldLoad (hg : g.Tame p faults) (hc : Tracks c g)
    (h : lowerFieldLoad p c id g = .ok b g') : g.Refines g' p faults := by
  obtain ⟨found, hfound, h⟩ := query_bind_eq_ok.mp h
  cases found with
  | none =>
    obtain ⟨-, rfl⟩ := pure_eq_ok.mp h
    exact hg.refl
  | some read =>
    obtain ⟨check, hcheck, h⟩ := query_bind_eq_ok.mp h
    obtain ⟨value, g₁, hfetch, hstep⟩ := bind_eq_ok.mp h
    obtain ⟨op, f, receiver, info, hop, hkind, hf, hargs, hresult, -, halone, hsource⟩ :=
      fieldRead_spec hfound
    obtain ⟨hid, -⟩ := mem_attached_of_definesAlone hc halone
    obtain rfl : op.checkForNull = check := checkForNull_of_query hop hcheck
    obtain ⟨hrefines, I, hsupplies⟩ := hg.fetched hc hid hop
      (readsBehind_loadField hkind hf hargs) hsource hfetch
    have hshaped := hg.shaped.toWellShaped
    obtain ⟨hlinked₁, hext⟩ := (grows_fetch id op.checkForNull read.source).ok hfetch hshaped.linked
    have hc₁ := hc.extends hext hlinked₁
    have hforwards := forwards_loadField hrefines.tame hsupplies hkind hf hargs hresult
      (definers_fetched hshaped hfetch (hc.definesAlone halone))
    have hrest : ∀ {stable : Bool}, (stable → ∀ y, value = .var y → g₁.Quiet p y) →
        (forward c id read.result value stable >>= fun _ => pure true : Edit Bool) g₁ = .ok b g' →
        g.Refines g' p faults := by
      intro stable hquiet h
      obtain ⟨b', g₂, hforward, h⟩ := bind_eq_ok.mp h
      obtain ⟨-, rfl⟩ := pure_eq_ok.mp h
      exact hrefines.trans (hforwards.refines hrefines.tame hc₁ hquiet hforward)
    obtain ⟨result, source⟩ := read
    cases source with
    | value e =>
      obtain ⟨stable, hstable, hforward⟩ := query_bind_eq_ok.mp hstep
      obtain ⟨rfl, rfl⟩ := pure_eq_ok.mp hfetch
      refine hrest (fun hs y hy => ?_) hforward
      subst hs hy
      exact hg.disciplined.quiet_of_stable hshaped hc hstable
    | behind pointer t =>
      obtain ⟨stable, g₂, hpure, hforward⟩ := bind_eq_ok.mp hstep
      obtain ⟨-, rfl⟩ := pure_eq_ok.mp hpure
      have hlive := live_of_sourceOf hg.shaped hc
        (liveExpr_of_fits (hshaped.fits hid hop) (by simp [hargs])) hsource
      exact hrest (fun _ y hy => quiet_fetched hshaped hfetch hlive hy) hforward

theorem scalar_of_escapes {op : Operator} {x : VarId} (hfits : op.Fits g) (h : op.escapes p g)
    (hne : op.kind ≠ .addressOf) (hx : x ∈ op.reads) : g.isScalarExpr p (.var x) = some true := by
  unfold Operator.escapes at h
  split at h
  · exact absurd ‹_› hne
  · rename_i f hkind
    obtain ⟨e, hargs⟩ : ∃ e, op.args = [e] := by
      have hlength := hfits.args (a := .exactly 1) (by rw [hkind]; rfl)
      exact List.length_eq_one_iff.mp (Arity.admits_exactly.mp hlength)
    obtain rfl : e = .var x := by simpa [mem_reads, hargs, eq_comm] using hx
    simpa [hargs, Expr.isConst] using h
  · cases h

/-- The address of a wrapper's field is the address of the variable that holds the wrapper. -/
theorem refines_addressOf {op : Operator} {f : FieldId} {x result : VarId} {new : OpId}
    (hg : g.Tame p faults) (hid : id ∈ g.attached) (hop : g.op id = some op)
    (hkind : op.kind = .loadFieldAddress f) (hargs : op.args = [.var x])
    (hresult : op.result? = some result) (hscalar : g.isScalarExpr p (.var x) = some true)
    (h : substitute id (.addressOf result x) .keep g = .ok new g') : g.Refines g' p faults := by
  have hshaped := hg.shaped.toWellShaped
  have hd := hg.disciplined
  have hhead : op.args.head? = some (.var x) := by simp [hargs]
  have hmem : result ∈ op.results := List.mem_of_mem_head? hresult
  have hfits := hshaped.fits hid hop
  have hfree : g.Free p x := hd.free_of_scalar hshaped hscalar
  have hreceiver : ∀ {s v}, op.Safe p g s → s.read (.var x) = some v →
      v = .undefined ∨ ∃ w, v = .bits w := by
    intro s v hsafe hv
    obtain h | ⟨-, h⟩ | ⟨⟨u, hu⟩, -⟩ :=
      hsafe.receiver (by simp [Operator.usesReceiver, hkind]) hhead (.inl hscalar) hv
    · exact .inl h
    · exact .inr h
    · rw [pointeeOf_of_scalar hscalar] at hu
      cases hu
  refine hg.substituted h hop (by simp [Operator.isControl, hkind, OpKind.isControl])
    (sound_addressOf (writable_of_fits hfits hmem) (liveExpr_of_fits hfits (by simp [hargs])))
    ?_ (fun _ => ?_) .trivial ?_ ?_
  · obtain ⟨-, -, htyped⟩ := Operator.wellTyped_loadFieldAddress (hd.typed id hid op hop) hkind hhead
    obtain ⟨-, hpointee, -⟩ := htyped result hmem
    refine ⟨?_, ?_, rfl, fun q hq {id' op'} hid' hop' hdef => ?_, by rintro ⟨⟩⟩
    · simp [Operator.wellTyped, Operator.addressOf, hpointee hscalar]
    · simp [Operator.escapes, Operator.addressOf, pointeeOf_of_scalar hscalar]
    · obtain rfl : q = x := by simpa [mem_reads, Operator.addressOf] using hq
      obtain ⟨hescapes, hplace⟩ := hfree hid' hop' hdef
      simp [hescapes, hplace]
  · refine ⟨by rintro ⟨⟩, fun haddress hq => ?_, fun _ _ hderefs => ?_⟩
    · obtain rfl := by simpa [mem_reads, Operator.addressOf] using hq
      exact (Free.not_placeOf hfree haddress).elim
    · simp [Operator.derefs, Operator.isStore, hkind] at hderefs
  · intro pre rest s a _ _ _ hsafe ha
    obtain ⟨v, l, hv, hl, rfl⟩ := (Operator.loadFieldAddress_eq_ok hkind hhead).mp ha
    obtain rfl | ⟨w, rfl⟩ := hreceiver hsafe hv
    · cases hl
    · simp only [Pool.fieldPlace, hhead, Option.bind_some, Expr.var?] at hl
      obtain rfl := Except.ok.inj hl
      refine ⟨by rintro ⟨⟩, ?_⟩
      simp only [Operator.into, hresult]
      rfl
  · intro pre rest s ending _ _ _ _ hsafe hfault
    obtain ⟨hnull, -⟩ := Operator.null_of_loadFieldAddress hkind hhead hfault
    obtain h | ⟨w, h⟩ := hreceiver hsafe hnull <;> cases h

/-- Behind a pointer, the address of a wrapper's field is the pointer itself. -/
theorem forwards_loadFieldAddress {op : Operator} {f : FieldId} {receiver : Expr} {result : VarId}
    {u : TypeId} (hg : g.Tame p faults) (hop : g.op id = some op)
    (hkind : op.kind = .loadFieldAddress f) (hf : p.isValueField f = some true)
    (hargs : op.args = [receiver]) (hresult : op.result? = some result)
    (halone : g.definers result = [id]) (hpointee : g.pointeeOf p receiver = some u) :
    g.Forwards p faults id op result receiver fun _ _ _ => True := by
  have hshaped := hg.shaped.toWellShaped
  have hd := hg.disciplined
  have hid : id ∈ g.attached := (mem_definers.mp (halone ▸ List.mem_singleton_self id)).1
  have hhead : op.args.head? = some receiver := by simp [hargs]
  obtain ⟨-, -, htyped⟩ := Operator.wellTyped_loadFieldAddress (hd.typed id hid op hop) hkind hhead
  have htype : g.typeOf (.var result) = g.typeOf receiver :=
    (htyped result (List.mem_of_mem_head? hresult)).2.2 hf hpointee
  refine ⟨hop, by simp [Operator.definesOnly, hkind], halone,
    liveExpr_of_fits (hshaped.fits hid hop) (by simp [hargs]), htype.symm, ?_, ?_, ?_, .trivial, ?_,
    ?_⟩
  · rintro y rfl
    exact .inr ⟨by simp [Operator.isPlace, hkind], mem_reads.mpr (by simp [hargs])⟩
  · intro id' op' hid' hop' hread hne
    by_contra hescapes
    have hnot : g.isScalarExpr p (.var result) ≠ some true := fun hscalar => by
      rw [← pointeeOf_congr htype, pointeeOf_of_scalar hscalar] at hpointee
      cases hpointee
    exact hnot (scalar_of_escapes (hshaped.fits hid' hop') (by simpa using hescapes) hne hread)
  · intro _ address q _ _ hderefs
    simp [Operator.derefs, hkind] at hderefs
  · intro pre rest s a _ _ _ hsafe ha
    obtain ⟨v, l, hv, hl, rfl⟩ := (Operator.loadFieldAddress_eq_ok hkind hhead).mp ha
    refine ⟨.pointer l, rfl, ?_⟩
    obtain ⟨o, rfl, -⟩ | ⟨rfl, -⟩ | ⟨w, x, rfl, hx, -⟩ := Operator.fieldPlace_eq_ok.mp hl
    · cases receiver with
      | const k =>
        have hv := Option.some.inj hv
        unfold Value.ofConstant at hv
        split at hv <;> cases hv
      | var x =>
        obtain h | ⟨-, w, h⟩ | ⟨-, h | ⟨l, h⟩⟩ := hsafe.receiver
          (by simp [Operator.usesReceiver, hkind]) hhead (.inr ⟨u, hpointee⟩) hv <;> cases h
    · exact hv
    · obtain rfl := Option.some.inj (hhead.symm.trans hx)
      obtain h | ⟨hscalar, -⟩ | ⟨-, h | ⟨l, h⟩⟩ := hsafe.receiver
        (by simp [Operator.usesReceiver, hkind]) hhead (.inr ⟨u, hpointee⟩) hv
      · cases h
      · rw [pointeeOf_of_scalar hscalar] at hpointee
        cases hpointee
      · cases h
      · cases h
  · intro pre rest s ending hf' _ _ _ _ hfault
    obtain ⟨-, hcheck⟩ := Operator.null_of_loadFieldAddress hkind hhead hfault
    have hunchecked := (hg.prompt hf').unchecked id hid op hop
    simp [Operator.checksField, hkind, hcheck, hf, hargs, hpointee] at hunchecked

theorem refines_lowerFieldAddress (hg : g.Tame p faults) (hc : Tracks c g)
    (h : lowerFieldAddress p c id g = .ok b g') : g.Refines g' p faults := by
  obtain ⟨found, hfound, h⟩ := query_bind_eq_ok.mp h
  cases found with
  | none =>
    obtain ⟨-, rfl⟩ := pure_eq_ok.mp h
    exact hg.refl
  | some found =>
    obtain ⟨op, f, receiver, result, t, hop, hkind, hf, hargs, hresult, halone, htype, hcase⟩ :=
      fieldAddress_spec hfound
    obtain ⟨hid, -⟩ := mem_attached_of_definesAlone hc halone
    obtain ⟨x, hscalar, rfl, rfl⟩ | ⟨u, stable, -, hpointee, hstable, rfl⟩ := hcase
    · obtain ⟨new, g₁, hs, h⟩ := bind_eq_ok.mp h
      obtain ⟨-, rfl⟩ := pure_eq_ok.mp h
      exact refines_addressOf hg hid hop hkind hargs hresult
        (isScalarExpr_eq_some.mpr ⟨t, htype, hscalar⟩) hs
    · obtain ⟨b', g₁, hforward, h⟩ := bind_eq_ok.mp h
      obtain ⟨-, rfl⟩ := pure_eq_ok.mp h
      have hpointee : g.pointeeOf p receiver = some u := by simp [pointeeOf, htype, hpointee]
      refine (forwards_loadFieldAddress hg hop hkind hf hargs hresult (hc.definesAlone halone)
        hpointee).refines hg hc (fun _ y hy => ?_) hforward
      exact hg.disciplined.quiet_of_pointee (hy ▸ hpointee)

theorem same_eq_equal {k : Scalar} (h : k.isFloat = false) : Scalar.same k = Scalar.equal k := by
  cases k <;> first | rfl | cases h

/-- A comparison can be put for a call that compares the values of two operands. -/
theorem refines_compare {op : Operator} {m : MethodId} {method : Method} {k : Scalar}
    {condition : Condition} {result : VarId} {left right : Expr} {new : OpId}
    {I : List OpId → List OpId → Frame → Prop} (hg : g.Tame p faults) (hid : id ∈ g.attached)
    (hop : g.op id = some op) (hkind : op.kind = .call m) (hm : p.method m = some method)
    (hctor : method.kind ≠ .ctor) (hk : p.scalarOf method.owner = some (some k))
    (hresult : op.result? = some result) (hleft : g.LiveExpr left) (hright : g.LiveExpr right)
    (htype : g.typeOf left = some method.owner) (hfree : ∀ y, left = .var y → g.Free p y)
    (hscalar : g.isScalarExpr p right = some true)
    (hsettled : faults → ∀ {address q}, g.PlaceOf address q → g.Before address id → op.derefs p q →
      ∃ r, r ≠ id ∧ g.Settles p q r ∧ g.Before address r ∧ g.Before r id)
    (hI : g.RunInvariant p I)
    (hsame : ∀ {pre rest s a}, g.At pre (id :: rest) → g.Sane p s → I pre (id :: rest) s →
      op.Safe p g s → op.action p g s = .ok a → ∃ v w equal, s.eval left = some v ∧
        s.eval right = some w ∧ v.compareBy (Scalar.equal k) w = .ok equal ∧
        a = op.into (.ofBool (condition.holds equal)))
    (hfault : ∀ {pre rest s ending}, faults → g.At pre (id :: rest) → g.Sane p s →
      I pre (id :: rest) s → op.Safe p g s → ¬op.Faults p g s ending)
    (h : substitute id (.compare condition result left right) .keep g = .ok new g') :
    g.Refines g' p faults := by
  have hshaped := hg.shaped.toWellShaped
  have hwritable : g.Writable result :=
    writable_of_fits (hshaped.fits hid hop) (List.mem_of_mem_head? hresult)
  have hfrees : ∀ q ∈ (Operator.compare condition result left right).reads, g.Free p q := by
    intro q hq
    obtain hq | hq : .var q = left ∨ .var q = right := by
      simpa [mem_reads, Operator.compare] using hq
    · exact hfree q hq.symm
    · exact hg.disciplined.free_of_scalar hshaped (hq ▸ hscalar)
  refine hg.substituted h hop (by simp [Operator.isControl, hkind, OpKind.isControl])
    (sound_compare hwritable hleft hright) ?_ (fun hf => ?_) hI ?_ hfault
  · refine ⟨rfl, rfl, rfl, fun q hq {id' op'} hid' hop' hdef => ?_, by rintro ⟨⟩⟩
    obtain ⟨hescapes, hplace⟩ := hfrees q hq hid' hop' hdef
    simp [hescapes, hplace]
  · refine ⟨fun _ => ?_, fun haddress hq => ?_, fun haddress hbefore hderefs => .inr (.inl ?_)⟩
    · simp [Operator.silent, Operator.isPlace, hkind, hm, hctor]
    · exact (Free.not_placeOf (hfrees _ hq) haddress).elim
    · refine hsettled hf haddress hbefore (hderefs.resolve_right ?_)
      simp [Operator.isStore, hkind]
  · intro pre rest s a hat hsane hIs hsafe ha
    obtain ⟨v, w, equal, hv, hw, hequal, rfl⟩ := hsame hat hsane hIs hsafe ha
    refine ⟨by rintro ⟨⟩, ?_⟩
    simp only [Operator.into, hresult, Option.map_some]
    exact Operator.action_compare result hv hw htype hk hequal

theorem readsBehind_equals {op : Operator} {m : MethodId} {method : Method} {name : String}
    {k : Scalar} {x : VarId} {right : Expr} (hkind : op.kind = .call m)
    (hm : p.method m = some method) (hname : p.name method.name = some name)
    (hk : p.scalarOf method.owner = some (some k))
    (hof : WrapperMethod.of? method.kind name = some .equals) (hargs : op.args = [.var x, right])
    (hright : g.isScalarExpr p right = some true) : op.ReadsBehind p g x where
  toUnwraps := Operator.unwraps_equals hkind hm hname hk hof (by simp [hargs])
  derefs := by
    simp [Operator.derefs, hkind, hargs, hm, WrapperMethod.kind_of? hof, WrapperMethod.kind]
  silent := by
    simp [Operator.silent, hkind, hm, WrapperMethod.kind_of? hof, WrapperMethod.kind]
  scalars := fun y hy => by
    obtain rfl | rfl : y = x ∨ .var y = right := by simpa [mem_reads, hargs] using hy
    · exact .inl rfl
    · exact .inr hright
  control := by simp [Operator.isControl, hkind, OpKind.isControl]

theorem refines_static_equality {op : Operator} {m : MethodId} {method : Method}
    {condition : Condition} {result : VarId} {unused left right : Expr} {new : OpId}
    (hg : g.Tame p faults) (hop : g.op id = some op) (hkind : op.kind = .call m)
    (hm : p.method m = some method) (howner : p.isScalar method.owner = some true)
    (hcondition : p.equalityCondition method = some (some condition))
    (hstatic : method.kind = .ofType) (hresult : op.result? = some result)
    (hargs : op.args = [unused, left, right]) (hleft : g.isScalarExpr p left = some true)
    (hright : g.isScalarExpr p right = some true)
    (h : substitute id (.compare condition result left right) .keep g = .ok new g') :
    g.Refines g' p faults := by
  have hshaped := hg.shaped.toWellShaped
  have hid := (substitute_spec hshaped.linked h).1.attached
  have hfits := hshaped.fits hid hop
  obtain ⟨k, hk⟩ := Pool.exists_scalarOf howner
  obtain ⟨htypes, -⟩ := Operator.wellTyped_call (hg.disciplined.typed id hid op hop) hkind hm howner
    hcondition
  refine refines_compare hg hid hop hkind hm (by simp [hstatic]) hk hresult
    (liveExpr_of_fits hfits (by simp [hargs])) (liveExpr_of_fits hfits (by simp [hargs]))
    (htypes left (by simp [hargs])) ?_ hright ?_ .trivial ?_ ?_ h
  · rintro y rfl
    exact hg.disciplined.free_of_scalar hshaped hleft
  · intro _ address q _ _ hderefs
    simp [Operator.derefs, hkind, hm, hstatic] at hderefs
  · intro pre rest s a _ _ _ _ ha
    rw [Operator.equality_action hkind hm hstatic hcondition hk] at ha
    simp only [Except.bind_eq_ok, Except.pure_eq_ok, Operator.arg_eq_ok, hargs] at ha
    obtain ⟨v, ⟨_, ⟨⟩, hv⟩, w, ⟨_, ⟨⟩, hw⟩, equal, hequal, rfl⟩ := ha
    exact ⟨v, w, equal, hv, hw, hequal, rfl⟩
  · intro pre rest s ending _ _ _ _ _ hfault
    obtain ⟨e, he, hcase⟩ := hfault.exists_error
    rw [Operator.equality_action hkind hm hstatic hcondition hk] at he
    simp only [Except.bind_eq_error] at he
    obtain harg | ⟨v, -, harg | ⟨w, -, hcompare | ⟨equal, -, hpure⟩⟩⟩ := he
    · obtain rfl | ⟨cause, rfl⟩ := Operator.arg_eq_error harg <;> simp at hcase
    · obtain rfl | ⟨cause, rfl⟩ := Operator.arg_eq_error harg <;> simp at hcase
    · obtain rfl := Operator.compareBy_eq_error hcompare
      simp at hcase
    · cases hpure

theorem refines_equals {op : Operator} {m : MethodId} {method : Method} {k : Scalar}
    {condition : Condition} {result x : VarId} {left right : Expr} {new : OpId}
    {I : List OpId → List OpId → Frame → Prop} (hg : g.Tame p faults)
    (hsupplies : g.Supplies p faults id op x left I) (hkind : op.kind = .call m)
    (hm : p.method m = some method) (hk : p.scalarOf method.owner = some (some k))
    (hfloat : k.isFloat = false) (hcondition : p.equalityCondition method = some (some condition))
    (hinstance : method.kind ≠ .ofType) (hresult : op.result? = some result)
    (hargs : op.args = [.var x, right]) (hright : g.isScalarExpr p right = some true)
    (h : substitute id (.compare condition result left right) .keep g = .ok new g') :
    g.Refines g' p faults := by
  have hshaped := hg.shaped.toWellShaped
  have hid := (substitute_spec hshaped.linked h).1.attached
  have hop := hsupplies.found
  have hhead : op.args.head? = some (.var x) := by simp [hargs]
  obtain ⟨name, hname, ⟨hof, hequals, rfl⟩ | ⟨-, hstatic, -⟩ | ⟨-, hstatic, -⟩⟩ :=
    Pool.equalityCondition_spec hcondition
  rotate_left
  · exact absurd hstatic hinstance
  · exact absurd hstatic hinstance
  have howner : p.isScalar method.owner = some true := by simp [Pool.isScalar, hk]
  obtain ⟨-, hcontent⟩ := Operator.wellTyped_call (hg.disciplined.typed id hid op hop) hkind hm howner
    hcondition
  refine refines_compare hg hid hop hkind hm (by simp [hequals]) hk hresult hsupplies.live
    (liveExpr_of_fits (hshaped.fits hid hop) (by simp [hargs]))
    (hsupplies.type.trans (hcontent hinstance _ hhead)) hsupplies.free hright hsupplies.settled
    hsupplies.invariant ?_ hsupplies.fault h
  intro pre rest s a hat hsane hI hsafe ha
  obtain ⟨v, w, u, equal, hv, hw, hu, hequal, rfl⟩ :=
    Operator.equals_action hkind hm hname hk hof hhead ha
  obtain ⟨_, he, hu⟩ := Operator.arg_eq_ok.mp hu
  obtain rfl : right = _ := by simpa [hargs] using he
  rw [same_eq_equal hfloat] at hequal
  exact ⟨w, u, equal, hsupplies.value hat hsane hI hsafe hv hw, hu, hequal, rfl⟩

theorem refines_lowerEquality (hg : g.Tame p faults) (hc : Tracks c g)
    (h : lowerEquality p c id g = .ok b g') : g.Refines g' p faults := by
  obtain ⟨found, hfound, h⟩ := query_bind_eq_ok.mp h
  cases found with
  | none =>
    obtain ⟨-, rfl⟩ := pure_eq_ok.mp h
    exact hg.refl
  | some cmp =>
    obtain ⟨check, hcheck, h⟩ := query_bind_eq_ok.mp h
    obtain ⟨left, g₁, hfetch, h⟩ := bind_eq_ok.mp h
    obtain ⟨new, g₂, hs, h⟩ := bind_eq_ok.mp h
    obtain ⟨-, rfl⟩ := pure_eq_ok.mp h
    have hlinked := ((grows_fetch id check cmp.left).ok hfetch hg.shaped.linked).1
    have hid := attached_of_fetch hg.shaped.linked hfetch (substitute_spec hlinked hs).1.attached
    obtain ⟨op, m, method, hop, hkind, hm, howner, hcondition, hresult, hoperands⟩ :=
      equalityComparison_spec hfound
    obtain rfl : op.checkForNull = check := checkForNull_of_query hop hcheck
    obtain ⟨hstatic, hoperands⟩ | ⟨hinstance, hoperands⟩ := hoperands
    · obtain ⟨unused, e, hargs, hleft, hscalar, hright⟩ := staticOperands_spec hoperands
      rw [hleft] at hfetch
      obtain ⟨rfl, rfl⟩ := pure_eq_ok.mp hfetch
      exact refines_static_equality hg hop hkind hm howner hcondition hstatic hresult hargs hscalar
        hright hs
    · obtain ⟨this, kind, hargs, hright, hkindOf, hfloat, hsource⟩ := instanceOperands_spec hoperands
      obtain ⟨k, hk⟩ := Pool.exists_scalarOf howner
      obtain rfl : kind = some k := Option.some.inj (hkindOf.symm.trans hk)
      obtain ⟨name, hname, ⟨hof, -⟩ | ⟨-, hstatic, -⟩ | ⟨-, hstatic, -⟩⟩ :=
        Pool.equalityCondition_spec hcondition
      rotate_left
      · exact absurd hstatic hinstance
      · exact absurd hstatic hinstance
      obtain ⟨hrefines, I, hsupplies⟩ := hg.fetched hc hid hop
        (readsBehind_equals hkind hm hname hk hof hargs hright) hsource hfetch
      have hfits := hg.shaped.fits hid hop
      obtain ⟨-, -, -, hvar⟩ := shaped_fetch hg.shaped hfetch
        ⟨op, hop, by simp [Operator.isControl, hkind, OpKind.isControl]⟩
        (live_of_sourceOf hg.shaped hc (liveExpr_of_fits hfits (by simp [hargs])) hsource)
      have hright₁ : g₁.isScalarExpr p cmp.right = some true := by
        rw [isScalarExpr_congr
          (typeOf_of_var_eq (liveExpr_of_fits hfits (by simp [hargs])) hvar)]
        exact hright
      exact hrefines.trans (refines_equals hrefines.tame hsupplies hkind hm hk (by simpa using hfloat)
        hcondition hinstance hresult hargs hright₁ hs)

end Edit
end ScalarLowering
