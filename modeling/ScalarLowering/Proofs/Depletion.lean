import ScalarLowering.Proofs.Narrowing

/-! Each edit of a run uses up what it was made for and leaves no more to lower. -/

namespace ScalarLowering

namespace Operator

variable {new : Operator} {p : Pool} {g : Graph}

theorem resolved_of_usesReceiver (h : new.usesReceiver = false) : new.resolved p g := by
  simp [resolved, h]

end Operator

namespace Graph

variable {g g' : Graph} {p : Pool} {c : Chains} {id old : OpId} {op new : Operator} {v x y : VarId}
  {e value : Expr} {t : TypeId}

theorem readable_of_arg (hid : id ∈ g.attached) (hop : g.op id = some op) (hx : .var x ∈ op.args) :
    g.Readable x :=
  .inl (readers_ne_nil hid hop (mem_reads.mpr hx))

theorem fitting_of_plain (hsound : g.Sound new) (hplain : new.usesReceiver = false)
    (htyped : new.wellTyped p g)
    (hkind : new.kind ≠ .addressOf ∧ new.forwards p = false)
    (hreads : ∀ x, .var x ∈ new.args → g.Readable x) : g.Fitting p new := by
  refine ⟨hsound, htyped, Operator.resolved_of_usesReceiver hplain, fun h => ?_, fun h => ?_,
    fun x hx => hreads x (mem_reads.mp hx)⟩
  · simp [hplain] at h
  · simp [hkind] at h

theorem fitting_nop : g.Fitting p .nop :=
  fitting_of_plain sound_nop rfl rfl ⟨by simp [Operator.nop], rfl⟩ (by simp [Operator.nop])

theorem fitting_copy (hx : g.Writable x) (hvalue : g.LiveExpr value)
    (hread : ∀ y, value = .var y → g.Readable y) : g.Fitting p (.copy x value) :=
  fitting_of_plain (sound_copy hx hvalue) rfl rfl ⟨by simp [Operator.copy], rfl⟩
    (by simpa [Operator.copy, eq_comm] using hread)

theorem fitting_compare {condition : Condition} {left right : Expr} (hx : g.Writable x)
    (hl : g.LiveExpr left) (hr : g.LiveExpr right) (hleft : ∀ y, left = .var y → g.Readable y)
    (hright : ∀ y, right = .var y → g.Readable y) : g.Fitting p (.compare condition x left right) := by
  refine fitting_of_plain (sound_compare hx hl hr) rfl rfl ⟨by simp [Operator.compare], rfl⟩
    fun y hy => ?_
  obtain h | h : .var y = left ∨ .var y = right := by simpa [Operator.compare] using hy
  · exact hleft y h.symm
  · exact hright y h.symm

end Graph

namespace Edit

open ScalarLowering.Graph

variable {g g' : Graph} {p : Pool} {c : Chains} {id old : OpId} {op new : Operator} {v x y : VarId}
  {e value : Expr} {t : TypeId}

theorem readers_of_substitute (hg : g.Linked) {policy : Policy}
    (h : substitute old new policy g = .ok id g') (hq : ∀ r ∈ g.readers x, r = old)
    (hnew : .var x ∉ new.args) : g'.readers x = [] := by
  obtain ⟨hs, rfl, hcode⟩ := substitute_spec hg h
  obtain ⟨put, hput, hcode⟩ := exists_of_code hcode
  refine List.eq_nil_iff_forall_not_mem.mpr fun r hr => ?_
  obtain ⟨hr, rop, hrop, hreads⟩ := mem_readers.mp hr
  obtain hmem | ⟨hne, hatt⟩ := hs.mem_attached.mp hr
  · obtain rfl := List.mem_singleton.mp hmem
    obtain rfl := Option.some.inj (hput.symm.trans hrop)
    rw [← (Operator.code_eq.mp hcode).2.1] at hnew
    exact hnew (mem_reads.mp (List.contains_iff_mem.mp hreads))
  · rw [hs.op (.inl hne) (hg.lt_of_mem hatt)] at hrop
    exact hne (hq r (mem_readers.mpr ⟨hatt, rop, hrop, hreads⟩))

theorem advances_substitute (hg : g.Tended p) {policy : Policy}
    (h : substitute old new policy g = .ok id g') (hold : g.op old = some op)
    (hcontrol : op.isControl = false) (hnew : g.Fitting p new)
    (hlost : ∀ x ∈ op.results, x ∈ new.results ∨ g'.readers x = []) :
    g.Advances g' p ∧ old ∉ g'.attached := by
  obtain ⟨hs, rfl, hcode⟩ := substitute_spec hg.linked h
  have hfresh := notMem_attached_size hg.linked
  obtain ⟨put, hput, hcode⟩ := exists_of_code hcode
  refine ⟨hg.advances_spliced hs hold hcontrol (fun n hn _ => ?_) fun _ x hx => ?_, fun hatt => ?_⟩
  · obtain rfl := List.mem_singleton.mp hn
    exact ⟨hfresh, put, hput, hnew.of_code hcode⟩
  · refine (hlost x hx).symm.imp_right fun hx => ⟨_, List.mem_singleton_self _, put, hput, ?_⟩
    exact (Operator.code_eq.mp hcode).2.2.1 ▸ hx
  · obtain hmem | ⟨hne, -⟩ := hs.mem_attached.mp hatt
    · exact hfresh (List.mem_singleton.mp hmem ▸ hs.attached)
    · exact hne rfl

theorem advances_remove (hg : g.Tended p) {left : Option OpId}
    (h : remove old .discard g = .ok left g') (hold : g.op old = some op)
    (hlost : ∀ x ∈ op.results, g.readers x = []) : g.Advances g' p := by
  obtain ⟨hs, op', hop', hcontrol⟩ := remove_discard_spec hg.linked h
  obtain rfl := Option.some.inj (hold.symm.trans hop')
  exact hg.advances_spliced hs hold hcontrol (by simp) fun _ x hx =>
    .inl (readers_of_erased hg.linked hs (hlost x hx))

/-- Forwarding takes the operator away. What it alone read is no longer read. -/
theorem advances_forward (hg : g.Tended p) (hc : Tracks c g) {result : VarId} {stable b : Bool}
    (h : forward c id result value stable g = .ok b g') (hid : id ∈ g.attached)
    (hop : g.op id = some op) (hforwards : op.forwards p) (hresult : result ∈ op.results)
    (htype : g.typeOf value = g.typeOf (.var result)) (hlive : g.LiveExpr value)
    (hreadable : ∀ y, value = .var y → g.Readable y) :
    (g.Advances g' p ∧ id ∉ g'.attached) ∧
      ∀ q, g.readers q = [id] → value ≠ .var q → g'.readers q = [] := by
  obtain ⟨hresults, hcontrol⟩ := results_eq_singleton (hg.fits hid hop) hresult
  obtain ⟨-, -, hne, hseen, n, g₁, left, hredirect, hremove⟩ | ⟨-, new, hsubstitute⟩ := forward_spec h
  · obtain ⟨hs, hall⟩ := redirectAll_spec hg.linked hc hredirect
    have h₁ := hg.advances_rewired hs hall
      (mem_definers.mpr ⟨hid, op, hop, List.contains_iff_mem.mpr hresult⟩) hop hforwards htype hlive
      (fun hr hrop => (seenByReaders_spec hg.linked hc hseen hr).2.1 hrop) hreadable
    have hop₁ : g₁.op id = some (op.substitute result value) := by rw [hall id hid, hop]; rfl
    have hunread : g₁.readers result = [] := by
      refine List.eq_nil_iff_forall_not_mem.mpr fun r hr => ?_
      obtain ⟨-, hself⟩ | ⟨-, hvalue⟩ := (hs.mem_readers hall).mp hr
      · exact hself rfl
      · exact hne (Expr.var?_eq_some.mpr hvalue)
    obtain ⟨-, -, -, hkeep⟩ := remove_eq_ok.mp hremove
    obtain ⟨new, g₂, hsubstitute, hkeep⟩ := bind_eq_ok.mp hkeep
    obtain ⟨-, rfl⟩ := pure_eq_ok.mp hkeep
    have hnop : ∀ q, (∀ r ∈ g₁.readers q, r = id) → g₂.readers q = [] := fun q hq =>
      readers_of_substitute h₁.tended.linked hsubstitute hq (by simp [Operator.nop])
    have hlost : ∀ x ∈ (op.substitute result value).results,
        x ∈ Operator.nop.results ∨ g₂.readers x = [] := by
      intro x hx
      obtain rfl : x = result := by simpa [Operator.substitute, hresults] using hx
      exact .inr (hnop x (by simp [hunread]))
    obtain ⟨h₂, hgone⟩ :=
      advances_substitute h₁.tended hsubstitute hop₁ hcontrol fitting_nop hlost
    refine ⟨⟨h₁.trans h₂, hgone⟩, fun q hq hvalue => hnop q fun r hr => ?_⟩
    obtain ⟨hr, -⟩ | ⟨-, hq'⟩ := (hs.mem_readers hall).mp hr
    · simpa [hq] using hr
    · exact absurd hq' hvalue
  · refine ⟨advances_substitute hg hsubstitute hop hcontrol
      (fitting_copy (writable_of_fits (hg.fits hid hop) hresult) hlive hreadable)
      (by simp [hresults, Operator.copy]), fun q hq hvalue => ?_⟩
    exact readers_of_substitute hg.linked hsubstitute (by simp [hq])
      (by simpa [Operator.copy, eq_comm] using hvalue)

/-- What a fetch leaves for the operator it is made for: an operand that may be read, with the type
of what is behind the receiver. -/
structure Fetched (g g' : Graph) (p : Pool) (id : OpId) (op : Operator) (x : VarId) (e : Expr) :
    Prop extends Advances g g' p where
  attached : id ∈ g'.attached
  found : g'.op id = some op
  live : g'.LiveExpr e
  readable : ∀ y, e = .var y → g'.Readable y
  type : g'.typeOf e = g'.contentOf p (.var x)

section Fetching

variable (hg : g.Tended p) (hid : id ∈ g.attached) (hop : g.op id = some op)
  (hx : .var x ∈ op.args)
include hg hid hop hx

theorem fetched_self (hscalar : g.isScalarExpr p (.var x) = some true) :
    Fetched g g p id op x (.var x) where
  toAdvances := hg.refl
  attached := hid
  found := hop
  live := liveExpr_of_fits (hg.fits hid hop) hx
  readable _ hy := Expr.var.inj hy ▸ readable_of_arg hid hop hx
  type := (contentOf_of_scalar hscalar).symm

omit hx in
theorem fetched_addressed {d : OpId} {source : Operator} (hpointee : g.pointeeOf p (.var x) = some t)
    (hd : g.definers x = [d]) (hsource : g.op d = some source) (hkind : source.kind = .addressOf)
    (hargs : source.args = [e]) : Fetched g g p id op x e := by
  have hmem : d ∈ g.definers x := hd ▸ List.mem_singleton_self d
  have hdatt := (mem_definers.mp hmem).1
  have he : e ∈ source.args := by simp [hargs]
  refine ⟨hg.refl, hid, hop, liveExpr_of_fits (hg.fits hdatt hsource) he, ?_, ?_⟩
  · rintro y rfl
    exact readable_of_arg hdatt hsource he
  · rw [contentOf_of_pointee hpointee, ← hpointee]
    exact (Operator.wellTyped_addressOf (hg.typed d hdatt source hsource) hkind (by simp [hargs])
      (mem_results_of_mem_definers hmem hsource)).symm

theorem fetched_loaded (hcontrol : op.isControl = false) {check : Bool}
    (hpointee : g.pointeeOf p (.var x) = some t) (h : fetch id check (.behind x t) g = .ok e g') :
    Fetched g g' p id op x e := by
  obtain ⟨rfl, n, load, hcode, hinsert⟩ := fetch_behind_spec h
  have h₁ := hg.advances_addVar .temporary t
  have hg₁ := h₁.tended
  obtain ⟨hs, rfl, hn⟩ := insertBefore_spec hg₁.linked hinsert
  obtain ⟨put, hput, hput'⟩ := exists_of_code hn
  have hput' := hput'.trans hcode
  have hkind : put.kind = .loadIndirect t := (Operator.code_eq.mp hput').1
  have hunread : (g.addVar .temporary t).2.readers ⟨g.vars.size⟩ = [] :=
    readers_fresh hg.toWellShaped
  have hinfo : (g.addVar .temporary t).2.var ⟨g.vars.size⟩ =
      some { kind := .temporary, type := t } := by
    rw [var_addVar, if_pos rfl]
  have hpointee₁ : (g.addVar .temporary t).2.pointeeOf p (.var x) = some t :=
    (pointeeOf_congr (typeOf_addVar_of_live (liveExpr_of_fits (hg.fits hid hop) hx))).trans hpointee
  have hfitting : (g.addVar .temporary t).2.Fitting p
      (.loadIndirect t ⟨g.vars.size⟩ (.var x) check) := by
    refine ⟨sound_loadIndirect t check ⟨_, hinfo, rfl, rfl⟩ (liveExpr_of_fits (hg₁.fits hid hop) hx),
      ?_, Operator.resolved_of_usesReceiver rfl, fun huses => ?_,
      fun _ {y id' op'} hy hid' hop' _ hthis => ?_, fun y hy => ?_⟩
    · simp [Operator.wellTyped, Operator.loadIndirect, hpointee₁, typeOf]
    · simp [Operator.usesReceiver, Operator.loadIndirect] at huses
    · obtain rfl : y = ⟨g.vars.size⟩ := by simpa [Operator.loadIndirect] using hy
      exact readers_ne_nil hid' hop' (mem_reads.mpr (List.mem_of_mem_head? hthis)) hunread
    · obtain rfl : y = x := by simpa [mem_reads, Operator.loadIndirect] using hy
      exact readable_of_arg hid hop hx
  have hnew : ∀ n ∈ [(⟨(g.addVar .temporary t).2.ops.size⟩ : OpId), id], n ≠ id →
      n ∉ (g.addVar .temporary t).2.attached ∧
        ∃ new, g'.op n = some new ∧ (g.addVar .temporary t).2.Fitting p new := by
    intro n hn hne
    obtain rfl := (List.mem_cons.mp hn).resolve_right (by simpa using hne)
    exact ⟨notMem_attached_size hg₁.linked, put, hput, hfitting.of_code hput'⟩
  have htypes := (sameVars_of_vars_eq hs.vars).typeOf
  refine ⟨h₁.trans (hg₁.advances_spliced hs hop hcontrol hnew fun hnot => absurd (by simp) hnot),
    hs.mem_attached.mpr (.inl (by simp)), ?_, ?_, ?_, ?_⟩
  · exact (hs.op (.inr (by simp)) (hg₁.linked.lt_of_mem hid)).trans hop
  · rintro y ⟨⟩
    exact ⟨_, by simpa [var, hs.vars] using hinfo, rfl⟩
  · -- the load is the only definition of the temporary
    rintro y ⟨⟩
    refine .inr fun {d dop} hd hdop => ?_
    obtain ⟨hdatt, dop', hdop', hdefines⟩ := mem_definers.mp hd
    obtain rfl := Option.some.inj (hdop.symm.trans hdop')
    obtain ⟨hmem, hfresh, -⟩ | ⟨hdatt, hsame⟩ := hg₁.spliced_cases hs hnew hdatt hdop
    · obtain rfl := (List.mem_cons.mp hmem).resolve_right fun h =>
        hfresh (List.mem_singleton.mp h ▸ hid)
      obtain rfl := Option.some.inj (hput.symm.trans hdop)
      simp [Operator.usesReceiver, hkind]
    · have hmem : d ∈ (g.addVar .temporary t).2.definers ⟨g.vars.size⟩ :=
        mem_definers.mpr ⟨hdatt, dop, hsame, hdefines⟩
      have hnone : (g.addVar .temporary t).2.definers ⟨g.vars.size⟩ = [] :=
        definers_fresh hg.toWellShaped
      simp [hnone] at hmem
  · rw [htypes, contentOf_congr (htypes _), contentOf_of_pointee hpointee₁]
    simp [typeOf, hinfo]

theorem fetched_of_sourceOf (hc : Tracks c g) (hcontrol : op.isControl = false) {source : Source}
    {check : Bool} (hsource : g.sourceOf p c id x = .ok source)
    (h : fetch id check source g = .ok e g') : Fetched g g' p id op x e := by
  obtain ⟨info, hinfo, hcase⟩ := sourceOf_spec hsource
  have htype : g.typeOf (.var x) = some info.type := by simp [typeOf, hinfo]
  obtain ⟨hscalar, rfl⟩ | ⟨t, -, hpointee, hcase⟩ := hcase
  · obtain ⟨rfl, rfl⟩ := pure_eq_ok.mp h
    exact fetched_self hg hid hop hx (isScalarExpr_eq_some.mpr ⟨_, htype, hscalar⟩)
  have hpointee : g.pointeeOf p (.var x) = some t := by simp [pointeeOf, htype, hpointee]
  obtain ⟨e', -, haddressed, rfl⟩ | rfl := hcase
  · obtain ⟨rfl, rfl⟩ := pure_eq_ok.mp h
    obtain ⟨d, sourceOp, hd, hsourceOp, hkind, hargs⟩ := addressedBy_spec haddressed
    exact fetched_addressed hg hid hop hpointee (hc.definers_eq hd) hsourceOp hkind hargs
  · exact fetched_loaded hg hid hop hx hcontrol hpointee h

end Fetching

theorem isControl_of_usesReceiver (h : op.usesReceiver) : op.isControl = false := by
  unfold Operator.usesReceiver at h
  split at h <;> simp_all [Operator.isControl, OpKind.isControl]

/-- The comparison is put for the call once its left operand is at hand. -/
theorem advances_compare {g₁ : Graph} {condition : Condition} {result : VarId} {left right : Expr}
    {new : OpId} (h₁ : g.Advances g₁ p) (hid : id ∈ g₁.attached) (hop : g₁.op id = some op)
    (huses : op.usesReceiver) (hresult : op.result? = some result) (hright : right ∈ op.args)
    (hlive : g₁.LiveExpr left) (hleft : ∀ y, left = .var y → g₁.Readable y)
    (h : substitute id (.compare condition result left right) .keep g₁ = .ok new g') :
    g.Advances g' p ∧ id ∉ g'.attached := by
  have hfits := h₁.tended.fits hid hop
  have hmem : result ∈ op.results := List.mem_of_mem_head? hresult
  obtain ⟨hadvances, hgone⟩ := advances_substitute h₁.tended h hop (isControl_of_usesReceiver huses)
    (fitting_compare (writable_of_fits hfits hmem) hlive (liveExpr_of_fits hfits hright) hleft
      fun y hy => readable_of_arg hid hop (hy ▸ hright))
    (by simp [(results_eq_singleton hfits hmem).1, Operator.compare])
  exact ⟨h₁.trans hadvances, hgone⟩

section Lowering

variable (hc : Tracks c g) (hg : g.Tended p)
include hc hg

theorem advances_lowerConstructor {b : Bool} (h : lowerConstructor p c id g = .ok b g') :
    g.Advances g' p ∧ (id ∈ g'.attached → g' = g ∧ g.constructorCopy p c id = .ok none) := by
  obtain ⟨found, hfound, h⟩ := query_bind_eq_ok.mp h
  cases found with
  | none =>
    obtain ⟨-, rfl⟩ := pure_eq_ok.mp h
    exact ⟨hg.refl, fun _ => ⟨rfl, hfound⟩⟩
  | some copy =>
    obtain ⟨new, g₁, hs, h⟩ := bind_eq_ok.mp h
    obtain ⟨-, rfl⟩ := pure_eq_ok.mp h
    obtain ⟨op, m, method, this, value, d, source, x, -, info, hop, hkind, -, -, -, hargs, hresults,
      -, -, -, hd, hsource, -, hx, hinfo, harg, -, rfl⟩ := constructorCopy_spec hfound
    have hid := (substitute_spec hg.linked hs).1.attached
    obtain ⟨info', hinfo', hdropped⟩ := liveExpr_of_fits
      (hg.fits (mem_attached_of_defCount hc hd) hsource) (List.mem_of_mem_head? hx) x rfl
    obtain rfl : info = info' := Option.some.inj (hinfo.symm.trans hinfo')
    have hvalue : value ∈ op.args := by simp [hargs]
    obtain ⟨hadvances, hgone⟩ := advances_substitute hg hs hop
      (isControl_of_usesReceiver (by simp [Operator.usesReceiver, hkind]))
      (fitting_copy ⟨info, hinfo, hdropped, harg⟩ (liveExpr_of_fits (hg.fits hid hop) hvalue)
        fun y hy => readable_of_arg hid hop (hy ▸ hvalue)) (by simp [hresults])
    exact ⟨hadvances, fun hatt => absurd hatt hgone⟩

theorem advances_lowerEquality {b : Bool} (h : lowerEquality p c id g = .ok b g') :
    g.Advances g' p ∧ (id ∈ g'.attached → g' = g ∧ g.equalityComparison p c id = .ok none) := by
  obtain ⟨found, hfound, h⟩ := query_bind_eq_ok.mp h
  cases found with
  | none =>
    obtain ⟨-, rfl⟩ := pure_eq_ok.mp h
    exact ⟨hg.refl, fun _ => ⟨rfl, hfound⟩⟩
  | some cmp =>
    obtain ⟨check, -, h⟩ := query_bind_eq_ok.mp h
    obtain ⟨left, g₁, hfetch, h⟩ := bind_eq_ok.mp h
    obtain ⟨new, g₂, hs, h⟩ := bind_eq_ok.mp h
    obtain ⟨-, rfl⟩ := pure_eq_ok.mp h
    have hlinked := ((grows_fetch id check cmp.left).ok hfetch hg.linked).1
    have hid := attached_of_fetch hg.linked hfetch (substitute_spec hlinked hs).1.attached
    obtain ⟨op, m, method, hop, hkind, -, -, -, hresult, hoperands⟩ := equalityComparison_spec hfound
    have huses : op.usesReceiver := by simp [Operator.usesReceiver, hkind]
    have hgone : g.Advances g₂ p ∧ id ∉ g₂.attached := by
      obtain ⟨-, hstatic⟩ | ⟨-, hinstance⟩ := hoperands
      · obtain ⟨unused, e, hargs, hleft, -, -⟩ := staticOperands_spec hstatic
        rw [hleft] at hfetch
        obtain ⟨rfl, rfl⟩ := pure_eq_ok.mp hfetch
        have he : e ∈ op.args := by simp [hargs]
        exact advances_compare hg.refl hid hop huses hresult (by simp [hargs])
          (liveExpr_of_fits (hg.fits hid hop) he) (fun y hy => readable_of_arg hid hop (hy ▸ he)) hs
      · obtain ⟨this, kind, hargs, -, -, -, hsource⟩ := instanceOperands_spec hinstance
        have hf := fetched_of_sourceOf hg hid hop (x := this) (by simp [hargs]) hc
          (isControl_of_usesReceiver huses) hsource hfetch
        exact advances_compare hf.toAdvances hf.attached hf.found huses hresult (by simp [hargs])
          hf.live hf.readable hs
    exact ⟨hgone.1, fun hatt => absurd hatt hgone.2⟩

theorem advances_lowerFieldLoad {b : Bool} (h : lowerFieldLoad p c id g = .ok b g') :
    g.Advances g' p ∧ (id ∈ g'.attached → g' = g ∧ g.fieldRead p c id = .ok none) := by
  obtain ⟨found, hfound, h⟩ := query_bind_eq_ok.mp h
  cases found with
  | none =>
    obtain ⟨-, rfl⟩ := pure_eq_ok.mp h
    exact ⟨hg.refl, fun _ => ⟨rfl, hfound⟩⟩
  | some read =>
    obtain ⟨check, -, h⟩ := query_bind_eq_ok.mp h
    obtain ⟨value, g₁, hfetch, h⟩ := bind_eq_ok.mp h
    obtain ⟨op, f, receiver, info, hop, hkind, hvalue, hargs, hresult, -, halone, hsource⟩ :=
      fieldRead_spec hfound
    obtain ⟨hid, hdefines⟩ := mem_attached_of_definesAlone hc halone
    have huses : op.usesReceiver := by simp [Operator.usesReceiver, hkind]
    have hf := fetched_of_sourceOf hg hid hop (x := receiver) (by simp [hargs]) hc
      (isControl_of_usesReceiver huses) hsource hfetch
    obtain ⟨hlinked₁, hext⟩ := (grows_fetch id check read.source).ok hfetch hg.linked
    have htype : g₁.typeOf value = g₁.typeOf (.var read.result) := by
      obtain ⟨t, ht⟩ := typeOf_of_live hf.live
      rw [ht]
      exact (Operator.wellTyped_loadField (hf.tended.typed id hf.attached op hf.found) hkind hvalue
        (by rw [hargs]; rfl) (hf.type.symm.trans ht) (hdefines hop)).symm
    have hforward : ∀ {stable : Bool}, (forward c id read.result value stable >>= fun _ =>
        pure true : Edit Bool) g₁ = .ok b g' → g.Advances g' p ∧ id ∉ g'.attached := by
      intro stable h
      obtain ⟨b', g₂, hforward, h⟩ := bind_eq_ok.mp h
      obtain ⟨-, rfl⟩ := pure_eq_ok.mp h
      obtain ⟨⟨hadvances, hgone⟩, -⟩ := advances_forward hf.tended (hc.extends hext hlinked₁) hforward
        hf.attached hf.found (by simp [Operator.forwards, hkind, hvalue]) (hdefines hop) htype hf.live
        hf.readable
      exact ⟨hf.toAdvances.trans hadvances, hgone⟩
    have hgone : g.Advances g' p ∧ id ∉ g'.attached := by
      obtain ⟨result, source⟩ := read
      cases source with
      | value e =>
        obtain ⟨stable, -, h⟩ := query_bind_eq_ok.mp h
        exact hforward h
      | behind pointer t =>
        obtain ⟨stable, g₂, hpure, h⟩ := bind_eq_ok.mp h
        obtain ⟨-, rfl⟩ := pure_eq_ok.mp hpure
        exact hforward h
    exact ⟨hgone.1, fun hatt => absurd hatt hgone.2⟩

theorem advances_lowerFieldAddress {b : Bool} (h : lowerFieldAddress p c id g = .ok b g') :
    g.Advances g' p ∧ (id ∈ g'.attached → g' = g ∧ g.fieldAddress p c id = .ok none) := by
  obtain ⟨found, hfound, h⟩ := query_bind_eq_ok.mp h
  cases found with
  | none =>
    obtain ⟨-, rfl⟩ := pure_eq_ok.mp h
    exact ⟨hg.refl, fun _ => ⟨rfl, hfound⟩⟩
  | some found =>
    obtain ⟨op, f, receiver, result, t, hop, hkind, hvalue, hargs, hresult, halone, ht, hcase⟩ :=
      fieldAddress_spec hfound
    obtain ⟨hid, hdefines⟩ := mem_attached_of_definesAlone hc halone
    have hfits := hg.fits hid hop
    have huses : op.usesReceiver := by simp [Operator.usesReceiver, hkind]
    have hforwards : op.forwards p := by simp [Operator.forwards, hkind, hvalue]
    have hreceiver : receiver ∈ op.args := by simp [hargs]
    have htyped := (Operator.wellTyped_loadFieldAddress (e := receiver) (hg.typed id hid op hop) hkind
      (by rw [hargs]; rfl)).2.2 result (hdefines hop)
    have hgone : g.Advances g' p ∧ id ∉ g'.attached := by
      obtain ⟨x, hscalar, rfl, rfl⟩ | ⟨u, stable, -, hpointee, -, rfl⟩ := hcase
      · obtain ⟨new, g₁, hs, h⟩ := bind_eq_ok.mp h
        obtain ⟨-, rfl⟩ := pure_eq_ok.mp h
        have hpointee := htyped.2.1 (isScalarExpr_eq_some.mpr ⟨t, ht, hscalar⟩)
        refine advances_substitute hg hs hop (isControl_of_usesReceiver huses)
          ⟨sound_addressOf (writable_of_fits hfits (hdefines hop)) (liveExpr_of_fits hfits hreceiver),
            ?_, Operator.resolved_of_usesReceiver rfl, ?_, ?_, fun y hy => ?_⟩
          (by simp [(results_eq_singleton hfits (hdefines hop)).1, Operator.addressOf])
        · simp [Operator.wellTyped, Operator.addressOf, hpointee]
        · simp [Operator.usesReceiver, Operator.addressOf]
        · intro _ y id' op' hy hid' hop' hctor hthis
          obtain rfl : y = result := by simpa [Operator.addressOf] using hy
          exact hg.notMem_definers hid' hop' hctor hthis hop hforwards
            (mem_definers.mpr ⟨hid, op, hop, List.contains_iff_mem.mpr (hdefines hop)⟩)
        · obtain rfl : y = x := by simpa [mem_reads, Operator.addressOf] using hy
          exact readable_of_arg hid hop hreceiver
      · obtain ⟨b', g₁, hforward, h⟩ := bind_eq_ok.mp h
        obtain ⟨-, rfl⟩ := pure_eq_ok.mp h
        exact (advances_forward hg hc hforward hid hop hforwards (hdefines hop)
          (htyped.2.2 (u := u) hvalue (by simp [pointeeOf, ht, hpointee])).symm
          (liveExpr_of_fits hfits hreceiver) fun y hy => readable_of_arg hid hop (hy ▸ hreceiver)).1
    exact ⟨hgone.1, fun hatt => absurd hatt hgone.2⟩

end Lowering

theorem readers_of_remove (hg : g.Linked) (hs : g.Spliced g' old [])
    (hq : ∀ r ∈ g.readers x, r = old) : g'.readers x = [] := by
  refine List.eq_nil_iff_forall_not_mem.mpr fun r hr => ?_
  obtain ⟨hr, rop, hrop, hreads⟩ := mem_readers.mp hr
  obtain ⟨hne, hatt⟩ := (hs.mem_attached.mp hr).resolve_left List.not_mem_nil
  rw [hs.op (.inl hne) (hg.lt_of_mem hatt)] at hrop
  exact hne (hq r (mem_readers.mpr ⟨hatt, rop, hrop, hreads⟩))

theorem advances_remove_address {g₁ : Graph} {q : VarId} (hg : g.Linked) (h₁ : g.Advances g₁ p)
    (hgrows : g.Grows g₁) (hop : g.op id = some op) (hresults : op.results = [q])
    (hunread : g₁.readers q = []) {b : Bool}
    (h : (remove id .discard >>= fun _ => pure true : Edit Bool) g₁ = .ok b g') : g.Advances g' p := by
  obtain ⟨left, g₂, hremove, h⟩ := bind_eq_ok.mp h
  obtain ⟨-, rfl⟩ := pure_eq_ok.mp h
  obtain ⟨-, op₁, hop₁, -⟩ := remove_discard_spec h₁.tended.linked hremove
  obtain ⟨op', hop', -, hres, -⟩ := (hgrows hg).2.oldOp (op_eq_some_lt hop) hop₁
  obtain rfl := Option.some.inj (hop.symm.trans hop')
  exact h₁.trans (advances_remove h₁.tended hremove hop₁ (by simpa [hres, hresults] using hunread))

theorem notMem_args_of_loneLoad {load : OpId} {read : Operator} {q : VarId}
    (h : g.LoneLoad id load op read q) (hkind : ∀ t, op.kind ≠ .loadIndirect t) : .var q ∉ op.args := by
  intro hmem
  have hreader := mem_readers_of_reads h.attached h.found (mem_reads.mpr hmem)
  obtain rfl := List.mem_singleton.mp (h.sole ▸ hreader)
  obtain rfl := Option.some.inj (h.found.symm.trans h.foundLoad)
  obtain ⟨t, ht⟩ := h.kind
  exact hkind t ht

theorem advances_remove_load {load : OpId} {read : Operator} {q : VarId} {left : Option OpId}
    {g₁ : Graph} {b : Bool} (hg : g.Tended p) (hlone : g.LoneLoad id load op read q)
    (hvoid : read.results = []) (hremove : remove load .discard g = .ok left g₁)
    (h : (remove id .discard >>= fun _ => pure true : Edit Bool) g₁ = .ok b g') : g.Advances g' p := by
  obtain ⟨hs, -⟩ := remove_discard_spec hg.linked hremove
  exact advances_remove_address hg.linked
    (advances_remove hg hremove hlone.foundLoad (by simp [hvoid])) hs.grows hlone.found
    (hlone.results hg.toWellShaped) (readers_of_remove hg.linked hs (by simp [hlone.sole])) h

theorem advances_foldLocal (hc : Tracks c g) (hg : g.Tended p)
    (haddress : ∀ op ∈ g.op id, op.kind = .addressOf) {b : Bool}
    (h : foldLocal p c id g = .ok b g') : g.Advances g' p := by
  obtain ⟨found, hfound, h⟩ := query_bind_eq_ok.mp h
  rcases found with _ | fold
  · obtain ⟨-, rfl⟩ := pure_eq_ok.mp h
    exact hg.refl
  obtain ⟨op, pointer, hop, hpointer, hcase⟩ := localFold_spec hfound
  have hkind := haddress op hop
  obtain ⟨huses, rfl⟩ | ⟨load, addressed, read, hload, hargs, hread, hcase⟩ := hcase
  · obtain ⟨left, g₂, hremove, h⟩ := bind_eq_ok.mp h
    obtain ⟨-, rfl⟩ := pure_eq_ok.mp h
    have hid := (remove_discard_spec hg.linked hremove).1.attached
    refine advances_remove hg hremove hop fun x hx => ?_
    obtain rfl : x = pointer := by
      simpa [(results_eq_singleton (hg.fits hid hop) (List.mem_of_mem_head? hpointer)).1] using hx
    exact (hc.attachedUses huses).symm
  obtain ⟨q, -, hlone⟩ := loneLoad_of_query hc hload hop hread
  have hresults := hlone.results hg.toWellShaped
  obtain ⟨hnone, rfl⟩ | ⟨loaded, stable, hresult, halone, -, rfl⟩ := hcase
  · obtain ⟨left, g₁, hremove, h⟩ := bind_eq_ok.mp h
    exact advances_remove_load hg hlone (List.head?_eq_none_iff.mp hnone) hremove h
  · obtain ⟨b', g₁, hforward, h⟩ := bind_eq_ok.mp h
    obtain ⟨t, hload⟩ := hlone.kind
    have hid := hlone.attached
    have haddressed : addressed ∈ op.args := by simp [hargs]
    have htype : g.typeOf addressed = g.typeOf (.var loaded) := by
      rw [← Operator.wellTyped_addressOf (x := q) (hg.typed id hid op hop) hkind (by rw [hargs]; rfl)
        (by simp [hresults])]
      exact Operator.wellTyped_loadIndirect (hg.typed load hlone.attachedLoad read hread) hload
        (by rw [hlone.args hg.toWellShaped]; rfl) (List.mem_of_mem_head? hresult)
    obtain ⟨⟨h₁, -⟩, hunread⟩ := advances_forward hg hc hforward hlone.attachedLoad hread
      (by simp [Operator.forwards, hload]) (List.mem_of_mem_head? hresult) htype
      (liveExpr_of_fits (hg.fits hid hop) haddressed)
      fun y hy => readable_of_arg hid hop (hy ▸ haddressed)
    refine advances_remove_address hg.linked h₁
      ((grows_forward c load loaded addressed stable).ok hforward) hop hresults
      (hunread q hlone.sole ?_) h
    rintro rfl
    exact notMem_args_of_loneLoad hlone (by simp [hkind]) haddressed

/-- The load put for an address and the load through it fits, if the address was not left to be
lowered. -/
theorem fitting_directLoad {load : OpId} {read : Operator} {q : VarId} {kind : OpKind}
    (hg : g.Tended p) (hlone : g.LoneLoad id load op read q) (hkind : op.kind.directLoad? = some kind)
    (hsettled : ¬g.Pending p .address id) (hvoid : ¬(read.results = [] ∧ kind.isStaticLoad)) :
    g.Fitting p (.directLoad kind op read) := by
  have hid := hlone.attached
  have hop := hlone.found
  obtain ⟨t, hload⟩ := hlone.kind
  have hsound := sound_directLoad hkind (hg.fits hid hop) (hg.fits hlone.attachedLoad hlone.foundLoad)
    hload hvoid
  have hreads : ∀ x, .var x ∈ op.args → g.Readable x := fun x hx => readable_of_arg hid hop hx
  cases hk : op.kind <;> simp only [hk, OpKind.directLoad?, reduceCtorEq, Option.some.injEq] at hkind
  case loadStaticAddress f =>
    subst hkind
    exact fitting_of_plain hsound rfl rfl ⟨by simp [Operator.directLoad], rfl⟩ hreads
  case loadElementAddress =>
    subst hkind
    exact fitting_of_plain hsound rfl rfl ⟨by simp [Operator.directLoad], rfl⟩ hreads
  case loadFieldAddress f =>
    subst hkind
    have hlength := (hg.fits hid hop).args (a := .exactly 1) (by rw [hk]; rfl)
    obtain ⟨e, hargs⟩ := List.length_eq_one_iff.mp (Arity.admits_exactly.mp hlength)
    have hresults := hlone.results hg.toWellShaped
    have hhead : op.args.head? = some e := by rw [hargs]; rfl
    have hnot : p.isValueField f = some true →
        ¬(g.isScalarExpr p e = some true ∧ (∃ x, e = .var x) ∨ ∃ u, g.pointeeOf p e = some u) := by
      intro hvalue hcase
      refine hsettled ⟨op, hid, hop, ⟨f, e, q, hk, hvalue, hargs, hcase, ?_, hlone.alone⟩,
        fun x hx => ?_⟩
      · simp [Operator.result?, hresults]
      · obtain rfl : x = q := by simpa [hresults] using hx
        simp [hlone.sole]
    refine ⟨hsound, ?_, ?_, fun _ => ⟨f, rfl, fun hvalue x hx hwraps => ?_⟩, ?_,
      fun x hx => hreads x (mem_reads.mp hx)⟩
    · by_cases hvalue : p.isValueField f = some true
      case neg => simp [Operator.wellTyped, Operator.directLoad, hvalue]
      by_cases hscalar : g.isScalarExpr p e = some true
      · have htyped := hg.typed id hid op hop
        have hpointee := ((Operator.wellTyped_loadFieldAddress htyped hk hhead).2.2 q
          (by simp [hresults])).2.1 hscalar
        have hloaded : ∀ x ∈ read.results, g.typeOf e = g.typeOf (.var x) := fun x hx =>
          hpointee.symm.trans (Operator.wellTyped_loadIndirect
            (hg.typed load hlone.attachedLoad read hlone.foundLoad) hload
            (by rw [hlone.args hg.toWellShaped]; rfl) hx)
        simpa [Operator.wellTyped, Operator.directLoad, hvalue, hargs, contentOf_of_scalar hscalar]
          using fun x hx => .inr (hloaded x hx)
      · have hnone : g.contentOf p e = none := by
          rw [contentOf, if_neg hscalar]
          exact Option.eq_none_iff_forall_ne_some.mpr fun u hu => hnot hvalue (.inr ⟨u, hu⟩)
        simp [Operator.wellTyped, Operator.directLoad, hargs, hnone]
    · have hresolved := hg.resolved id hid op hop
      simpa [Operator.resolved, Operator.usesReceiver, Operator.directLoad, hk] using hresolved
    · obtain rfl : e = .var x := by simpa [hargs, Operator.directLoad] using hx
      exact hnot hvalue (hwraps.imp_left fun hscalar => ⟨hscalar, x, rfl⟩)
    · intro _ x id' op' hx hid' hop' hctor hthis
      refine hg.notMem_definers hid' hop' hctor hthis hlone.foundLoad
        (by simp [Operator.forwards, hload]) ?_
      exact mem_definers.mpr ⟨hlone.attachedLoad, read, hlone.foundLoad, List.contains_iff_mem.mpr hx⟩

theorem advances_foldPlace (hc : Tracks c g) (hg : g.Tended p) (hsettled : ¬g.Pending p .address id)
    {b : Bool} (h : foldPlace p c id g = .ok b g') : g.Advances g' p := by
  obtain ⟨found, hfound, h⟩ := query_bind_eq_ok.mp h
  rcases found with _ | ⟨load, operator⟩
  · obtain ⟨-, rfl⟩ := pure_eq_ok.mp h
    exact hg.refl
  obtain ⟨op, read, kind, hload, hop, hkind, -, -, hread, hcase⟩ := directLoad_spec hfound
  obtain ⟨q, -, hlone⟩ := loneLoad_of_query hc hload hop hread
  obtain ⟨hnone, -, rfl⟩ | ⟨hvoid, rfl⟩ := hcase
  · obtain ⟨left, g₁, hremove, h⟩ := bind_eq_ok.mp h
    exact advances_remove_load hg hlone hnone hremove h
  · obtain ⟨new, g₁, hs, h⟩ := bind_eq_ok.mp h
    obtain ⟨t, hloadKind⟩ := hlone.kind
    obtain ⟨h₁, -⟩ := advances_substitute hg hs hread
      (by simp [Operator.isControl, hloadKind, OpKind.isControl])
      (fitting_directLoad hg hlone hkind hsettled hvoid) fun x hx => .inl hx
    have hargs : .var q ∉ op.args := by
      refine notMem_args_of_loneLoad hlone fun t ht => ?_
      simp [ht, OpKind.directLoad?] at hkind
    exact advances_remove_address hg.linked h₁ (substitute_spec hg.linked hs).1.grows hop
      (hlone.results hg.toWellShaped) (readers_of_substitute hg.linked hs (by simp [hlone.sole]) hargs) h

end Edit

namespace Graph

def checkpointed (g : Graph) : Graph :=
  { g with cache := { g.cache with checkpoint := some g.cache.refreshes } }

theorem SameCode.checkpointed {g g' : Graph} (h : g.SameCode g') : g.SameCode g'.checkpointed :=
  ⟨h.ops, h.blocks, h.entry, h.var⟩

end Graph

namespace WrapperUse

def test : WrapperUse → OpKind → Bool
  | .constructor | .equality => OpKind.isCall
  | .load => OpKind.isFieldLoad
  | .address => OpKind.isFieldAddress

def edit (w : WrapperUse) (p : Pool) : Chains → OpId → Edit Bool :=
  match w with
  | .constructor => Edit.lowerConstructor p
  | .equality => Edit.lowerEquality p
  | .load => Edit.lowerFieldLoad p
  | .address => Edit.lowerFieldAddress p

def batch (w : WrapperUse) (p : Pool) : Edit Nat :=
  Edit.batch fun c => do Edit.sweep (w.edit p c) (← Edit.query fun g => .ok (g.attachedWhere w.test))

def Declines (w : WrapperUse) (p : Pool) (c : Chains) (id : OpId) (g : Graph) : Prop :=
  match w with
  | .constructor => g.constructorCopy p c id = .ok none
  | .equality => g.equalityComparison p c id = .ok none
  | .load => g.fieldRead p c id = .ok none
  | .address => g.fieldAddress p c id = .ok none

end WrapperUse

namespace Edit

open ScalarLowering.Graph

theorem lowerWrappers_eq (p : Pool) : lowerWrappers p {} = do
    let constructors ← WrapperUse.constructor.batch p
    let equality ← WrapperUse.equality.batch p
    let fieldLoads ← WrapperUse.load.batch p
    let fieldAddresses ← WrapperUse.address.batch p
    return { constructors, equality, fieldLoads, fieldAddresses } := rfl

variable {g g' : Graph} {p : Pool} {c : Chains} {id : OpId} {op : Operator} {w : WrapperUse}
  {b : Bool} {n : Nat}

theorem test_of_lowerable (h : g.Lowerable p id op w) : w.test op.kind := by
  cases w with
  | constructor =>
    obtain ⟨m, -, -, -, -, hkind, -⟩ := h
    simp [WrapperUse.test, hkind, OpKind.isCall]
  | equality =>
    obtain ⟨m, -, -, -, hkind, -⟩ := h
    simp [WrapperUse.test, hkind, OpKind.isCall]
  | load =>
    obtain ⟨f, -, -, hkind, -⟩ := h
    simp [WrapperUse.test, hkind, OpKind.isFieldLoad]
  | address =>
    obtain ⟨f, -, -, hkind, -⟩ := h
    simp [WrapperUse.test, hkind, OpKind.isFieldAddress]

theorem obeys_edit (hc : Ready c g) (hid : id ∈ g.attached) :
    (w.edit p c id).Obeys g fun _ g' => Tidies id g g' := by
  cases w with
  | constructor => exact obeys_lowerConstructor hc hid
  | equality => exact obeys_lowerEquality hc hid
  | load => exact obeys_lowerFieldLoad hc hid
  | address => exact obeys_lowerFieldAddress hc hid

/-- An edit that leaves its operator in the code found nothing to lower. -/
theorem advances_edit (hc : Tracks c g) (hg : g.Tended p) (h : w.edit p c id g = .ok b g') :
    g.Advances g' p ∧ (id ∈ g'.attached → g' = g ∧ w.Declines p c id g) := by
  cases w with
  | constructor => exact advances_lowerConstructor hc hg h
  | equality => exact advances_lowerEquality hc hg h
  | load => exact advances_lowerFieldLoad hc hg h
  | address => exact advances_lowerFieldAddress hc hg h

section Decisions

variable (hc : Ready c g) (hg : g.Tended p) (hid : id ∈ g.attached) (hop : g.op id = some op)
include hc hg hid hop

theorem not_declines (h : g.Lowerable p id op w) : ¬w.Declines p c id g := by
  cases w with
  | constructor => exact h.constructorCopy_ne_none hop hc hid (hg.void id hid op hop)
  | equality => exact h.equalityComparison_ne_none hop
  | load => exact h.fieldRead_ne_none hop hc hid
  | address => exact h.fieldAddress_ne_none hop hc hid

theorem declines_of_not_lowerable (h : ¬g.Lowerable p id op w) : w.Declines p c id g := by
  have hresolved := hg.resolved id hid op hop
  cases w with
  | constructor =>
    exact (constructorCopy_eq_none_or hop hc hid hg.toWellShaped hresolved
      (hg.void id hid op hop)).resolve_right h
  | equality => exact (equalityComparison_eq_none_or hop hresolved).resolve_right h
  | load => exact (fieldRead_eq_none_or hop hc hid hg.toWellShaped hresolved).resolve_right h
  | address => exact (fieldAddress_eq_none_or hop hc hid hg.toWellShaped hresolved).resolve_right h

end Decisions

theorem edit_of_declines (h : w.Declines p c id g) : w.edit p c id g = .ok false g := by
  cases w with
  | constructor => exact query_bind_eq_ok.mpr ⟨none, h, rfl⟩
  | equality => exact query_bind_eq_ok.mpr ⟨none, h, rfl⟩
  | load => exact query_bind_eq_ok.mpr ⟨none, h, rfl⟩
  | address => exact query_bind_eq_ok.mpr ⟨none, h, rfl⟩

theorem batch_eq_ok : w.batch p g = .ok n g' ↔ ∃ c g₁, snapshot g = .ok c g₁ ∧
    sweep (w.edit p c) (g₁.attachedWhere w.test) g₁.checkpointed = .ok n g' ∧
      g'.checkCheckpoint = .ok () := by
  constructor
  · intro h
    obtain ⟨c, g₁, hsnapshot, h⟩ := bind_eq_ok.mp h
    obtain ⟨_, g₂, hcheckpoint, h⟩ := bind_eq_ok.mp h
    obtain rfl := modify_eq_ok.mp hcheckpoint
    obtain ⟨m, g₃, hstep, h⟩ := bind_eq_ok.mp h
    obtain ⟨_, hcheck, h⟩ := query_bind_eq_ok.mp h
    obtain ⟨rfl, rfl⟩ := pure_eq_ok.mp h
    obtain ⟨ids, hids, hsweep⟩ := query_bind_eq_ok.mp hstep
    obtain rfl := Except.ok.inj hids
    exact ⟨c, g₁, hsnapshot, hsweep, hcheck⟩
  · rintro ⟨c, g₁, hsnapshot, hsweep, hcheck⟩
    refine bind_eq_ok.mpr ⟨c, g₁, hsnapshot, bind_eq_ok.mpr ⟨(), g₁.checkpointed, rfl, ?_⟩⟩
    refine bind_eq_ok.mpr ⟨n, g', query_bind_eq_ok.mpr ⟨_, rfl, hsweep⟩, ?_⟩
    exact query_bind_eq_ok.mpr ⟨(), hcheck, pure_eq_ok.mpr ⟨rfl, rfl⟩⟩

/-- A batch leaves nothing of what it looks for. The operators that it has still to go through are
the only ones that are left to lower. -/
theorem advances_batch (hg : g.Batchable) (hT : g.Tended p) (h : w.batch p g = .ok n g') :
    g'.Batchable ∧ g.Advances g' p ∧ ∀ id, ¬g'.Pending p w id := by
  have htest : ∀ t, w.test (.loadIndirect t) = false := fun t => by cases w <;> rfl
  refine ⟨(obeys_batch htest (fun hc hid _ _ => obeys_edit hc hid) hg).ok h, ?_⟩
  obtain ⟨c, g₁, hsnapshot, hsweep, -⟩ := batch_eq_ok.mp h
  obtain ⟨hexact, hg₁, hcode⟩ := snapshot_spec hg.coherent hsnapshot
  have hg₂ := hg.of_sameCode hcode.checkpointed (Move.checkpoint.steady hg₁)
  have hstart : Running c w.test g₁.checkpointed (g₁.attachedWhere w.test) g₁.checkpointed :=
    running_start hg₂ (hexact.of_sameScans ⟨rfl, rfl, rfl, rfl⟩)
  have hend := (obeys_sweep (R := fun ids g' => Running c w.test g₁.checkpointed ids g' ∧
    g.Advances g' p ∧ ∀ id, g'.Pending p w id → id ∈ ids) ?_
    ⟨hstart, hT.advances_sameCode hcode.checkpointed hg₂.coherent.linked, ?_⟩).ok hsweep
  · exact ⟨hend.2.1, fun id hp => List.not_mem_nil (hend.2.2 id hp)⟩
  · rintro id ids g₄ ⟨hrun, hadvances, hleft⟩
    obtain ⟨hid, -⟩ := hrun.listed id List.mem_cons_self
    refine ⟨fun {b g₅} hok => ?_, (obeys_edit hrun.ready hid).error⟩
    obtain ⟨hnext, hkept⟩ := advances_edit hrun.ready.tracks hadvances.tended hok
    refine ⟨hrun.next htest ((obeys_edit hrun.ready hid).ok hok), hadvances.trans hnext, fun x hx => ?_⟩
    refine (List.mem_cons.mp (hleft x (hnext.pending hx))).resolve_left ?_
    rintro rfl
    obtain ⟨op, hatt, hop, hlower, -⟩ := hx
    obtain ⟨rfl, hdeclines⟩ := hkept hatt
    exact not_declines hrun.ready hadvances.tended hid hop hlower hdeclines
  · rintro id ⟨op, hatt, hop, hlower, -⟩
    exact List.mem_filter.mpr
      ⟨hatt, (Option.any_eq_true _ _).mpr ⟨op, hop, test_of_lowerable hlower⟩⟩

end Edit
end ScalarLowering
