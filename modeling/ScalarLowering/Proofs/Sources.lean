import ScalarLowering.Proofs.Refinement

/-! The value behind a receiver. It is the receiver itself, the operand whose address the receiver
holds, or what a load before the operator reads. -/

namespace ScalarLowering

/-- Operators that read only the value behind their first argument, next to scalars. -/
structure Operator.ReadsBehind (op : Operator) (p : Pool) (g : Graph) (x : VarId) : Prop
    extends Unwraps op p x where
  derefs : op.derefs p x
  silent : op.checkForNull = false → op.silent p
  scalars : ∀ y ∈ op.reads, y = x ∨ g.isScalarExpr p (.var y) = some true
  control : op.isControl = false

theorem Operator.ReadsBehind.eq_of_derefs {op : Operator} {p : Pool} {g : Graph} {x q : VarId}
    (h : op.ReadsBehind p g x) (hderefs : op.derefs p q) : q = x :=
  Operator.eq_of_derefs hderefs h.derefs

namespace Operator

variable {op : Operator} {p : Pool} {g : Graph} {s : Frame} {x : VarId} {t : TypeId}
  {a : Option (Location × Value)} {ending : Ending}

theorem loadIndirect_eq_ok (hkind : op.kind = .loadIndirect t)
    (hhead : op.args.head? = some (.var x)) : op.action p g s = .ok a ↔
      ∃ l w, s.read (.var x) = some (.pointer l) ∧ s.read l = some w ∧ a = op.into w := by
  simp only [action, hkind, Except.bind_eq_ok, Fault.lift_eq_ok, Except.pure_eq_ok, target_eq_ok]
  constructor
  · rintro ⟨v, hv, l, rfl, w, hw, rfl⟩
    exact ⟨l, w, read_of_arg_zero hhead hv, hw, rfl⟩
  · rintro ⟨l, w, hv, hw, rfl⟩
    exact ⟨_, arg_zero hhead hv, l, rfl, w, hw, rfl⟩

theorem loadIndirect_null (hkind : op.kind = .loadIndirect t)
    (hhead : op.args.head? = some (.var x)) (hx : s.read (.var x) = some .null) :
    op.action p g s = .error .nullReference := by
  simp only [action, hkind, arg_zero hhead hx]
  rfl

theorem target_eq_fault {v : Value} {e : Fault} (h : v.target = .error e)
    (hcase : e = .nullReference ∧ ending = .nullReference ∧ op.checkForNull ∨
      ∃ i n, e = .indexOutOfRange i n ∧ ending = .indexOutOfRange ∧ op.flags.mayThrow) :
    v = .null := by
  cases v with
  | null => rfl
  | pointer l => cases h
  | undefined | bits | object | array =>
    obtain rfl := Except.error.inj h
    simp at hcase

theorem null_of_loadIndirect (hkind : op.kind = .loadIndirect t)
    (hhead : op.args.head? = some (.var x)) (h : op.Faults p g s ending) :
    s.read (.var x) = some .null := by
  obtain ⟨e, he, hcase⟩ := h.exists_error
  simp only [action, hkind, Except.bind_eq_error] at he
  obtain harg | ⟨v, hv, htarget | ⟨l, -, hlift | ⟨w, -, hpure⟩⟩⟩ := he
  · obtain rfl | ⟨cause, rfl⟩ := arg_eq_error harg <;> simp at hcase
  · obtain rfl := target_eq_fault htarget hcase
    exact read_of_arg_zero hhead hv
  · obtain ⟨-, rfl⟩ := Fault.lift_eq_error.mp hlift
    simp at hcase
  · cases hpure

end Operator

namespace Graph

variable {g g' : Graph} {p : Pool} {faults : Bool} {op : Operator} {user n id : OpId} {x q : VarId}
  {pointer : VarId} {t : TypeId} {e : Expr} {pre rest : List OpId}

theorem Tame.extended (hg : g.Tame p faults) (t : TypeId) :
    g.Refines (g.addVar .temporary t).2 p faults := by
  have hevolves := hg.shaped.toWellShaped.evolves_addVar .temporary t
  refine ⟨⟨hg.shaped.addVar .temporary t, ?_, fun hf => ?_⟩,
    preserves_addVar hg.shaped.toWellShaped t⟩
  · exact hg.disciplined.evolve hevolves fun _ hne => absurd rfl hne
  · exact (hg.prompt hf).of_kept (hg.shaped.addVar .temporary t).linked hevolves
      fun _ hbefore => hbefore.mem_left

theorem Spliced.at_inserted (hg' : g'.Linked) (h : g.Spliced g' user [n, user])
    (hat : g'.At pre (user :: rest)) : ∃ before, pre = before ++ [n] := by
  obtain ⟨b, block, hb, hmem⟩ := Graph.mem_attached.mp h.attached
  obtain ⟨front, back, hops⟩ := List.mem_iff_append.mp hmem
  have hat' : g'.At (front.flatMap (splice user [n, user]) ++ [n])
      (user :: back.flatMap (splice user [n, user])) :=
    ⟨b, _, by rw [h.block, hb]; rfl, by simp [hops, List.flatMap_append, splice_self]⟩
  exact ⟨_, (hat.unique hg' hat').1⟩

theorem Spliced.op_of_inserted (hg : g.Linked) (h : g.Spliced g' user [n, user]) (hid : id ∈ g'.attached)
    (hne : id ≠ n) : id ∈ g.attached ∧ g'.op id = g.op id := by
  have hidg : id ∈ g.attached := by
    obtain hmem | ⟨-, hmem⟩ := h.mem_attached.mp hid
    · obtain rfl : id = user := by simpa [hne] using hmem
      exact h.attached
    · exact hmem
  exact ⟨hidg, h.op (.inr (by simp)) (hg.lt_of_mem hidg)⟩

theorem Disciplined.not_placeOf_scalar (hd : g.Disciplined p) (hg : g.WellShaped)
    (h : g.isScalarExpr p (.var x) = some true) : ¬g.PlaceOf id x :=
  Free.not_placeOf (hd.free_of_scalar hg h)

theorem readers_fresh (hg : g.WellShaped) : g.readers ⟨g.vars.size⟩ = [] := by
  refine List.eq_nil_iff_forall_not_mem.mpr fun id hid => ?_
  obtain ⟨hid, op, hop, hread⟩ := mem_readers.mp hid
  exact Nat.lt_irrefl _ (hg.known hid hop (List.contains_iff_mem.mp hread))

theorem definers_fresh (hg : g.WellShaped) : g.definers ⟨g.vars.size⟩ = [] := by
  refine List.eq_nil_iff_forall_not_mem.mpr fun id hid => ?_
  obtain ⟨hid, op, hop, hdefines⟩ := mem_definers.mp hid
  obtain ⟨info, hinfo, -⟩ := (hg.fits hid hop).written _ (List.contains_iff_mem.mp hdefines)
  exact Nat.lt_irrefl _ (var_eq_some_lt hinfo)

theorem typeOf_of_var_eq (h : g.LiveExpr e)
    (hvar : ∀ v, v.index < g.vars.size → g'.var v = g.var v) : g'.typeOf e = g.typeOf e := by
  cases e with
  | const c => rfl
  | var y =>
    obtain ⟨info, hinfo, -⟩ := h y rfl
    simp only [typeOf, hvar y (var_eq_some_lt hinfo)]

theorem typeOf_addVar_of_live {kind : VarKind} (h : g.LiveExpr e) :
    (g.addVar kind t).2.typeOf e = g.typeOf e :=
  typeOf_of_var_eq h fun v hv => by rw [var_addVar, if_neg (Nat.ne_of_lt hv)]

theorem typeOf_of_live (h : g.LiveExpr e) : ∃ t, g.typeOf e = some t := by
  cases e with
  | const c => exact ⟨c.type, rfl⟩
  | var y =>
    obtain ⟨info, hinfo, -⟩ := h y rfl
    exact ⟨info.type, by simp [typeOf, hinfo]⟩

section Insertion

variable {temp : VarId} (hreads : op.ReadsBehind p g pointer) (hop : g.op user = some op)
  (htype : g.pointeeOf p (.var pointer) = some t) (htemp : g.typeOf (.var temp) = some t)
  (hunread : g.readers temp = [])
include hreads hop htype htemp hunread

theorem welcomes_load (hd : g.Disciplined p) (huser : user ∈ g.attached) (check : Bool) :
    g.Welcomes g p user (.loadIndirect t temp (.var pointer) check) := by
  have hread : pointer ∈ op.reads := mem_reads.mpr (List.mem_of_mem_head? hreads.head)
  refine ⟨?_, rfl, rfl, fun q hq {id op'} hid hop' hdef => ⟨fun _ => rfl, fun hplace => ?_⟩,
    fun _ y hy {id op'} hid hop' hread' => ?_⟩
  · simp [Operator.wellTyped, Operator.loadIndirect, htype, htemp]
  · obtain rfl : q = pointer := by simpa [mem_reads, Operator.loadIndirect] using hq
    exact ⟨(hd.nearby id hid op' hop' hplace q hdef user
      (mem_readers_of_reads huser hop hread)).1, by rintro ⟨⟩⟩
  · obtain rfl : y = temp := by simpa [Operator.loadIndirect] using hy
    have hmem := mem_readers_of_reads hid hop' hread'
    rw [hunread] at hmem
    cases hmem

theorem preserves_inserted (hg : g.WellShaped) (hs : g.Spliced g' user [n, user])
    (htempLt : temp.index < g.vars.size)
    (hn : (g'.op n).map (·.code) =
      some (Operator.loadIndirect t temp (.var pointer) op.checkForNull).code) :
    g.Preserves g' p faults := by
  obtain ⟨load, hload, hcode⟩ := exists_of_code hn
  rw [Operator.eq_of_code hcode] at hload
  have hW : ∀ y, y = temp → g.readers y = [] := by rintro y rfl; exact hunread
  have hvars := sameVars_of_vars_eq hs.vars
  have hwraps : g.Wraps p pointer := .inr ⟨t, htype⟩
  have hpointer : pointer ∈ op.reads := mem_reads.mpr (List.mem_of_mem_head? hreads.head)
  have huser' : g'.op user = some op :=
    (hs.op (.inr (by simp)) (hg.linked.lt_of_mem hs.attached)).trans hop
  refine preserves_of_spliced (W := (· = temp)) hg hs hW .trivial hop hreads.control ?_ ?_
  · intro pre rest s s' a u hat hsane _ hagree hsafe ha hu
    obtain ⟨v, w, hv, hw⟩ := hreads.value hwraps hsafe ha
    have hfree : ∀ {y}, y ∈ op.reads → y ≠ temp ∧ y.index < s.vars.size :=
      fun hy => hg.free hW hsane hs.attached hop hy
    obtain ⟨l, rfl⟩ : ∃ l, v = .pointer l := by
      obtain rfl | ⟨hscalar, -⟩ | ⟨-, rfl | hl⟩ :=
        hsafe.receiver hreads.uses hreads.head hwraps hv
      · cases hw
      · rw [pointeeOf_of_scalar hscalar] at htype
        cases htype
      · cases hw
      · exact hl
    have hl : s'.read l = some w := by
      rw [hagree.read fun y hy => ?_]
      · exact hw
      · subst hy
        obtain ⟨id', op', hid', hop', htakes⟩ := hsane.exposed hv
        exact hg.free hW hsane hid' hop' htakes.mem_reads
    have hpointer' : s'.read (.var pointer) = some (.pointer l) :=
      (hagree.var (hfree hpointer).1 (hfree hpointer).2).trans hv
    obtain ⟨s₁, hs₁⟩ : ∃ s₁, s'.write (.var temp) w = some s₁ :=
      ⟨_, Frame.setVar_eq_some.mpr ⟨by have := hagree.size; have := hsane.size; omega, rfl⟩⟩
    have hagree₁ := hagree.write_right (x := temp) rfl hs₁
    obtain ⟨hmirrors, hsafe'⟩ := mirrors_of_code op hg (fun y _ => hvars.typeOf _)
      (fun y hy => not_exposed_of_readers (hW y hy)) (fun y hy => hfree hy) rfl hsane hagree₁
    obtain ⟨u', hu', hagree'⟩ := hagree₁.perform hu
    refine ⟨u', .cons (a := some (.var temp, w)) hload nofun rfl ?_ hs₁
      (.cons huser' (hsafe' hsafe) hreads.control (hmirrors.action.trans ha) hu' .nil), hagree'⟩
    exact (Operator.loadIndirect_eq_ok (t := t) rfl rfl).mpr ⟨l, w, hpointer', hl, rfl⟩
  · intro pre rest s s' ending _ hat hsane _ hagree hsafe hfault
    obtain ⟨hnull, rfl, hcheck⟩ := hreads.fault hwraps hsafe hfault
    have hfree := hg.free hW hsane hs.attached hop hpointer
    exact .fault hload nofun (.null (Operator.loadIndirect_null (t := t) rfl rfl
      ((hagree.var hfree.1 hfree.2).trans hnull)) hcheck)

/-- A load from a pointer can be inserted before an operator that reads behind the pointer. -/
theorem Tame.inserted (hg : g.Tame p faults) (hs : g.Spliced g' user [n, user])
    (hfresh : n ∉ g.attached) (hwritable : g.Writable temp)
    (hlive : g.LiveExpr (.var pointer))
    (hn : (g'.op n).map (·.code) =
      some (Operator.loadIndirect t temp (.var pointer) op.checkForNull).code) :
    g.Refines g' p faults := by
  have hlinked := hg.shaped.linked
  have hsound := sound_loadIndirect t op.checkForNull hwritable hlive
  obtain ⟨load, hload, hcode⟩ := exists_of_code hn
  have hshaped' : g'.Shaped OpKind.isStatic := by
    refine hg.shaped.spliced hs ⟨op, hop, hreads.control⟩ fun m hm => ?_
    obtain rfl | hm := List.mem_cons.mp hm
    · exact .inr ⟨load, hload, hsound.of_code hcode.symm⟩
    · exact .inl (List.mem_singleton.mp hm)
  refine ⟨⟨hshaped', ?_, fun hf => ?_⟩, ?_⟩
  · refine hg.disciplined.spliced hlinked hs (fun m hm hne => ?_) fun m hm hne => ?_ <;>
      obtain rfl : m = n := by simpa [hne] using hm
    · exact hfresh
    · exact ⟨_, hn, welcomes_load hreads hop htype htemp hunread hg.disciplined hs.attached _⟩
  · rw [Operator.eq_of_code hcode] at hload
    refine (hg.prompt hf).inserted hlinked hshaped'.linked hs hfresh hop hload rfl hreads.derefs rfl
      ?_ ?_ fun haddress hq => ?_
    · simp [Operator.derefs, Operator.loadIndirect]
    · intro hsilent
      have hcheck : (!op.checkForNull) = true := hsilent
      exact hreads.silent (by simpa using hcheck)
    · refine (hreads.scalars _ hq).resolve_right fun hscalar => ?_
      exact hg.disciplined.not_placeOf_scalar hg.shaped.toWellShaped hscalar haddress
  · obtain ⟨info, hinfo, -⟩ := hwritable
    exact preserves_inserted hreads hop htype htemp hunread hg.shaped.toWellShaped hs
      (var_eq_some_lt hinfo) hn

end Insertion

/-- An operand that has the value behind the receiver of an operator, whenever the operator is
about to run. -/
structure Supplies (g : Graph) (p : Pool) (faults : Bool) (user : OpId) (op : Operator) (x : VarId)
    (e : Expr) (I : List OpId → List OpId → Frame → Prop) : Prop where
  found : g.op user = some op
  live : g.LiveExpr e
  type : g.typeOf e = g.contentOf p (.var x)
  free : ∀ y, e = .var y → g.Free p y
  settled : faults → ∀ {address q}, g.PlaceOf address q → g.Before address user → op.derefs p q →
    ∃ r, r ≠ user ∧ g.Settles p q r ∧ g.Before address r ∧ g.Before r user
  invariant : g.RunInvariant p I
  value : ∀ {pre rest s v w}, g.At pre (user :: rest) → g.Sane p s → I pre (user :: rest) s →
    op.Safe p g s → s.read (.var x) = some v → s.unwrap v = some w → s.eval e = some w
  fault : ∀ {pre rest s ending}, faults → g.At pre (user :: rest) → g.Sane p s →
    I pre (user :: rest) s → op.Safe p g s → ¬op.Faults p g s ending

section Supplies

variable (hreads : op.ReadsBehind p g x) (hop : g.op user = some op)
include hreads hop

theorem supplies_self (hd : g.Disciplined p) (hg : g.WellShaped) (hlive : g.LiveExpr (.var x))
    (hscalar : g.isScalarExpr p (.var x) = some true) :
    g.Supplies p faults user op x (.var x) fun _ _ _ => True := by
  have hreceiver : ∀ {s v}, op.Safe p g s → s.read (.var x) = some v →
      v = .undefined ∨ ∃ w, v = .bits w := by
    intro s v hsafe hv
    obtain rfl | ⟨-, hbits⟩ | ⟨⟨u, hu⟩, -⟩ :=
      hsafe.receiver hreads.uses hreads.head (.inl hscalar) hv
    · exact .inl rfl
    · exact .inr hbits
    · rw [pointeeOf_of_scalar hscalar] at hu
      cases hu
  refine ⟨hop, hlive, (contentOf_of_scalar hscalar).symm, ?_, fun _ _ _ haddress _ hderefs => ?_,
    .trivial, fun _ _ _ hsafe hv hw => ?_, fun _ _ _ _ hsafe hfault => ?_⟩
  · rintro y ⟨⟩
    exact hd.free_of_scalar hg hscalar
  · rw [hreads.eq_of_derefs hderefs] at haddress
    exact absurd haddress (hd.not_placeOf_scalar hg hscalar)
  · obtain rfl | ⟨w', rfl⟩ := hreceiver hsafe hv
    · cases hw
    · exact hv.trans hw
  · obtain ⟨hnull, -⟩ := hreads.fault (.inl hscalar) hsafe hfault
    obtain h | ⟨w, h⟩ := hreceiver hsafe hnull <;> cases h

/-- A receiver that only ever holds the address of an operand stands for that operand. -/
theorem supplies_addressed {d : OpId} {source : Operator} {info : Variable}
    (hd : g.Disciplined p) (hg : g.WellShaped) (htype : g.pointeeOf p (.var x) = some t)
    (hinfo : g.var x = some info) (harg : info.isArgument = false) (hdef : g.definers x = [d])
    (hsource : g.op d = some source) (hkind : source.kind = .addressOf) (hargs : source.args = [e]) :
    g.Supplies p faults user op x e fun _ _ s => ∃ w, s.read (.var x) = some w ∧ Addresses e w := by
  have hmem : d ∈ g.definers x := hdef ▸ List.mem_singleton_self d
  have hdatt := (mem_definers.mp hmem).1
  have hhead : source.args.head? = some e := by simp [hargs]
  have hpointee : g.pointeeOf p (.var x) = g.typeOf e :=
    Operator.wellTyped_addressOf (hd.typed d hdatt source hsource) hkind hhead
      (mem_results_of_mem_definers hmem hsource)
  have hwraps : g.Wraps p x := .inr ⟨t, htype⟩
  refine ⟨hop, liveExpr_of_fits (hg.fits hdatt hsource) (by simp [hargs]), ?_, ?_,
    fun _ _ _ haddress _ hderefs => ?_,
    runInvariant_address (hd.quiet_of_pointee htype) hinfo harg hdef hsource hkind hhead, ?_, ?_⟩
  · rw [contentOf_of_pointee htype, ← htype, hpointee]
  · rintro y rfl
    exact hd.free_of_addressed hdatt hsource hkind (mem_reads.mpr (by simp [hargs]))
  · rw [hreads.eq_of_derefs hderefs] at haddress
    obtain rfl := List.mem_singleton.mp (hdef ▸ haddress.mem_definers)
    obtain ⟨-, op', hop', hplace, -⟩ := placeOf_iff.mp haddress
    obtain rfl := Option.some.inj (hsource.symm.trans hop')
    simp [Operator.isPlace, hkind] at hplace
  · rintro pre rest s v w - - ⟨u, hu, haddresses⟩ - hv hw
    obtain rfl := Option.some.inj (hu.symm.trans hv)
    obtain rfl | ⟨y, rfl, rfl⟩ := haddresses
    · cases hw
    · exact hw
  · rintro pre rest s ending - - - ⟨u, hu, haddresses⟩ hsafe hfault
    obtain ⟨hnull, -⟩ := hreads.fault hwraps hsafe hfault
    obtain rfl := Option.some.inj (hu.symm.trans hnull)
    obtain h | ⟨y, -, h⟩ := haddresses <;> cases h

omit hop in
/-- What an inserted load reads is behind the receiver. -/
theorem supplies_loaded {temp : VarId} (hg' : g'.WellShaped) (hs : g.Spliced g' user [n, user])
    (hfresh : n ∉ g.attached) (hop : g.op user = some op)
    (htype : g.pointeeOf p (.var x) = some t) (htemp : g.typeOf (.var temp) = some t)
    (hwritable : g.Writable temp) (hundefined : g.definers temp = []) (hne : x ≠ temp)
    (hlinked : g.Linked) {check : Bool}
    (hn : (g'.op n).map (·.code) = some (Operator.loadIndirect t temp (.var x) check).code) :
    g'.Supplies p faults user op x (.var temp) fun pre _ s => ∀ before, pre = before ++ [n] →
      ∃ l w, s.read (.var x) = some (.pointer l) ∧ s.read l = some w ∧
        s.read (.var temp) = some w := by
  obtain ⟨load, hload, hcode⟩ := exists_of_code hn
  rw [Operator.eq_of_code hcode] at hload
  have htypeOf := (sameVars_of_vars_eq hs.vars).typeOf
  have htype' : g'.pointeeOf p (.var x) = some t := (pointeeOf_congr (htypeOf _)).trans htype
  have hn' : n ∈ g'.attached := hs.mem_attached.mpr (.inl (by simp))
  have hnu : n ≠ user := fun h => hfresh (h ▸ hs.attached)
  have hop' : g'.op user = some op :=
    (hs.op (.inr (by simp)) (hlinked.lt_of_mem hs.attached)).trans hop
  refine ⟨hop', ?_, ?_, ?_, fun _ {address q} haddress hbefore hderefs => ?_,
    runInvariant_fetched hload rfl rfl rfl hne, ?_, ?_⟩
  · rintro y ⟨⟩
    obtain ⟨info, hinfo, hdropped, -⟩ := hwritable
    exact ⟨info, by rw [var, hs.vars]; exact hinfo, hdropped⟩
  · rw [htypeOf, htemp, contentOf_of_pointee htype']
  · rintro y ⟨⟩
    intro id op' hid hop' hresult
    by_cases hidn : id = n
    · subst hidn
      obtain rfl := Option.some.inj (hload.symm.trans hop')
      exact ⟨rfl, rfl⟩
    · obtain ⟨hidg, hsame⟩ := hs.op_of_inserted hlinked hid hidn
      rw [hsame] at hop'
      have hmem := mem_definers_of_results hidg hop' hresult
      rw [hundefined] at hmem
      cases hmem
  · obtain rfl := hreads.eq_of_derefs hderefs
    obtain ⟨pre, rest, hat, hmem⟩ := before_iff.mp hbefore
    obtain ⟨before, rfl⟩ := hs.at_inserted hg'.linked hat
    refine ⟨n, hnu, settles_iff.mpr ⟨hn', _, hload, .inl ?_⟩, ?_, before_iff.mpr ⟨_, _, hat, by simp⟩⟩
    · simp [Operator.derefs, Operator.loadIndirect]
    · have hmem : address ∈ before := by
        refine (List.mem_append.mp hmem).resolve_right fun h => ?_
        obtain rfl := List.mem_singleton.mp h
        obtain ⟨-, op', hop', hplace, -⟩ := placeOf_iff.mp haddress
        obtain rfl := Option.some.inj (hload.symm.trans hop')
        cases hplace
      exact (At.mem_pre_iff hg'.linked (At.split hat)).mp hmem
  · intro pre rest s v w hat _ hI _ hv hw
    obtain ⟨before, rfl⟩ := hs.at_inserted hg'.linked hat
    obtain ⟨l, w', hx, hl, htempRead⟩ := hI before rfl
    obtain rfl := Option.some.inj (hx.symm.trans hv)
    obtain rfl := Option.some.inj (hl.symm.trans hw)
    exact htempRead
  · intro pre rest s ending _ hat _ hI hsafe hfault
    obtain ⟨before, rfl⟩ := hs.at_inserted hg'.linked hat
    obtain ⟨l, w, hx, -⟩ := hI before rfl
    obtain ⟨hnull, -⟩ := hreads.fault (.inr ⟨t, htype'⟩) hsafe hfault
    cases hx.symm.trans hnull

end Supplies

/-- After a fetch, an operand supplies the value behind the receiver. -/
theorem Tame.fetched {c : Chains} {source : Source} (hg : g.Tame p faults) (hc : Tracks c g)
    (huser : user ∈ g.attached) (hop : g.op user = some op) (hreads : op.ReadsBehind p g x)
    (hsource : g.sourceOf p c user x = .ok source)
    (hfetch : Edit.fetch user op.checkForNull source g = .ok e g') :
    g.Refines g' p faults ∧ ∃ I, g'.Supplies p faults user op x e I := by
  have hshaped := hg.shaped.toWellShaped
  have hlive : g.LiveExpr (.var x) :=
    liveExpr_of_fits (hshaped.fits huser hop) (List.mem_of_mem_head? hreads.head)
  obtain ⟨info, hinfo, hcase⟩ := sourceOf_spec hsource
  have htypeOf : g.typeOf (.var x) = some info.type := by simp [typeOf, hinfo]
  obtain ⟨hscalar, rfl⟩ | ⟨t, -, hpointee, hcase⟩ := hcase
  · obtain ⟨rfl, rfl⟩ := Edit.pure_eq_ok.mp hfetch
    exact ⟨hg.refl, _, supplies_self hreads hop hg.disciplined hshaped hlive
      (isScalarExpr_eq_some.mpr ⟨_, htypeOf, hscalar⟩)⟩
  have htype : g.pointeeOf p (.var x) = some t := by simp [pointeeOf, htypeOf, hpointee]
  obtain ⟨e', harg, haddressed, rfl⟩ | rfl := hcase
  · obtain ⟨rfl, rfl⟩ := Edit.pure_eq_ok.mp hfetch
    obtain ⟨d, sourceOp, hd, hsourceOp, hkind, hargs⟩ := addressedBy_spec haddressed
    exact ⟨hg.refl, _, supplies_addressed hreads hop hg.disciplined hshaped htype hinfo harg
      (hc.definers_eq hd) hsourceOp hkind hargs⟩
  · obtain ⟨rfl, n, loadOp, hcode, hinsert⟩ := Edit.fetch_behind_spec hfetch
    have hextended := hg.extended t
    have hlinked := hextended.tame.shaped.linked
    obtain ⟨hs, rfl, hn⟩ := Edit.insertBefore_spec hlinked hinsert
    rw [hcode] at hn
    have hfits := hshaped.fits huser hop
    have hreads' : op.ReadsBehind p (g.addVar .temporary t).2 x := by
      refine { hreads with scalars := fun y hy => (hreads.scalars y hy).imp_right fun h => ?_ }
      rw [isScalarExpr_congr (typeOf_addVar_of_live (liveExpr_of_fits hfits (mem_reads.mp hy)))]
      exact h
    have htype' : (g.addVar .temporary t).2.pointeeOf p (.var x) = some t :=
      (pointeeOf_congr (typeOf_addVar_of_live hlive)).trans htype
    have hinfo' : (g.addVar .temporary t).2.var ⟨g.vars.size⟩ =
        some { kind := .temporary, type := t } := by
      rw [var_addVar, if_pos rfl]
    have htemp : (g.addVar .temporary t).2.typeOf (.var ⟨g.vars.size⟩) = some t := by
      simp [typeOf, hinfo']
    have hwritable : (g.addVar .temporary t).2.Writable ⟨g.vars.size⟩ := ⟨_, hinfo', rfl, rfl⟩
    have hfresh := notMem_attached_size hlinked
    have hrefines := Tame.inserted hreads' hop htype' htemp (readers_fresh hshaped) hextended.tame
      hs hfresh hwritable (hlive.of_var_eq fun v hv => by rw [var_addVar, if_neg (Nat.ne_of_lt hv)])
      hn
    refine ⟨hextended.trans hrefines, _, supplies_loaded hreads' hrefines.tame.shaped.toWellShaped
      hs hfresh hop htype' htemp hwritable (definers_fresh hshaped) ?_ hlinked hn⟩
    rintro rfl
    exact Nat.lt_irrefl _ (var_eq_some_lt hinfo)

theorem Supplies.wraps {I : List OpId → List OpId → Frame → Prop}
    (h : g.Supplies p faults user op x e I) : g.Wraps p x := by
  obtain ⟨t, ht⟩ := typeOf_of_live h.live
  have hcontent := h.type.symm.trans ht
  by_cases hscalar : g.isScalarExpr p (.var x) = some true
  · exact .inl hscalar
  · rw [contentOf, if_neg hscalar] at hcontent
    exact .inr ⟨t, hcontent⟩

theorem filter_attached_eq_singleton (hg : g.Linked) {test : OpId → Bool} {d : OpId} :
    g.attached.filter test = [d] ↔ ∀ id, id ∈ g.attached.filter test ↔ id = d := by
  refine ⟨fun h id => by rw [h, List.mem_singleton], fun h => ?_⟩
  have hnodup : (g.attached.filter test).Nodup := hg.nodup_attached.filter _
  exact List.perm_singleton.mp
    ((List.perm_ext_iff_of_nodup hnodup (List.nodup_singleton d)).mpr (by simpa using h))

theorem definers_eq_singleton (hg : g.Linked) {v : VarId} {d : OpId} :
    g.definers v = [d] ↔ ∀ id, id ∈ g.definers v ↔ id = d :=
  filter_attached_eq_singleton hg

theorem readers_eq_singleton (hg : g.Linked) {v : VarId} {r : OpId} :
    g.readers v = [r] ↔ ∀ id, id ∈ g.readers v ↔ id = r :=
  filter_attached_eq_singleton hg

theorem quiet_fetched (hg : g.WellShaped) {check : Bool}
    (h : Edit.fetch user check (.behind pointer t) g = .ok e g') (hlive : g.LiveExpr (.var pointer))
    {y : VarId} (hy : e = .var y) : g'.Quiet p y := by
  obtain ⟨rfl, n, load, hcode, hinsert⟩ := Edit.fetch_behind_spec h
  obtain rfl := Expr.var.inj hy
  have hlinked := (hg.addVar .temporary t).linked
  obtain ⟨hs, rfl, hn⟩ := Edit.insertBefore_spec hlinked hinsert
  apply quiet_of_not_takesAddress
  intro id op' hid hop' htakes
  have hread := htakes.mem_reads
  by_cases hne : id = ⟨(g.addVar .temporary t).2.ops.size⟩
  · subst hne
    rw [hop', Option.map_some, hcode] at hn
    rw [Operator.eq_of_code (Option.some.inj hn)] at hread
    obtain rfl : (⟨g.vars.size⟩ : VarId) = pointer := by
      simpa [mem_reads, Operator.loadIndirect] using hread
    obtain ⟨info, hinfo, -⟩ := hlive _ rfl
    exact Nat.lt_irrefl _ (var_eq_some_lt hinfo)
  · obtain ⟨hidg, hsame⟩ := hs.op_of_inserted hlinked hid hne
    have hmem : id ∈ g.readers ⟨g.vars.size⟩ := mem_readers_of_reads hidg (hsame.symm.trans hop') hread
    rw [readers_fresh hg] at hmem
    cases hmem

theorem definers_fetched (hg : g.WellShaped) {check : Bool} {source : Source} {v : VarId}
    (h : Edit.fetch user check source g = .ok e g') (hv : g.definers v = [user]) :
    g'.definers v = [user] := by
  cases source with
  | value e' =>
    obtain ⟨-, rfl⟩ := Edit.pure_eq_ok.mp h
    exact hv
  | behind pointer t =>
    obtain ⟨rfl, n, load, hcode, hinsert⟩ := Edit.fetch_behind_spec h
    have hlinked := (hg.addVar .temporary t).linked
    obtain ⟨hs, rfl, hn⟩ := Edit.insertBefore_spec hlinked hinsert
    have hlinked' := (hs.grows hlinked).1
    have huser : user ∈ g.definers v := hv ▸ List.mem_singleton_self user
    have hvsize : v ≠ ⟨g.vars.size⟩ := by
      rintro rfl
      rw [definers_fresh hg] at huser
      cases huser
    refine (definers_eq_singleton hlinked').mpr fun id => ⟨fun hid => ?_, ?_⟩
    · obtain ⟨hid, op', hop', hdefines⟩ := mem_definers.mp hid
      by_cases hne : id = ⟨(g.addVar .temporary t).2.ops.size⟩
      · subst hne
        rw [hop', Option.map_some, hcode] at hn
        rw [Operator.eq_of_code (Option.some.inj hn)] at hdefines
        exact absurd (by simpa [Operator.definesVar, Operator.loadIndirect] using hdefines) hvsize
      · obtain ⟨hidg, hsame⟩ := hs.op_of_inserted hlinked hid hne
        exact List.mem_singleton.mp (hv ▸ mem_definers.mpr ⟨hidg, op', hsame.symm.trans hop', hdefines⟩)
    · rintro rfl
      obtain ⟨hatt, op', hop', hdefines⟩ := mem_definers.mp huser
      exact mem_definers.mpr ⟨hs.mem_attached.mpr (.inl (by simp)), op',
        (hs.op (.inr (by simp)) (hlinked.lt_of_mem hatt)).trans hop', hdefines⟩

end Graph
end ScalarLowering
