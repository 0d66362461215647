import ScalarLowering.Proofs.Coherent
import ScalarLowering.Proofs.Spliced

/-! What the decisions of the lowering rest on. Each is inverted once: if it finds something
to do, the operators, types and definitions it looked at are as stated. -/

namespace ScalarLowering

def Operator.directLoad (kind : OpKind) (address read : Operator) : Operator :=
  { kind, args := address.args, results := read.results, flags := read.flags.union address.flags }

def Source.operand : Source → Expr
  | .value e => e
  | .behind pointer _ => .var pointer

namespace Graph

variable {g : Graph} {p : Pool} {c : Chains} {call load address : OpId} {v : VarId}

theorem head?_bind_var? {args : List Expr} :
    args.head?.bind Expr.var? = some v ↔ args.head? = some (.var v) := by
  simp [Option.bind_eq_some_iff, Expr.var?_eq_some]

theorem some_eq_of_ok {α : Type} {a b : α}
    (h : (pure (some a) : Except Error (Option α)) = .ok (some b)) : b = a :=
  (Option.some.inj (Except.pure_eq_ok.mp h)).symm

theorem addressedBy_spec {e : Expr} (h : g.addressedBy c call v = .ok (some e)) :
    ∃ d op, g.defCount c v = .ok (.one d) ∧ g.op d = some op ∧ op.kind = .addressOf ∧
      op.args = [e] := by
  simp only [addressedBy, Except.bind_eq_ok] at h
  obtain ⟨m, hm, h⟩ := h
  split at h
  case h_1 => simp at h
  case h_2 => simp at h
  rename_i d
  simp only [Except.bind_eq_ok, Error.lift_eq_ok] at h
  obtain ⟨op, hop, h⟩ := h
  split at h
  case h_2 => simp at h
  rename_i e' hkind hargs
  obtain rfl : e' = e := by simpa using h
  exact ⟨d, op, hm, hop, hkind, hargs⟩

/-- The value behind a receiver: a scalar itself, the operand whose address the receiver
holds, or what has to be loaded through it. -/
theorem sourceOf_spec {source : Source} (h : g.sourceOf p c call v = .ok source) :
    ∃ info, g.var v = some info ∧
      (p.isScalar info.type = some true ∧ source = .value (.var v) ∨
        ∃ t, p.isScalar info.type = some false ∧ p.pointee info.type = some (some t) ∧
          ((∃ e, info.isArgument = false ∧ g.addressedBy c call v = .ok (some e) ∧
              source = .value e) ∨
            source = .behind v t)) := by
  simp only [sourceOf, Except.bind_eq_ok, Error.lift_eq_ok] at h
  obtain ⟨info, hinfo, scalar, hscalar, h⟩ := h
  refine ⟨info, hinfo, ?_⟩
  cases scalar with
  | true => exact .inl ⟨hscalar, (Except.pure_eq_ok.mp h).symm⟩
  | false =>
    simp only [Bool.false_eq_true, if_false, Except.bind_eq_ok, Error.lift_eq_ok] at h
    obtain ⟨pointee, hpointee, h⟩ := h
    split at h
    case h_1 => simp [Except.bind_eq_ok] at h
    rename_i t
    refine .inr ⟨t, hscalar, hpointee, ?_⟩
    split at h
    case isTrue => exact .inr (Except.pure_eq_ok.mp h).symm
    rename_i harg
    obtain ⟨addressed, haddressed, h⟩ := Except.bind_eq_ok.mp h
    cases addressed with
    | none => exact .inr (Except.pure_eq_ok.mp h).symm
    | some e => exact .inl ⟨e, by simpa using harg, haddressed, (Except.pure_eq_ok.mp h).symm⟩

theorem constructorCopy_spec {copy : Operator}
    (h : g.constructorCopy p c call = .ok (some copy)) :
    ∃ op m method this value d source x infoThis info,
      g.op call = some op ∧ op.kind = .call m ∧ p.method m = some method ∧ method.kind = .ctor ∧
      p.isScalar method.owner = some true ∧ op.args = [.var this, value] ∧ op.results = [] ∧
      (∃ t, g.typeOf value = some t ∧ p.accepts method.owner t = some true) ∧
      g.var this = some infoThis ∧ infoThis.isArgument = false ∧
      g.defCount c this = .ok (.one d) ∧ g.op d = some source ∧ source.kind = .addressOf ∧
      source.args.head? = some (.var x) ∧ g.var x = some info ∧ info.isArgument = false ∧
      info.type = method.owner ∧ copy = .copy x value := by
  simp only [constructorCopy, Except.bind_eq_ok, Error.lift_eq_ok] at h
  obtain ⟨op, hop, h⟩ := h
  split at h
  case h_2 => simp at h
  rename_i m hm
  simp only [Except.bind_eq_ok, Error.lift_eq_ok, Except.ite_none_eq_ok] at h
  obtain ⟨method, hmethod, hkind, _, hscalar, hs, h⟩ := h
  split at h
  case h_2 => simp at h
  rename_i this value hargs
  simp only [Except.bind_eq_ok, Error.lift_eq_ok, Except.ite_none_eq_ok] at h
  obtain ⟨hresults, t, ht, _, haccepts, ha, h⟩ := h
  split at h
  case h_2 => simp at h
  rename_i this
  simp only [Except.bind_eq_ok, Error.lift_eq_ok, Except.ite_none_eq_ok] at h
  obtain ⟨infoThis, hthis, harg, m', hone, h⟩ := h
  split at h
  case h_2 => simp at h
  rename_i d
  simp only [Except.bind_eq_ok, Error.lift_eq_ok, Except.ite_none_eq_ok] at h
  obtain ⟨source, hd, hsource, h⟩ := h
  split at h
  case h_2 => simp at h
  rename_i x hx
  simp only [Except.bind_eq_ok, Error.lift_eq_ok, Except.ite_none_eq_ok] at h
  obtain ⟨info, hinfo, hcond, h⟩ := h
  simp at hkind hs hresults ha harg hsource hcond h
  subst hs ha h
  exact ⟨op, m, method, this, value, d, source, x, infoThis, info, hop, hm, hmethod, hkind,
    hscalar, hargs, hresults, ⟨t, ht, haccepts⟩, hthis, harg, hone, hd, hsource,
    head?_bind_var?.mp hx, hinfo, hcond.1, hcond.2, rfl⟩

theorem isScalarExpr_eq_some {e : Expr} {b : Bool} : g.isScalarExpr p e = some b ↔
    ∃ t, g.typeOf e = some t ∧ p.isScalar t = some b := by
  simp [isScalarExpr, Option.bind_eq_some_iff]

theorem staticOperands_spec {op : Operator} {left : Source} {right : Expr}
    (h : g.staticOperands p call op = .ok (some (left, right))) :
    ∃ unused e, op.args = [unused, e, right] ∧ left = .value e ∧
      g.isScalarExpr p e = some true ∧ g.isScalarExpr p right = some true := by
  simp only [staticOperands] at h
  split at h
  case h_2 => simp at h
  rename_i unused e right' hargs
  simp only [Except.bind_eq_ok, Error.lift_eq_ok, Except.ite_none_eq_ok] at h
  obtain ⟨l, hl, hl', r, hr, hr', h⟩ := h
  simp at hl' hr' h
  obtain ⟨rfl, rfl⟩ := h
  exact ⟨unused, e, hargs, rfl, hl' ▸ hl, hr' ▸ hr⟩

theorem instanceOperands_spec {op : Operator} {owner : TypeId} {left : Source} {right : Expr}
    (h : g.instanceOperands p c call op owner = .ok (some (left, right))) :
    ∃ this kind, op.args = [.var this, right] ∧ g.isScalarExpr p right = some true ∧
      p.scalarOf owner = some kind ∧ kind.any Scalar.isFloat = false ∧
      g.sourceOf p c call this = .ok left := by
  simp only [instanceOperands] at h
  split at h
  case h_2 => simp at h
  rename_i this right' hargs
  simp only [Except.bind_eq_ok, Error.lift_eq_ok, Except.ite_none_eq_ok] at h
  obtain ⟨r, hr, hr', kind, hkind, hfloat, h⟩ := h
  split at h
  case h_2 => simp at h
  rename_i this
  simp only [Except.bind_eq_ok] at h
  obtain ⟨source, hsource, h⟩ := h
  simp at hr' hfloat h
  obtain ⟨rfl, rfl⟩ := h
  exact ⟨this, kind, hargs, hr' ▸ hr, hkind, by simpa using hfloat, hsource⟩

/-- The operands of an equality call and what is compared for it. -/
theorem equalityComparison_spec {cmp : Comparison}
    (h : g.equalityComparison p c call = .ok (some cmp)) :
    ∃ op m method, g.op call = some op ∧ op.kind = .call m ∧ p.method m = some method ∧
      p.isScalar method.owner = some true ∧
      p.equalityCondition method = some (some cmp.condition) ∧ op.result? = some cmp.result ∧
      (method.kind = .ofType ∧
          g.staticOperands p call op = .ok (some (cmp.left, cmp.right)) ∨
        method.kind ≠ .ofType ∧
          g.instanceOperands p c call op method.owner = .ok (some (cmp.left, cmp.right))) := by
  simp only [equalityComparison, Except.bind_eq_ok, Error.lift_eq_ok] at h
  obtain ⟨op, hop, h⟩ := h
  split at h
  case h_2 => simp at h
  rename_i m hm
  simp only [Except.bind_eq_ok, Error.lift_eq_ok, Except.ite_none_eq_ok] at h
  obtain ⟨method, hmethod, scalar, hscalar, hs, condition, hcondition, h⟩ := h
  split at h
  case h_2 => simp at h
  rename_i condition
  split at h
  case h_2 => simp at h
  rename_i result hresult
  obtain rfl : scalar = true := by simpa using hs
  have hoperands : ∀ {x : Except Error (Option (Source × Expr))},
      (x >>= fun operands => pure (operands.map fun o =>
        (⟨condition, result, o.1, o.2⟩ : Comparison))) = .ok (some cmp) →
      x = .ok (some (cmp.left, cmp.right)) ∧ cmp.condition = condition ∧ cmp.result = result := by
    intro x hx
    obtain ⟨operands, hoperands, hx⟩ := Except.bind_eq_ok.mp hx
    obtain ⟨⟨left, right⟩, rfl, rfl⟩ := Option.map_eq_some_iff.mp (Except.pure_eq_ok.mp hx)
    exact ⟨hoperands, rfl, rfl⟩
  refine ⟨op, m, method, hop, hm, hmethod, hscalar, ?_⟩
  by_cases hkind : method.kind = .ofType
  · simp only [hkind, if_true] at h
    obtain ⟨hx, hc, hr⟩ := hoperands h
    exact ⟨hc ▸ hcondition, hr ▸ hresult, .inl ⟨hkind, hx⟩⟩
  · simp only [hkind, if_false] at h
    obtain ⟨hx, hc, hr⟩ := hoperands h
    exact ⟨hc ▸ hcondition, hr ▸ hresult, .inr ⟨hkind, hx⟩⟩

theorem fieldRead_spec {read : FieldRead} (h : g.fieldRead p c load = .ok (some read)) :
    ∃ op f receiver info, g.op load = some op ∧ op.kind = .loadField f ∧
      p.isValueField f = some true ∧ op.args = [.var receiver] ∧
      op.result? = some read.result ∧ g.var receiver = some info ∧
      g.definesAlone c load read.result = .ok true ∧
      g.sourceOf p c load receiver = .ok read.source := by
  simp only [fieldRead, Except.bind_eq_ok, Error.lift_eq_ok] at h
  obtain ⟨op, hop, h⟩ := h
  split at h
  case h_2 => simp at h
  rename_i f hf
  simp only [Except.bind_eq_ok, Error.lift_eq_ok, Except.ite_none_eq_ok] at h
  obtain ⟨isValue, hvalue, hv, h⟩ := h
  split at h
  case h_2 => simp at h
  rename_i receiver hargs
  split at h
  case h_2 => simp at h
  rename_i receiver
  split at h
  case h_2 => simp at h
  rename_i result hresult
  simp only [Except.bind_eq_ok, Error.lift_eq_ok, Except.ite_none_eq_ok] at h
  obtain ⟨info, hinfo, scalar, -, pointee, -, -, alone, halone, ha, source, hsource, h⟩ := h
  simp only [Bool.not_eq_true, Bool.not_eq_false'] at hv ha
  obtain rfl := Option.some.inj (Except.pure_eq_ok.mp h)
  exact ⟨op, f, receiver, info, hop, hf, hv ▸ hvalue, hargs, hresult, hinfo, ha ▸ halone, hsource⟩

theorem fieldAddress_spec {found : FieldAddress}
    (h : g.fieldAddress p c address = .ok (some found)) :
    ∃ op f receiver result t, g.op address = some op ∧ op.kind = .loadFieldAddress f ∧
      p.isValueField f = some true ∧ op.args = [receiver] ∧ op.result? = some result ∧
      g.definesAlone c address result = .ok true ∧ g.typeOf receiver = some t ∧
      ((∃ x, p.isScalar t = some true ∧ receiver = .var x ∧ found = .ofVariable result x) ∨
        ∃ u stable, p.isScalar t = some false ∧ p.pointee t = some (some u) ∧
          g.isStable p c receiver = .ok stable ∧ found = .ofPointer result receiver stable) := by
  simp only [fieldAddress, Except.bind_eq_ok, Error.lift_eq_ok] at h
  obtain ⟨op, hop, h⟩ := h
  split at h
  case h_2 => simp at h
  rename_i f hf
  simp only [Except.bind_eq_ok, Error.lift_eq_ok, Except.ite_none_eq_ok] at h
  obtain ⟨isValue, hvalue, hv, h⟩ := h
  split at h
  case h_2 => simp at h
  rename_i receiver hargs
  split at h
  case h_2 => simp at h
  rename_i result hresult
  simp only [Except.bind_eq_ok, Error.lift_eq_ok, Except.ite_none_eq_ok] at h
  obtain ⟨alone, halone, ha, t, ht, scalar, hscalar, h⟩ := h
  simp only [Bool.not_eq_true, Bool.not_eq_false'] at hv ha
  refine ⟨op, f, receiver, result, t, hop, hf, hv ▸ hvalue, hargs, hresult, ha ▸ halone, ht, ?_⟩
  cases scalar with
  | true =>
    obtain ⟨x, hx, rfl⟩ := Option.map_eq_some_iff.mp (Except.pure_eq_ok.mp h)
    exact .inl ⟨x, hscalar, Expr.var?_eq_some.mp hx, rfl⟩
  | false =>
    simp only [Bool.false_eq_true, if_false, Except.bind_eq_ok, Error.lift_eq_ok,
      Except.ite_none_eq_ok] at h
    obtain ⟨pointee, hpointee, hsome, stable, hstable, h⟩ := h
    obtain ⟨u, rfl⟩ := Option.ne_none_iff_exists'.mp (by simpa using hsome)
    exact .inr ⟨u, stable, hscalar, hpointee, hstable, some_eq_of_ok h⟩

theorem loneLoad_spec (h : g.loneLoad c address = .ok (some load)) :
    ∃ op pointer read t, g.op address = some op ∧ op.result? = some pointer ∧
      g.definesAlone c address pointer = .ok true ∧ g.attachedUses c pointer = .ok [load] ∧
      g.op load = some read ∧ read.kind = .loadIndirect t := by
  simp only [loneLoad, Except.bind_eq_ok, Error.lift_eq_ok] at h
  obtain ⟨op, hop, h⟩ := h
  split at h
  case h_2 => simp at h
  rename_i pointer hpointer
  simp only [Except.bind_eq_ok, Except.ite_none_eq_ok] at h
  obtain ⟨alone, halone, ha, uses, huses, h⟩ := h
  split at h
  case h_2 => simp at h
  rename_i load'
  simp only [Except.bind_eq_ok, Error.lift_eq_ok] at h
  obtain ⟨read, hread, h⟩ := h
  split at h
  case h_2 => simp at h
  rename_i t hkind
  simp only [Bool.not_eq_true, Bool.not_eq_false'] at ha
  obtain rfl : load' = load := by simpa using h
  exact ⟨op, pointer, read, t, hop, hpointer, ha ▸ halone, huses, hread, hkind⟩

/-- What is done with an address of a variable: nobody reads it, or one load does. -/
theorem localFold_spec {fold : LocalFold} (h : g.localFold p c address = .ok (some fold)) :
    ∃ op pointer, g.op address = some op ∧ op.result? = some pointer ∧
      (g.attachedUses c pointer = .ok [] ∧ fold = .orphan ∨
        ∃ load addressed read, g.loneLoad c address = .ok (some load) ∧ op.args = [addressed] ∧
          g.op load = some read ∧
          (read.result? = none ∧ fold = .bare load ∨
            ∃ loaded stable, read.result? = some loaded ∧
              g.definesAlone c load loaded = .ok true ∧ g.isStable p c addressed = .ok stable ∧
              fold = .forward load loaded addressed stable)) := by
  simp only [localFold, Except.bind_eq_ok, Error.lift_eq_ok] at h
  obtain ⟨op, hop, h⟩ := h
  split at h
  case h_2 => simp at h
  rename_i pointer hpointer
  simp only [Except.bind_eq_ok] at h
  obtain ⟨uses, huses, h⟩ := h
  refine ⟨op, pointer, hop, hpointer, ?_⟩
  split at h
  case isTrue hempty =>
    rw [List.isEmpty_iff.mp hempty] at huses
    exact .inl ⟨huses, some_eq_of_ok h⟩
  simp only [Except.bind_eq_ok] at h
  obtain ⟨found, hload, h⟩ := h
  split at h
  case h_2 => simp at h
  rename_i load
  split at h
  case h_2 => simp at h
  rename_i addressed hargs
  simp only [Except.bind_eq_ok, Error.lift_eq_ok] at h
  obtain ⟨read, hread, h⟩ := h
  refine .inr ⟨load, addressed, read, hload, hargs, hread, ?_⟩
  split at h
  · rename_i hresult
    exact .inl ⟨hresult, some_eq_of_ok h⟩
  · rename_i loaded hresult
    simp only [Except.bind_eq_ok, Except.ite_none_eq_ok] at h
    obtain ⟨alone, halone, ha, stable, hstable, h⟩ := h
    simp only [Bool.not_eq_true, Bool.not_eq_false'] at ha
    exact .inr ⟨loaded, stable, hresult, ha ▸ halone, hstable, some_eq_of_ok h⟩

/-- The load that is put for an address and the one load through it. -/
theorem directLoad_spec {found : DirectLoad} (h : g.directLoad p c address = .ok (some found)) :
    ∃ op read kind, g.loneLoad c address = .ok (some found.load) ∧ g.op address = some op ∧
      op.kind.directLoad? = some kind ∧ g.allStable p c op.args = .ok true ∧
      (op.mayFault → g.faultMovesDown address found.load) ∧ g.op found.load = some read ∧
      (read.results = [] ∧ kind.isStaticLoad ∧ found.operator = none ∨
        ¬(read.results = [] ∧ kind.isStaticLoad) ∧
          found.operator = some (.directLoad kind op read)) := by
  simp only [directLoad, Except.bind_eq_ok] at h
  obtain ⟨found', hload, h⟩ := h
  split at h
  case h_2 => simp at h
  rename_i load
  simp only [Except.bind_eq_ok, Error.lift_eq_ok] at h
  obtain ⟨op, hop, h⟩ := h
  split at h
  case h_2 => simp at h
  rename_i kind hkind
  simp only [Except.bind_eq_ok, Error.lift_eq_ok, Except.ite_none_eq_ok] at h
  obtain ⟨stable, hstable, hcond, read, hread, h⟩ := h
  simp only [Bool.or_eq_true, Bool.not_eq_true', Bool.and_eq_true, not_or, not_and,
    Bool.not_eq_false] at hcond
  split at h
  · rename_i hvoid
    obtain rfl := Option.some.inj (Except.pure_eq_ok.mp h)
    simp only [Bool.and_eq_true, List.isEmpty_iff] at hvoid
    exact ⟨op, read, kind, hload, hop, hkind, hcond.1 ▸ hstable, hcond.2, hread,
      .inl ⟨hvoid.1, hvoid.2, rfl⟩⟩
  · rename_i hvoid
    obtain rfl := Option.some.inj (Except.pure_eq_ok.mp h)
    simp only [Bool.and_eq_true, List.isEmpty_iff] at hvoid
    exact ⟨op, read, kind, hload, hop, hkind, hcond.1 ▸ hstable, hcond.2, hread,
      .inr ⟨hvoid, rfl⟩⟩

end Graph

namespace Edit

open ScalarLowering.Graph

variable {g g' : Graph} {c : Chains} {id : OpId} {check : Bool} {value : Expr}

theorem fetch_behind_spec {pointer : VarId} {t : TypeId} {e : Expr}
    (h : fetch id check (.behind pointer t) g = .ok e g') :
    e = .var ⟨g.vars.size⟩ ∧ ∃ (load : OpId) (op : Operator),
      op.code = (Operator.loadIndirect t ⟨g.vars.size⟩ (.var pointer) check).code ∧
        insertBefore id op (g.addVar .temporary t).2 = .ok load g' := by
  obtain ⟨position, -, h⟩ := query_bind_eq_ok.mp h
  obtain ⟨temp, g₁, hvar, h⟩ := bind_eq_ok.mp h
  obtain ⟨load, g₂, hinsert, h⟩ := bind_eq_ok.mp h
  obtain ⟨rfl, rfl⟩ := pure_eq_ok.mp h
  rw [modifyGet_eq_ok] at hvar
  obtain rfl : ⟨g.vars.size⟩ = temp := congrArg Prod.fst hvar
  obtain rfl : (g.addVar .temporary t).2 = g₁ := congrArg Prod.snd hvar
  refine ⟨rfl, load, _, ?_, hinsert⟩
  rfl

/-- Forwarding redirects all readers and leaves a no-op, or leaves a copy. -/
theorem forward_spec {result : VarId} {stable redirects : Bool}
    (h : forward c id result value stable g = .ok redirects g') :
    (redirects = true ∧ stable = true ∧ value.var? ≠ some result ∧
        g.seenByReaders c id result value = .ok true ∧
        ∃ n g₁ left, redirectAll c result value g = .ok n g₁ ∧ remove id .keep g₁ = .ok left g') ∨
      redirects = false ∧ ∃ new, substitute id (.copy result value) .keep g = .ok new g' := by
  have hrest : ∀ {b : Bool} {g₀ : Graph}, (if b then do
      let _ ← redirectAll c result value
      let _ ← remove id .keep
      return b
    else do
      let _ ← substitute id (.copy result value) .keep
      return b : Edit Bool) g₀ = .ok redirects g' →
      b = redirects ∧ ((b = true ∧ ∃ n g₁ left, redirectAll c result value g₀ = .ok n g₁ ∧
        remove id .keep g₁ = .ok left g') ∨
      b = false ∧ ∃ new, substitute id (.copy result value) .keep g₀ = .ok new g') := by
    intro b g₀ h
    split at h
    · rename_i hb
      obtain ⟨n, g₁, hredirect, h⟩ := bind_eq_ok.mp h
      obtain ⟨left, g₂, hremove, h⟩ := bind_eq_ok.mp h
      obtain ⟨rfl, rfl⟩ := pure_eq_ok.mp h
      exact ⟨rfl, .inl ⟨hb, n, g₁, left, hredirect, hremove⟩⟩
    · rename_i hb
      obtain ⟨new, g₁, hsubstitute, h⟩ := bind_eq_ok.mp h
      obtain ⟨rfl, rfl⟩ := pure_eq_ok.mp h
      exact ⟨rfl, .inr ⟨Bool.eq_false_iff.mpr hb, new, hsubstitute⟩⟩
  unfold forward at h
  dsimp only at h
  split at h
  · rename_i hcond
    simp only [Bool.and_eq_true, decide_eq_true_eq] at hcond
    obtain ⟨seen, hseen, h⟩ := query_bind_eq_ok.mp h
    obtain ⟨rfl, ⟨rfl, hredirect⟩ | hcopy⟩ := hrest h
    · exact .inl ⟨rfl, hcond.1, hcond.2, hseen, hredirect⟩
    · exact .inr hcopy
  · obtain ⟨b, g₁, hb, h⟩ := bind_eq_ok.mp h
    obtain ⟨rfl, rfl⟩ := pure_eq_ok.mp hb
    obtain ⟨rfl, ⟨hfalse, -⟩ | hcopy⟩ := hrest h
    · cases hfalse
    · exact .inr hcopy

end Edit
end ScalarLowering
