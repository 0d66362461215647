import ScalarLowering.Proofs.Idempotence
import ScalarLowering.Proofs.Verification

/-! Which equality calls are lowered. A batch goes through a list of calls that it took before its
first edit. No edit makes, skips or spoils another call, so that exactly the calls are lowered that
could be lowered at the start, and a second run finds none. -/

namespace ScalarLowering
namespace Graph

variable {g g' g'' : Graph} {p : Pool} {c : Chains} {id old : OpId} {op op' : Operator}
  {ids done : List OpId} {e : Expr}

def hasScalarArg (g : Graph) (p : Pool) (op : Operator) (i : Nat) : Bool :=
  op.args[i]?.any fun e => g.isScalarExpr p e = some true

/-- An equality call whose result is used and whose operands are scalars, as far as they have to be.
`Equals` is called on a variable, and on no float. -/
def isComparable (g : Graph) (p : Pool) (op : Operator) : Bool :=
  match op.kind with
  | .call m => (p.method m).any fun method =>
      p.isScalar method.owner = some true && op.result?.isSome &&
        match (p.name method.name).bind (WrapperMethod.of? method.kind) with
        | some .opEquality | some .opInequality => g.hasScalarArg p op 1 && g.hasScalarArg p op 2
        | some .equals => op.args.head?.any (·.var?.isSome) && g.hasScalarArg p op 1 &&
            !(p.scalarOf method.owner).join.any Scalar.isFloat
        | some .ctor | none => false
  | _ => false

def comparableCalls (g : Graph) (p : Pool) : List OpId :=
  g.attached.filter fun id => (g.op id).any (g.isComparable p)

theorem isCall_of_isComparable (h : g.isComparable p op) : op.kind.isCall := by
  unfold isComparable at h
  split at h
  · simp [OpKind.isCall, *]
  · cases h

theorem hasScalarArg_congr (hargs : op'.args = op.args)
    (htype : ∀ e ∈ op.args, g'.typeOf e = g.typeOf e) (i : Nat) :
    g'.hasScalarArg p op' i = g.hasScalarArg p op i := by
  unfold hasScalarArg
  rw [hargs]
  cases hi : op.args[i]? with
  | none => rfl
  | some e => simp only [Option.any_some, isScalarExpr_congr (htype e (List.mem_of_getElem? hi))]

theorem isComparable_congr (hcode : op'.code = op.code)
    (htype : ∀ e ∈ op.args, g'.typeOf e = g.typeOf e) :
    g'.isComparable p op' = g.isComparable p op := by
  obtain ⟨hkind, hargs, hresults, -⟩ := Operator.code_eq.mp hcode
  unfold isComparable
  simp only [hkind, hargs, Operator.result?, hresults, hasScalarArg_congr hargs htype]

theorem staticOperands_eq_none {call : OpId} : g.staticOperands p call op = .ok none ↔
    ∃ unused left right, op.args = [unused, left, right] ∧ ∃ l, g.isScalarExpr p left = some l ∧
      (l = true → g.isScalarExpr p right = some false) := by
  constructor
  · intro h
    unfold staticOperands at h
    split at h
    case h_2 => simp at h
    rename_i unused left right hargs
    simp only [Except.bind_eq_ok, Error.lift_eq_ok] at h
    obtain ⟨l, hl, h⟩ := h
    refine ⟨unused, left, right, hargs, l, hl, ?_⟩
    rintro rfl
    simp only [Bool.not_true, Bool.false_eq_true, if_false, Except.bind_eq_ok, Error.lift_eq_ok] at h
    obtain ⟨r, hr, h⟩ := h
    cases r with
    | false => exact hr
    | true => simp at h
  · rintro ⟨unused, left, right, hargs, l, hl, hr⟩
    cases l with
    | false => simp [staticOperands, hargs, hl, Error.lift_some]
    | true => simp [staticOperands, hargs, hl, hr rfl, Error.lift_some]

theorem instanceOperands_eq_none {call : OpId} {owner : TypeId} :
    g.instanceOperands p c call op owner = .ok none ↔
    ∃ this right, op.args = [this, right] ∧ ∃ r, g.isScalarExpr p right = some r ∧
      (r = true → ∃ kind, p.scalarOf owner = some kind ∧
        (kind.any Scalar.isFloat = false → this.var? = none)) := by
  constructor
  · intro h
    unfold instanceOperands at h
    split at h
    case h_2 => simp at h
    rename_i this right hargs
    simp only [Except.bind_eq_ok, Error.lift_eq_ok] at h
    obtain ⟨r, hr, h⟩ := h
    refine ⟨this, right, hargs, r, hr, ?_⟩
    rintro rfl
    simp only [Bool.not_true, Bool.false_eq_true, if_false, Except.bind_eq_ok, Error.lift_eq_ok] at h
    obtain ⟨kind, hkind, h⟩ := h
    refine ⟨kind, hkind, fun hfloat => ?_⟩
    rw [hfloat, if_neg Bool.false_ne_true] at h
    cases this with
    | const => rfl
    | var x =>
      obtain ⟨source, -, h⟩ := Except.bind_eq_ok.mp h
      simp at h
  · rintro ⟨this, right, hargs, r, hr, h⟩
    cases r with
    | false => simp [instanceOperands, hargs, hr, Error.lift_some]
    | true =>
      obtain ⟨kind, hkind, h⟩ := h rfl
      cases hfloat : kind.any Scalar.isFloat with
      | true => simp [instanceOperands, hargs, hr, hkind, hfloat, Error.lift_some]
      | false =>
        cases this with
        | const => simp [instanceOperands, hargs, hr, hkind, Error.lift_some]
        | var x => exact absurd (h hfloat) (by simp [Expr.var?])

theorem bind_map_eq_none {α β : Type} {x : Except Error (Option α)} {f : α → β} :
    (x >>= fun o => pure (o.map f)) = .ok none ↔ x = .ok none := by
  rcases x with _ | _ | _ <;> simp [bind, Except.bind, pure, Except.pure]

/-- A call is declined for what it is and for the types of its operands. -/
theorem equalityComparison_eq_none (hop : g.op id = some op) :
    g.equalityComparison p c id = .ok none ↔ ∀ m, op.kind = .call m → ∃ method scalar,
      p.method m = some method ∧ p.isScalar method.owner = some scalar ∧ (scalar = true →
        ∃ condition, p.equalityCondition method = some condition ∧
          (condition.isSome → op.result?.isSome →
            (method.kind = .ofType → g.staticOperands p id op = .ok none) ∧
              (method.kind ≠ .ofType → g.instanceOperands p c id op method.owner = .ok none))) := by
  unfold equalityComparison
  simp only [hop, Error.lift_some_bind]
  constructor
  · intro h m hm
    simp only [hm, Except.bind_eq_ok, Error.lift_eq_ok] at h
    obtain ⟨method, hmethod, scalar, hscalar, h⟩ := h
    refine ⟨method, scalar, hmethod, hscalar, ?_⟩
    rintro rfl
    simp only [Bool.not_true, Bool.false_eq_true, if_false, Except.bind_eq_ok, Error.lift_eq_ok] at h
    obtain ⟨condition, hcondition, h⟩ := h
    refine ⟨condition, hcondition, fun hsome hresult => ?_⟩
    obtain ⟨condition, rfl⟩ := Option.isSome_iff_exists.mp hsome
    obtain ⟨result, hresult⟩ := Option.isSome_iff_exists.mp hresult
    simp only [hresult] at h
    split at h
    · exact ⟨fun _ => bind_map_eq_none.mp h, fun hnot => absurd ‹_› hnot⟩
    · exact ⟨fun hstatic => absurd hstatic ‹_›, fun _ => bind_map_eq_none.mp h⟩
  · intro h
    split
    case h_2 => rfl
    rename_i m hm
    obtain ⟨method, scalar, hmethod, hscalar, h⟩ := h m hm
    simp only [hmethod, hscalar, Error.lift_some_bind]
    cases scalar with
    | false => rfl
    | true =>
    obtain ⟨condition, hcondition, h⟩ := h rfl
    simp only [hcondition, Error.lift_some_bind, Bool.not_true, Bool.false_eq_true, if_false]
    cases condition with
    | none => rfl
    | some condition =>
    cases hresult : op.result? with
    | none => rfl
    | some result =>
    obtain ⟨hstatic, hinstance⟩ := h rfl (by simp [hresult])
    dsimp only
    split
    · exact bind_map_eq_none.mpr (hstatic ‹_›)
    · exact bind_map_eq_none.mpr (hinstance ‹_›)

theorem equalityComparison_none_congr (h : g.equalityComparison p c id = .ok none)
    (hop : g.op id = some op) (hop' : g'.op id = some op') (hcode : op'.code = op.code)
    (htype : ∀ e ∈ op.args, g'.typeOf e = g.typeOf e) (c' : Chains) :
    g'.equalityComparison p c' id = .ok none := by
  obtain ⟨hkind, hargs, hresults, -⟩ := Operator.code_eq.mp hcode
  rw [equalityComparison_eq_none hop] at h
  refine (equalityComparison_eq_none hop').mpr fun m hm => ?_
  obtain ⟨method, scalar, hmethod, hscalar, h⟩ := h m (hkind ▸ hm)
  refine ⟨method, scalar, hmethod, hscalar, fun htrue => ?_⟩
  obtain ⟨condition, hcondition, h⟩ := h htrue
  refine ⟨condition, hcondition, fun hsome hresult => ?_⟩
  obtain ⟨hstatic, hinstance⟩ := h hsome (by simpa [Operator.result?, hresults] using hresult)
  refine ⟨fun hkind => ?_, fun hkind => ?_⟩
  · obtain ⟨unused, left, right, hargs', l, hl, hr⟩ := staticOperands_eq_none.mp (hstatic hkind)
    refine staticOperands_eq_none.mpr ⟨unused, left, right, hargs.trans hargs', l, ?_, fun hl => ?_⟩
    · rw [isScalarExpr_congr (htype left (by simp [hargs'])), hl]
    · rw [isScalarExpr_congr (htype right (by simp [hargs'])), hr hl]
  · obtain ⟨this, right, hargs', r, hr, h⟩ := instanceOperands_eq_none.mp (hinstance hkind)
    refine instanceOperands_eq_none.mpr ⟨this, right, hargs.trans hargs', r, ?_, h⟩
    rw [isScalarExpr_congr (htype right (by simp [hargs'])), hr]

theorem exists_equalityCondition {method : Method} {w : WrapperMethod}
    (h : (p.name method.name).bind (WrapperMethod.of? method.kind) = some w) (hw : w ≠ .ctor) :
    method.kind = w.kind ∧ ∃ condition, p.equalityCondition method = some (some condition) := by
  obtain ⟨name, hname, hof⟩ := Option.bind_eq_some_iff.mp h
  refine ⟨WrapperMethod.kind_of? hof, ?_⟩
  cases w <;> simp_all [Pool.equalityCondition]

theorem isComparable_iff : g.isComparable p op ↔ ∃ m method condition, op.kind = .call m ∧
    p.method m = some method ∧ p.isScalar method.owner = some true ∧
    p.equalityCondition method = some (some condition) ∧ op.result?.isSome ∧
    (method.kind = .ofType ∧ g.hasScalarArg p op 1 ∧ g.hasScalarArg p op 2 ∨
      method.kind ≠ .ofType ∧ op.args.head?.any (·.var?.isSome) ∧ g.hasScalarArg p op 1 ∧
        (p.scalarOf method.owner).join.any Scalar.isFloat = false) := by
  constructor
  · intro h
    unfold isComparable at h
    split at h
    case h_2 => cases h
    rename_i m hm
    obtain ⟨method, hmethod, h⟩ := (Option.any_eq_true _ _).mp h
    simp only [Bool.and_eq_true, decide_eq_true_eq] at h
    obtain ⟨⟨hscalar, hresult⟩, h⟩ := h
    split at h
    case h_4 => cases h
    case h_5 => cases h
    all_goals
      rename_i hof
      obtain ⟨hkind, condition, hcondition⟩ := exists_equalityCondition hof (by simp)
      refine ⟨m, method, condition, hm, hmethod, hscalar, hcondition, hresult, ?_⟩
    · exact .inl ⟨hkind, by simpa using h⟩
    · exact .inl ⟨hkind, by simpa using h⟩
    · exact .inr ⟨by simp [hkind, WrapperMethod.kind], by simpa [and_assoc] using h⟩
  · rintro ⟨m, method, condition, hm, hmethod, hscalar, hcondition, hresult, hoperands⟩
    unfold isComparable
    rw [hm]
    simp only [hmethod, hscalar, hresult, Option.any_some, decide_true, Bool.true_and]
    obtain ⟨name, hname, ⟨hof, hkind, -⟩ | ⟨hof, hkind, -⟩ | ⟨hof, hkind, -⟩⟩ :=
      Pool.equalityCondition_spec hcondition
    all_goals rw [hname, Option.bind_some, hof]
    · simpa [hkind, and_assoc] using hoperands
    · simpa [hkind] using hoperands
    · simpa [hkind] using hoperands

/-- The decision about a call finds a comparison exactly if the call can be lowered. -/
theorem isSome_of_equalityComparison {found : Option Comparison}
    (h : g.equalityComparison p c id = .ok found) (hop : g.op id = some op) :
    found.isSome = g.isComparable p op := by
  cases found with
  | none =>
    refine (Bool.eq_false_iff.mpr fun hcomparable => ?_).symm
    obtain ⟨m, method, condition, hm, hmethod, hscalar, hcondition, hresult, hoperands⟩ :=
      isComparable_iff.mp hcomparable
    obtain ⟨method', scalar, hmethod', hscalar', h⟩ := (equalityComparison_eq_none hop).mp h m hm
    obtain rfl := Option.some.inj (hmethod.symm.trans hmethod')
    obtain ⟨condition', hcondition', h⟩ := h (Option.some.inj (hscalar'.symm.trans hscalar))
    obtain rfl := Option.some.inj (hcondition.symm.trans hcondition')
    obtain ⟨hstatic, hinstance⟩ := h rfl hresult
    obtain ⟨hkind, hleft, hright⟩ | ⟨hkind, hthis, hright, hfloat⟩ := hoperands
    · obtain ⟨unused, left, right, hargs, l, hl, hr⟩ := staticOperands_eq_none.mp (hstatic hkind)
      simp_all [hasScalarArg]
    · obtain ⟨this, right, hargs, r, hr, h⟩ := instanceOperands_eq_none.mp (hinstance hkind)
      obtain rfl : r = true := by simpa [hasScalarArg, hargs, hr] using hright
      obtain ⟨kind, hscalars, h⟩ := h rfl
      simp [hargs, h (by simpa [hscalars] using hfloat)] at hthis
  | some cmp =>
    obtain ⟨op', m, method, hop', hm, hmethod, hscalar, hcondition, hresult, hoperands⟩ :=
      equalityComparison_spec h
    obtain rfl := Option.some.inj (hop.symm.trans hop')
    refine (isComparable_iff.mpr ⟨m, method, _, hm, hmethod, hscalar, hcondition, by simp [hresult],
      hoperands.imp (And.imp_right fun h => ?_) (And.imp_right fun h => ?_)⟩).symm
    · obtain ⟨unused, left, hargs, -, hleft, hright⟩ := staticOperands_spec h
      simp [hasScalarArg, hargs, hleft, hright]
    · obtain ⟨this, kind, hargs, hright, hkind, hfloat, -⟩ := instanceOperands_spec h
      simp [hasScalarArg, hargs, hright, hkind, hfloat, Expr.var?]

theorem lt_of_mentionsKnown {v : VarId} (hg : g.mentionsKnown) (hid : id ∈ g.attached)
    (hop : g.op id = some op) (hv : v ∈ op.mentions) : v.index < g.vars.size := by
  obtain ⟨op', hop', hknown⟩ := mentionsKnown_iff.mp hg id hid
  obtain rfl := Option.some.inj (hop.symm.trans hop')
  exact hknown v hv

def Knows (g : Graph) (e : Expr) : Prop := ∀ v, e = .var v → v.index < g.vars.size

theorem knows_of_arg (hg : g.mentionsKnown) (hid : id ∈ g.attached) (hop : g.op id = some op)
    (he : e ∈ op.args) : g.Knows e := by
  rintro v rfl
  exact lt_of_mentionsKnown hg hid hop (List.mem_append_left _ (mem_reads.mpr he))

theorem Knows.exists_type (h : g.Knows e) : ∃ t, g.typeOf e = some t := by
  cases e with
  | const c => exact ⟨c.type, rfl⟩
  | var v => exact ⟨_, by simp [typeOf, var, Array.getElem?_eq_getElem (h v rfl)]; rfl⟩

/-- The second graph has the calls of the first one but for `done`. It may have more variables and
more operators that are no calls. -/
structure LeavesCalls (g g' : Graph) (done : List OpId) : Prop where
  type : ∀ {e t}, g.typeOf e = some t → g'.typeOf e = some t
  kept : ∀ {id op}, id ∈ g.attached → id ∉ done → g.op id = some op →
    id ∈ g'.attached ∧ g'.op id = some op
  call : ∀ {id op}, id ∈ g'.attached → g'.op id = some op → op.kind.isCall →
    id ∈ g.attached ∧ id ∉ done ∧ g.op id = some op
  known : g'.mentionsKnown

theorem LeavesCalls.refl (hg : g.mentionsKnown) : g.LeavesCalls g [] where
  type h := h
  kept hid _ hop := ⟨hid, hop⟩
  call hid hop _ := ⟨hid, List.not_mem_nil, hop⟩
  known := hg

theorem LeavesCalls.trans {done' : List OpId} (h : g.LeavesCalls g' done)
    (h' : g'.LeavesCalls g'' done') : g.LeavesCalls g'' (done ++ done') where
  type ht := h'.type (h.type ht)
  kept hid hnot hop := by
    rw [List.mem_append, not_or] at hnot
    obtain ⟨hid', hop'⟩ := h.kept hid hnot.1 hop
    exact h'.kept hid' hnot.2 hop'
  call hid hop hcall := by
    obtain ⟨hid', hnot', hop'⟩ := h'.call hid hop hcall
    obtain ⟨hid, hnot, hop⟩ := h.call hid' hop' hcall
    exact ⟨hid, by simp [hnot, hnot'], hop⟩
  known := h'.known

theorem LeavesCalls.typeOf_eq (h : g.LeavesCalls g' done) (he : g.Knows e) :
    g'.typeOf e = g.typeOf e := by
  obtain ⟨t, ht⟩ := he.exists_type
  rw [ht, h.type ht]

theorem leavesCalls_addVar (hg : g.mentionsKnown) (kind : VarKind) (t : TypeId) :
    g.LeavesCalls (g.addVar kind t).2 [] where
  type {e t'} ht := by
    cases e with
    | const c => exact ht
    | var v =>
      obtain ⟨info, hinfo, -⟩ := Option.map_eq_some_iff.mp ht
      obtain ⟨hlt, -⟩ := Array.getElem?_eq_some_iff.mp hinfo
      simpa [typeOf, Nat.ne_of_lt hlt] using ht
  kept hid _ hop := ⟨hid, hop⟩
  call hid hop _ := ⟨hid, List.not_mem_nil, hop⟩
  known := by
    refine mentionsKnown_iff.mpr fun id hid => ?_
    obtain ⟨op, hop, hknown⟩ := mentionsKnown_iff.mp hg id hid
    exact ⟨op, hop, fun v hv => by simpa [addVar] using Nat.lt_succ_of_lt (hknown v hv)⟩

theorem leavesCalls_spliced (hg : g.Linked) (hknown : g.mentionsKnown) (h : g.Spliced g' old ids)
    (hnew : ∀ n ∈ ids, n ≠ old → ∃ new, g'.op n = some new ∧ new.kind.isCall = false ∧
      ∀ v ∈ new.mentions, v.index < g.vars.size) :
    g.LeavesCalls g' (if old ∈ ids then [] else [old]) where
  type {e t} ht := by rw [(sameVars_of_vars_eq h.vars).typeOf, ht]
  kept {id op} hid hnot hop := by
    have hkeep : id ≠ old ∨ old ∈ ids := by
      by_cases hmem : old ∈ ids
      · exact .inr hmem
      · exact .inl (by simpa [hmem] using hnot)
    refine ⟨h.mem_attached.mpr ?_, by rw [h.op hkeep (hg.lt_of_mem hid), hop]⟩
    by_cases hold : id = old
    · exact .inl (hold ▸ hkeep.resolve_left (absurd hold))
    · exact .inr ⟨hold, hid⟩
  call {id op} hid hop hcall := by
    have hback : (id ≠ old ∨ old ∈ ids) ∧ id ∈ g.attached := by
      by_cases hold : id = old
      · subst hold
        exact ⟨.inr ((h.mem_attached.mp hid).resolve_right (by simp)), h.attached⟩
      · refine ⟨.inl hold, ((h.mem_attached.mp hid).resolve_left fun hmem => ?_).2⟩
        obtain ⟨new, hnew, hplain, -⟩ := hnew id hmem hold
        obtain rfl := Option.some.inj (hop.symm.trans hnew)
        simp [hplain] at hcall
    refine ⟨hback.2, ?_, by rw [← h.op hback.1 (hg.lt_of_mem hback.2), hop]⟩
    split
    · exact List.not_mem_nil
    · exact List.mem_singleton.not.mpr (hback.1.resolve_right ‹_›)
  known := by
    refine mentionsKnown_iff.mpr fun id hid => ?_
    rw [h.vars]
    obtain hmem | ⟨hne, hatt⟩ := h.mem_attached.mp hid
    · by_cases hold : id = old
      · subst hold
        obtain ⟨op, hop, hmentions⟩ := mentionsKnown_iff.mp hknown id h.attached
        exact ⟨op, by rw [h.op (.inr hmem) (hg.lt_of_mem h.attached), hop], hmentions⟩
      · obtain ⟨new, hnew, -, hmentions⟩ := hnew id hmem hold
        exact ⟨new, hnew, hmentions⟩
    · obtain ⟨op, hop, hmentions⟩ := mentionsKnown_iff.mp hknown id hatt
      exact ⟨op, by rw [h.op (.inl hne) (hg.lt_of_mem hatt), hop], hmentions⟩

theorem knows_of_sourceOf {v : VarId} {source : Source} (hknown : g.mentionsKnown) (hc : Tracks c g)
    (hv : g.Knows (.var v)) (h : g.sourceOf p c id v = .ok source) : g.Knows source.operand := by
  obtain ⟨info, -, ⟨-, rfl⟩ | ⟨t, -, -, ⟨e, -, haddressed, rfl⟩ | rfl⟩⟩ := sourceOf_spec h
  · exact hv
  · obtain ⟨d, op, hd, hop, -, hargs⟩ := addressedBy_spec haddressed
    exact knows_of_arg hknown (Edit.mem_attached_of_defCount hc hd) hop (by simp [hargs, Source.operand])
  · exact hv

end Graph

namespace Edit

open ScalarLowering.Graph

variable {g g' : Graph} {p : Pool} {c : Chains} {id : OpId} {op : Operator} {ids : List OpId}
  {b : Bool} {n : Nat}

theorem leavesCalls_compare {n : OpId} {condition : Condition} {result : VarId} {left right : Expr}
    (hg : g.Linked) (hknown : g.mentionsKnown) (hresult : result.index < g.vars.size)
    (hleft : g.Knows left) (hright : g.Knows right)
    (h : substitute id (.compare condition result left right) .keep g = .ok n g') :
    g.LeavesCalls g' [id] := by
  obtain ⟨hs, rfl, hcode⟩ := substitute_spec hg h
  obtain ⟨put, hput, hcode⟩ := exists_of_code hcode
  obtain ⟨hkind, hargs, hresults, -⟩ := Operator.code_eq.mp hcode
  have hfresh : id ∉ [(⟨g.ops.size⟩ : OpId)] := fun hmem =>
    notMem_attached_size hg (List.mem_singleton.mp hmem ▸ hs.attached)
  have hleaves := leavesCalls_spliced hg hknown hs fun x hx _ => by
    obtain rfl := List.mem_singleton.mp hx
    refine ⟨put, hput, by rw [hkind]; rfl, fun v hv => ?_⟩
    obtain hv | hv := List.mem_append.mp hv
    · obtain hv | hv : .var v = left ∨ .var v = right := by
        simpa [mem_reads, hargs, Operator.compare] using hv
      · exact hleft v hv.symm
      · exact hright v hv.symm
    · obtain rfl : v = result := by simpa [hresults, Operator.compare] using hv
      exact hresult
  rwa [if_neg hfresh] at hleaves

theorem leavesCalls_fetch {source : Source} {check : Bool} {e : Expr} (hg : g.Linked)
    (hknown : g.mentionsKnown) (hsource : g.Knows source.operand)
    (h : fetch id check source g = .ok e g') :
    g'.Linked ∧ g.LeavesCalls g' [] ∧ g'.Knows e := by
  have hg' := ((grows_fetch id check source).ok h hg).1
  refine ⟨hg', ?_⟩
  cases source with
  | value e' =>
    obtain ⟨rfl, rfl⟩ := pure_eq_ok.mp h
    exact ⟨.refl hknown, hsource⟩
  | behind pointer t =>
    obtain ⟨rfl, n, load, hload, hinsert⟩ := fetch_behind_spec h
    have h₁ := leavesCalls_addVar hknown .temporary t
    have hg₁ : (g.addVar .temporary t).2.Linked := ((grows_addVar .temporary t) hg).1
    obtain ⟨hs, rfl, hcode⟩ := insertBefore_spec hg₁ hinsert
    obtain ⟨put, hput, hcode⟩ := exists_of_code hcode
    obtain ⟨hkind, hargs, hresults, -⟩ := Operator.code_eq.mp (hcode.trans hload)
    have hsize : (g.addVar .temporary t).2.vars.size = g.vars.size + 1 := by simp [addVar]
    have h₂ := leavesCalls_spliced hg₁ h₁.known hs fun x hx hne => by
      obtain rfl : x = ⟨g.ops.size⟩ := by simpa [hne] using hx
      refine ⟨put, hput, by rw [hkind]; rfl, fun v hv => ?_⟩
      rw [hsize]
      obtain hv | hv := List.mem_append.mp hv
      · obtain rfl : v = pointer := by simpa [mem_reads, hargs, Operator.loadIndirect] using hv
        exact Nat.lt_succ_of_lt (hsource v rfl)
      · obtain rfl : v = ⟨g.vars.size⟩ := by simpa [hresults, Operator.loadIndirect] using hv
        exact Nat.lt_succ_self _
    rw [if_pos (by simp)] at h₂
    refine ⟨h₁.trans h₂, ?_⟩
    rintro v ⟨⟩
    rw [hs.vars, hsize]
    exact Nat.lt_succ_self _

/-- One call: it is lowered exactly if it can be, and all other calls are left as they are. A call
that is declined is declined whatever the chains. -/
theorem leavesCalls_lowerEquality (hg : g.Linked) (hc : Tracks c g) (hknown : g.mentionsKnown)
    (hid : id ∈ g.attached) (hop : g.op id = some op) (h : lowerEquality p c id g = .ok b g') :
    b = g.isComparable p op ∧ g.LeavesCalls g' (if b then [id] else []) ∧
      (b = false → ∀ c, g.equalityComparison p c id = .ok none) := by
  obtain ⟨found, hfound, h⟩ := query_bind_eq_ok.mp h
  have hsome := isSome_of_equalityComparison hfound hop
  cases found with
  | none =>
    obtain ⟨rfl, rfl⟩ := pure_eq_ok.mp h
    exact ⟨hsome, .refl hknown, fun _ => equalityComparison_none_congr hfound hop hop rfl fun _ _ => rfl⟩
  | some cmp =>
    obtain ⟨check, -, h⟩ := query_bind_eq_ok.mp h
    obtain ⟨left, g₁, hfetch, h⟩ := bind_eq_ok.mp h
    obtain ⟨n, g₂, hsubstitute, h⟩ := bind_eq_ok.mp h
    obtain ⟨rfl, rfl⟩ := pure_eq_ok.mp h
    obtain ⟨op', m, method, hop', -, -, -, -, hresult, hoperands⟩ := equalityComparison_spec hfound
    obtain rfl := Option.some.inj (hop.symm.trans hop')
    have hresult : cmp.result.index < g.vars.size := lt_of_mentionsKnown hknown hid hop
      (List.mem_append_right _ (List.mem_of_mem_head? hresult))
    have hargs : ∀ e ∈ op.args, g.Knows e := fun e he => knows_of_arg hknown hid hop he
    obtain ⟨hleft, hright⟩ : g.Knows cmp.left.operand ∧ g.Knows cmp.right := by
      obtain ⟨-, h⟩ | ⟨-, h⟩ := hoperands
      · obtain ⟨unused, e, heq, hsource, -⟩ := staticOperands_spec h
        rw [hsource]
        exact ⟨hargs _ (by simp [heq, Source.operand]), hargs _ (by simp [heq])⟩
      · obtain ⟨this, kind, heq, -, -, -, hsource⟩ := instanceOperands_spec h
        exact ⟨knows_of_sourceOf hknown hc (hargs _ (by simp [heq])) hsource, hargs _ (by simp [heq])⟩
    obtain ⟨hg₁, h₁, hleft₁⟩ := leavesCalls_fetch hg hknown hleft hfetch
    have hgrows := ((grows_fetch id check cmp.left).ok hfetch hg).2.size_vars
    exact ⟨hsome, h₁.trans (leavesCalls_compare hg₁ h₁.known (Nat.lt_of_lt_of_le hresult hgrows) hleft₁
      (fun v hv => Nat.lt_of_lt_of_le (hright v hv) hgrows) hsubstitute), by simp⟩

/-- All calls of a list: exactly those are lowered that could be lowered at the start, because no
edit changes what the decision about another call looks at. -/
theorem leavesCalls_sweep (hids : ids.Nodup) (hatt : ∀ id ∈ ids, id ∈ g.attached) (hg : g.Linked)
    (hc : Tracks c g) (hknown : g.mentionsKnown)
    (h : sweep (lowerEquality p c) ids g = .ok n g') :
    ∃ done, done = ids.filter (fun id => (g.op id).any (g.isComparable p)) ∧ n = done.length ∧
      g.LeavesCalls g' done ∧
      ∀ id ∈ ids, id ∉ done → ∀ c, g.equalityComparison p c id = .ok none := by
  induction ids generalizing g n with
  | nil =>
    obtain ⟨rfl, rfl⟩ := pure_eq_ok.mp h
    exact ⟨[], rfl, rfl, .refl hknown, by simp⟩
  | cons id ids ih =>
    obtain ⟨b, g₁, hfirst, h⟩ := bind_eq_ok.mp h
    obtain ⟨m, g₂, hrest, h⟩ := bind_eq_ok.mp h
    obtain ⟨rfl, rfl⟩ := pure_eq_ok.mp h
    obtain ⟨hnot, hids⟩ := List.nodup_cons.mp hids
    have hid := hatt id List.mem_cons_self
    obtain ⟨op, hop, -⟩ := mentionsKnown_iff.mp hknown id hid
    obtain ⟨hb, h₁, hnone⟩ := leavesCalls_lowerEquality hg hc hknown hid hop hfirst
    obtain ⟨hg₁, hext⟩ := (grows_lowerEquality p c id).ok hfirst hg
    have hkept : ∀ x ∈ ids, ∃ op, g.op x = some op ∧ x ∈ g₁.attached ∧ g₁.op x = some op ∧
        ∀ e ∈ op.args, g₁.typeOf e = g.typeOf e := by
      intro x hx
      have hxatt := hatt x (List.mem_cons_of_mem _ hx)
      obtain ⟨xop, hxop, -⟩ := mentionsKnown_iff.mp hknown x hxatt
      have hxid : x ∉ (if b then [id] else []) := by
        rintro hmem
        obtain rfl : x = id := by
          cases b with
          | false => cases hmem
          | true => exact List.mem_singleton.mp hmem
        exact hnot hx
      obtain ⟨hxatt', hxop'⟩ := h₁.kept hxatt hxid hxop
      exact ⟨xop, hxop, hxatt', hxop', fun e he => h₁.typeOf_eq (knows_of_arg hknown hxatt hxop he)⟩
    obtain ⟨done, hdone, hm, h₂, hnone₂⟩ := ih hids
      (fun x hx => by obtain ⟨-, -, hx', -⟩ := hkept x hx; exact hx') hg₁ (hc.extends hext hg₁)
      h₁.known hrest
    have hsame : done = ids.filter (fun x => (g.op x).any (g.isComparable p)) := by
      rw [hdone]
      refine List.filter_congr fun x hx => ?_
      obtain ⟨xop, hxop, -, hxop', htype⟩ := hkept x hx
      rw [hxop, hxop', Option.any_some, Option.any_some, isComparable_congr rfl htype]
    refine ⟨(if b then [id] else []) ++ done, ?_, ?_, h₁.trans h₂, fun x hx hxnot => ?_⟩
    · rw [List.filter_cons, hop, Option.any_some, ← hb, hsame]
      cases b <;> rfl
    · rw [hm]
      cases b <;> simp [Nat.add_comm]
    · rw [List.mem_append, not_or] at hxnot
      obtain rfl | hx := List.mem_cons.mp hx
      · refine hnone ?_
        cases b with
        | false => rfl
        | true => exact absurd (List.mem_singleton_self x) hxnot.1
      · obtain ⟨xop, hxop, -, hxop', htype⟩ := hkept x hx
        exact equalityComparison_none_congr (hnone₂ x hx hxnot.2 c) hxop' hxop rfl
          fun e he => (htype e he).symm

end Edit

namespace Graph

variable {g g' : Graph} {p : Pool} {c : Chains} {id : OpId} {op : Operator} {done : List OpId}

def Exhausted (g : Graph) (p : Pool) : Prop :=
  ∀ id ∈ g.attached, ∀ c, g.equalityComparison p c id = .ok none

/-- The second graph has fewer operators, on the same variables. -/
structure Fewer (g g' : Graph) : Prop where
  attached : ∀ {id}, id ∈ g'.attached → id ∈ g.attached
  op : ∀ id, (g'.op id).map (·.code) = (g.op id).map (·.code)
  vars : g.SameVars g'

theorem Exhausted.fewer (hg : g.Exhausted p) (hknown : g.mentionsKnown) (h : g.Fewer g') :
    g'.Exhausted p := by
  intro id hid c
  obtain ⟨op, hop, -⟩ := mentionsKnown_iff.mp hknown id (h.attached hid)
  obtain ⟨op', hop', hcode⟩ := exists_of_code ((h.op id).trans (by rw [hop]; rfl))
  exact equalityComparison_none_congr (hg id (h.attached hid) c) hop hop' hcode
    (fun e _ => h.vars.typeOf e) c

theorem Fewer.mentionsKnown (h : g.Fewer g') (hsize : g'.vars.size = g.vars.size)
    (hknown : g.mentionsKnown) : g'.mentionsKnown := by
  refine mentionsKnown_iff.mpr fun id hid => ?_
  obtain ⟨op, hop, hmentions⟩ := mentionsKnown_iff.mp hknown id (h.attached hid)
  obtain ⟨op', hop', hcode⟩ := exists_of_code ((h.op id).trans (by rw [hop]; rfl))
  obtain ⟨-, hargs, hresults, -⟩ := Operator.code_eq.mp hcode
  refine ⟨op', hop', fun v hv => hsize ▸ hmentions v ?_⟩
  simpa [Operator.mentions, Operator.reads, hargs, hresults] using hv

theorem SameCode.fewer (h : g.SameCode g') : g.Fewer g' where
  attached hid := h.attached_eq ▸ hid
  op id := by rw [h.op_eq]
  vars := h.sameVars

theorem fewer_updateReachability (hg : g.Linked) : g.Fewer g.updateReachability.2 where
  attached hid := by
    rw [hg.attached_updateReachability] at hid
    exact (List.mem_filter.mp hid).1
  op id := by
    obtain ⟨c, hc⟩ := op_updateReachability_eq (g := g) id
    rw [hc, Option.map_map]
    rfl
  vars := sameVars_of_vars_eq vars_updateReachability

theorem SameCode.comparableCalls (h : g.SameCode g') : g'.comparableCalls p = g.comparableCalls p := by
  unfold Graph.comparableCalls
  rw [h.attached_eq, h.op_eq]
  refine List.filter_congr fun id _ => ?_
  cases g.op id with
  | none => rfl
  | some op => exact isComparable_congr rfl fun e _ => h.sameVars.typeOf e

theorem Exhausted.comparableCalls (hg : g.Exhausted p) : g.comparableCalls p = [] := by
  refine List.filter_eq_nil_iff.mpr fun id hid hcomparable => ?_
  obtain ⟨op, hop, hcomparable⟩ := (Option.any_eq_true _ _).mp hcomparable
  have hnone := isSome_of_equalityComparison (hg id hid (g.scan 0)) hop
  simp [hcomparable] at hnone

theorem filter_isComparable : (g.attachedWhere OpKind.isCall).filter
    (fun id => (g.op id).any (g.isComparable p)) = g.comparableCalls p := by
  rw [attachedWhere, List.filter_filter]
  refine List.filter_congr fun id _ => ?_
  cases g.op id with
  | none => rfl
  | some op =>
    rw [Option.any_some, Option.any_some, Bool.and_eq_left_iff_imp]
    exact isCall_of_isComparable

theorem LeavesCalls.exhausted (h : g.LeavesCalls g' done) (hknown : g.mentionsKnown)
    (hnone : ∀ id ∈ g.attachedWhere OpKind.isCall, id ∉ done →
      ∀ c, g.equalityComparison p c id = .ok none) : g'.Exhausted p := by
  intro id hid c
  obtain ⟨op, hop', -⟩ := mentionsKnown_iff.mp h.known id hid
  by_cases hcall : op.kind.isCall
  · obtain ⟨hatt, hnot, hop⟩ := h.call hid hop' hcall
    have hmem : id ∈ g.attachedWhere OpKind.isCall := List.mem_filter.mpr ⟨hatt, by simp [hop, hcall]⟩
    exact equalityComparison_none_congr (hnone id hmem hnot c) hop hop' rfl
      (fun e he => h.typeOf_eq (knows_of_arg hknown hatt hop he)) c
  · refine (equalityComparison_eq_none hop').mpr fun m hm => ?_
    simp [hm, OpKind.isCall] at hcall

end Graph

namespace Edit

open ScalarLowering.Graph

variable {g g' : Graph} {p : Pool} {n : Nat}

/-- A batch lowers the calls that can be lowered and leaves none. -/
theorem exhausted_batch (hg : g.Coherent) (hknown : g.mentionsKnown)
    (h : batch (lowerEqualities p) g = .ok n g') :
    n = (g.comparableCalls p).length ∧ g'.Coherent ∧ g'.mentionsKnown ∧ g'.Exhausted p := by
  obtain ⟨c, g₁, hsnapshot, hsweep, -⟩ := (batch_eq_ok (w := .equality)).mp h
  obtain ⟨hexact, hg₁, hcode⟩ := snapshot_spec hg hsnapshot
  have hcode := hcode.checkpointed
  have hlinked : g₁.checkpointed.Linked := (Move.checkpoint.steady hg₁).linked
  have hexact : Exact c g₁.checkpointed := hexact.of_sameScans ⟨rfl, rfl, rfl, rfl⟩
  have hknown : g₁.checkpointed.mentionsKnown := hcode.mentionsKnown.trans hknown
  obtain ⟨done, hdone, rfl, hleaves, hnone⟩ := leavesCalls_sweep (hlinked.nodup_attached.filter _)
    (fun id hid => (List.mem_filter.mp hid).1) hlinked (hexact.tracks hlinked) hknown hsweep
  refine ⟨?_, ((moves_batch_sweep (grows_lowerEquality p) _).ok h).steady hg, hleaves.known,
    hleaves.exhausted hknown hnone⟩
  rw [hdone, ← hcode.comparableCalls]
  exact congrArg List.length filter_isComparable

/-- A batch finds nothing to do where no call is left, and leaves the graph as it is but for the
snapshot it takes. -/
theorem batch_of_exhausted (hg : g.Coherent) (hknown : g.mentionsKnown) (hnone : g.Exhausted p) :
    ∃ g', batch (lowerEqualities p) g = .ok 0 g' ∧ g.SameCode g' ∧ g'.version = g.version ∧
      g'.name = g.name := by
  obtain ⟨c, g₁, hsnapshot⟩ := exists_snapshot hknown
  obtain ⟨-, -, hcode⟩ := snapshot_spec hg hsnapshot
  have hcode := hcode.checkpointed
  refine ⟨g₁.checkpointed, (batch_eq_ok (w := .equality)).mpr
    ⟨c, g₁, hsnapshot, sweep_of_unchanged fun id hid => ?_, by simp [checkCheckpoint, checkpointed]⟩,
    hcode, ?_, (name_of_snapshot hsnapshot :)⟩
  · have hid : id ∈ g.attached := hcode.fewer.attached (List.mem_filter.mp hid).1
    exact edit_of_declines (w := .equality) (hnone.fewer hknown hcode.fewer id
      (hcode.attached_eq ▸ hid) c)
  · obtain ⟨-, -, rfl⟩ | ⟨-, h⟩ := snapshot_eq_ok.mp hsnapshot
    · rfl
    · obtain ⟨-, rfl⟩ := refresh_eq_some.mp h
      rfl

/-- A run lowers exactly the calls that can be lowered, leaves none of them, and a second run finds
nothing to do and changes nothing. -/
theorem lower_equality_complete {stats : Stats} (verify : Bool) (hg : g.Built)
    (hknown : g.mentionsKnown)
    (h : lower p { Config.nothing with equality := true, verify } g = .ok stats g') :
    stats = { equality := (g.comparableCalls p).length } ∧ g'.comparableCalls p = [] ∧
      ∃ g'', lower p { Config.nothing with equality := true, verify } g' = .ok {} g'' ∧
        g'.SameCode g'' ∧ g''.version = g'.version ∧ g''.name = g'.name := by
  obtain ⟨n, m, g₁, g₂, hnone, hbatch, rfl, hg', hverify⟩ := (lower_calls_eq_ok rfl rfl rfl).mp h
  obtain ⟨rfl, rfl⟩ := pure_eq_ok.mp hnone
  obtain ⟨rfl, hg₂, hknown₂, hexhausted₂⟩ := exhausted_batch hg.coherent hknown hbatch
  have hfewer := fewer_updateReachability hg₂.linked
  obtain ⟨hcoherent, hknown', hexhausted⟩ : g'.Coherent ∧ g'.mentionsKnown ∧ g'.Exhausted p := by
    rw [hg']
    split
    · exact ⟨grows_updateReachability.steady hg₂,
        hfewer.mentionsKnown (by rw [vars_updateReachability]) hknown₂,
        hexhausted₂.fewer hknown₂ hfewer⟩
    · exact ⟨hg₂, hknown₂, hexhausted₂⟩
  obtain ⟨g'', hagain, hcode, hversion, hname⟩ := batch_of_exhausted hcoherent hknown' hexhausted
  refine ⟨rfl, hexhausted.comparableCalls, g'', (lower_calls_eq_ok rfl rfl rfl).mpr
    ⟨0, 0, g', g'', rfl, hagain, rfl, rfl, fun hv => hcode.verify.trans (hverify hv)⟩,
    hcode, hversion, hname⟩

/-- Three calls that can be lowered, one of them on a pointer and one in a block that control does not
reach, and a call without a result. -/
def comparedCalls : Graph := (Graph.empty "f").changed
  [.addVar .argument ⟨14⟩, .addVar .argument (.ofScalar .i32), .addVar .local (.ofScalar .bool),
    .addBlock, .append ⟨0⟩ (.call ⟨1⟩ [.var ⟨0⟩, .var ⟨1⟩] (some ⟨2⟩)),
    .append ⟨0⟩ (.call ⟨2⟩ [.var ⟨1⟩, .var ⟨1⟩, .var ⟨1⟩] none),
    .append ⟨0⟩ (.call ⟨3⟩ [.var ⟨1⟩, .var ⟨1⟩, .var ⟨1⟩] (some ⟨2⟩)),
    .append ⟨0⟩ (.ret (some (.var ⟨2⟩))),
    .append ⟨1⟩ (.call ⟨2⟩ [.var ⟨1⟩, .var ⟨1⟩, .var ⟨1⟩] (some ⟨2⟩)), .append ⟨1⟩ (.ret none)]

theorem lower_equality_complete_comparedCalls : ∃ g' g'',
    comparedCalls.comparableCalls wrapperPool = [⟨0⟩, ⟨2⟩, ⟨4⟩] ∧
      lower wrapperPool { Config.nothing with equality := true } comparedCalls =
        .ok { equality := 3 } g' ∧
      g'.attachedWhere OpKind.isCall = [⟨1⟩] ∧ g'.comparableCalls wrapperPool = [] ∧
      lower wrapperPool { Config.nothing with equality := true } g' = .ok {} g'' ∧
      g'.SameCode g'' := by
  have h : (lower wrapperPool { Config.nothing with equality := true }).result? comparedCalls =
      some { equality := 3 } := by decide +kernel
  obtain ⟨-, hnone, g'', hagain, hcode, -⟩ := lower_equality_complete false
    ((Built.empty "f").changed _) (by decide +kernel) (eq_ok_of_result? h)
  exact ⟨_, g'', by decide +kernel, eq_ok_of_result? h, by decide +kernel, hnone, hagain, hcode⟩

end Edit
end ScalarLowering
