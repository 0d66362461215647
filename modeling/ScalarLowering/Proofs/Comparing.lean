import ScalarLowering.Proofs.Idempotence
import ScalarLowering.Proofs.Lockstep
import ScalarLowering.Proofs.Wrappers

/-! An equality call beside the operators that are put for it. From frames that agree on the
variables there were, both write the same answer, or both fail for a reason of the same kind. -/

namespace ScalarLowering

/-- Faults of one kind, whatever they say about the operand. -/
def Fault.alike : Fault → Fault → Bool
  | .nullReference, .nullReference | .indexOutOfRange _ _, .indexOutOfRange _ _ => true
  | .invalidOperand _, .invalidOperand _ | .unsupportedCall _, .unsupportedCall _ => true
  | _, _ => false

theorem Pool.kind_of_instance {p : Pool} {method : Method} {c : Condition}
    (h : p.equalityCondition method = some (some c)) (hinstance : method.kind ≠ .ofType) :
    method.kind = .ofInstance := by
  obtain ⟨name, -, ⟨-, hkind, -⟩ | ⟨-, hkind, -⟩ | ⟨-, hkind, -⟩⟩ := Pool.equalityCondition_spec h
  · exact hkind
  · exact absurd hkind hinstance
  · exact absurd hkind hinstance

namespace Frame

variable {s s' : Frame} {op op' : Operator} {kind : Option Scalar} {c : Condition} {v w : Value}

/-- Both succeed, with the same heap and the same variables as far as the first has them, or both
fail with faults of one kind. -/
inductive Alike : Except Fault Frame → Except Fault Frame → Prop
  | ok {t t' : Frame} : t.Agree (fun _ => False) t' → Alike (.ok t) (.ok t')
  | fault {e e' : Fault} : e.alike e' → Alike (.error e) (.error e')

theorem behind_pointer {l : Location} : s.behind (.pointer l) = liftM (s.read l) := rfl

def judge (s : Frame) (op : Operator) (kind : Option Scalar) (c : Condition) (v w : Value) :
    Except Fault Frame := do
  let equal ← v.compareBy (Scalar.equal kind) w
  s.define op (.ofBool (c.holds equal))

theorem lt_of_read {x : VarId} (h : s.read (.var x) = some v) : x.index < s.vars.size :=
  (Array.getElem?_eq_some_iff.mp h).1

theorem Agree.eval (h : s.Agree (fun _ => False) s') {e : Expr} (he : s.eval e = some v) :
    s'.eval e = some v := by
  cases e with
  | const c => exact he
  | var x => exact (h.var id (lt_of_read he)).trans he

theorem Agree.write_fresh {W : VarId → Prop} {x : VarId} {t' : Frame} (h : s.Agree W s')
    (hx : s.vars.size ≤ x.index) (ht : s'.write (.var x) v = some t') : s.Agree W t' := by
  refine ⟨?_, ?_, fun {y} hy hlt => ?_⟩
  · obtain ⟨-, rfl⟩ := setVar_eq_some.mp ht
    exact h.heap
  · rw [size_write ht]
    exact h.size
  · have hne : Location.var y ≠ .var x := fun heq =>
      Nat.not_lt.mpr hx (Location.var.inj heq ▸ hlt)
    rw [read_write ht, if_neg hne, h.var hy hlt]

theorem Agree.judge (h : s.Agree (fun _ => False) s') (hresult : op'.result? = op.result?)
    (hfound : s.judge op kind c v w ≠ .error .dangling) :
    Alike (s.judge op kind c v w) (s'.judge op' kind c v w) := by
  unfold Frame.judge at hfound ⊢
  cases hcompare : v.compareBy (Scalar.equal kind) w with
  | error e =>
    obtain rfl := Operator.compareBy_eq_error hcompare
    exact .fault rfl
  | ok equal =>
    rw [hcompare] at hfound
    simp only [bind, Except.bind, Operator.define_eq_perform, Operator.into, hresult] at hfound ⊢
    cases ht : s.perform (op.result?.map fun x => (.var x, .ofBool (c.holds equal))) with
    | none => exact absurd (by rw [ht]; rfl) hfound
    | some t =>
      obtain ⟨t', ht', hagree⟩ := h.perform ht
      rw [ht']
      exact .ok hagree

end Frame

namespace Operator

open ScalarLowering.Frame

variable {op : Operator} {p : Pool} {g g' : Graph} {s s' : Frame} {m : MethodId} {method : Method}
  {k : Scalar} {c : Condition} {result this temp : VarId} {unused left right : Expr} {v w : Value}

theorem effect_compare {t : TypeId} (ht : g.typeOf left = some t) (hk : p.scalarOf t = some (some k))
    (hv : s.eval left = some v) (hw : s.eval right = some w) :
    (Operator.compare c result left right).effect p g s =
      s.judge (.compare c result left right) k c v w := by
  have harg₀ : s.arg (.compare c result left right) 0 = .ok v := arg_eq_ok.mpr ⟨left, rfl, hv⟩
  have harg₁ : s.arg (.compare c result left right) 1 = .ok w := arg_eq_ok.mpr ⟨right, rfl, hw⟩
  have hkind : (Operator.compare c result left right).comparedKind p g = some (some k) := by
    simp [comparedKind, compare, ht, hk]
  simp only [effect, compare] at harg₀ harg₁ hkind ⊢
  rw [hkind, harg₀, harg₁]
  rfl

section Calls

variable (hkind : op.kind = .call m) (hm : p.method m = some method)
  (hk : p.scalarOf method.owner = some (some k)) (hc : p.equalityCondition method = some (some c))
include hkind hm hk hc

theorem effect_equality (hstatic : method.kind = .ofType) (hargs : op.args = [unused, left, right])
    (hv : s.eval left = some v) (hw : s.eval right = some w) :
    op.effect p g s = s.judge op k c v w := by
  have harg₁ : s.arg op 1 = .ok v := arg_eq_ok.mpr ⟨left, by simp [hargs], hv⟩
  have harg₂ : s.arg op 2 = .ok w := arg_eq_ok.mpr ⟨right, by simp [hargs], hw⟩
  rw [effect_eq_action, equality_action hkind hm hstatic hc hk, harg₁, harg₂]
  simp only [judge, define_eq_perform, bind_assoc, pure_bind]
  rfl

/-- `Equals` compares what its receiver stands for. -/
theorem effect_equals (hinstance : method.kind ≠ .ofType) (hfloat : k.isFloat = false)
    (hargs : op.args = [.var this, right]) {receiver : Value}
    (hthis : s.read (.var this) = some receiver) (hw : s.eval right = some w) :
    op.effect p g s = (do s.judge op k c (← s.behind receiver) w) := by
  obtain ⟨name, hname, ⟨hof, -, rfl⟩ | ⟨-, hstatic, -⟩ | ⟨-, hstatic, -⟩⟩ :=
    Pool.equalityCondition_spec hc
  rotate_left
  · exact absurd hstatic hinstance
  · exact absurd hstatic hinstance
  have harg₀ : s.arg op 0 = pure receiver := arg_zero (by simp [hargs]) hthis
  have harg₁ : s.arg op 1 = pure w := arg_eq_ok.mpr ⟨right, by simp [hargs], hw⟩
  rw [effect_eq_action, equals_action_eq hkind hm hname hk hof, harg₀, harg₁, Edit.same_eq_equal hfloat]
  simp only [judge, define_eq_perform, bind_assoc, pure_bind]
  rfl

variable (hs : s.Agree (fun _ => False) s') (hresult : op.result? = some result)
  (hfound : op.effect p g s ≠ .error .dangling)
include hs hresult hfound

omit hkind hm hc in
/-- A call that compares two values, and the comparison of operands that have these values. -/
theorem alike_compare (heffect : op.effect p g s = s.judge op k c v w)
    (ht : g'.typeOf left = some method.owner) (hv : s'.eval left = some v)
    (hw : s'.eval right = some w) :
    Alike (op.effect p g s) ((Operator.compare c result left right).effect p g' s') := by
  rw [heffect] at hfound ⊢
  rw [effect_compare ht hk hv hw]
  exact hs.judge hresult.symm hfound

theorem alike_static (hstatic : method.kind = .ofType) (hargs : op.args = [unused, left, right])
    (ht : g'.typeOf left = some method.owner) (hv : s.eval left = some v)
    (hw : s.eval right = some w) :
    Alike (op.effect p g s) ((Operator.compare c result left right).effect p g' s') :=
  alike_compare hk hs hresult hfound (effect_equality hkind hm hk hc hstatic hargs hv hw) ht
    (hs.eval hv) (hs.eval hw)

variable (hinstance : method.kind ≠ .ofType) (hfloat : k.isFloat = false)
  (hargs : op.args = [.var this, right]) (hw : s.eval right = some w) {receiver : Value}
  (hthis : s.read (.var this) = some receiver)
include hinstance hfloat hargs hw hthis

theorem alike_self (hscalar : receiver = .undefined ∨ ∃ word, receiver = .bits word)
    (ht : g'.typeOf (.var this) = some method.owner) :
    Alike (op.effect p g s) ((Operator.compare c result (.var this) right).effect p g' s') := by
  have heffect := effect_equals (g := g) hkind hm hk hc hinstance hfloat hargs hthis hw
  obtain rfl | ⟨word, rfl⟩ := hscalar
  · -- the call finds nothing to point at, the comparison nothing to compare
    rw [heffect, effect_compare ht hk (hs.eval (e := .var this) hthis) (hs.eval hw)]
    have halike : Fault.alike (.invalidOperand (.notPointer .undefined))
        (.invalidOperand .undefinedComparison) := rfl
    exact .fault halike
  · exact alike_compare hk hs hresult hfound heffect ht (hs.eval (e := .var this) hthis) (hs.eval hw)

omit hs hresult in
theorem exists_behind {l : Location} (hl : receiver = .pointer l) :
    ∃ v, s.read l = some v ∧ op.effect p g s = s.judge op k c v w := by
  subst hl
  have heffect := effect_equals (g := g) hkind hm hk hc hinstance hfloat hargs hthis hw
  rw [behind_pointer] at heffect
  cases hv : s.read l with
  | none => exact absurd (by rw [heffect, hv]; rfl) hfound
  | some v => exact ⟨v, rfl, by rw [heffect, hv]; rfl⟩

theorem alike_addressed {x : VarId} (hx : receiver = .pointer (.var x))
    (ht : g'.typeOf (.var x) = some method.owner) :
    Alike (op.effect p g s) ((Operator.compare c result (.var x) right).effect p g' s') := by
  obtain ⟨v, hv, heffect⟩ :=
    exists_behind hkind hm hk hc hfound hinstance hfloat hargs hw hthis hx
  exact alike_compare hk hs hresult hfound heffect ht (hs.eval (e := .var x) hv) (hs.eval hw)

theorem alike_loaded {t : TypeId} {check : Bool}
    (hpointer : receiver = .undefined ∨ receiver = .null ∨ ∃ l, receiver = .pointer l)
    (htemp : s.vars.size ≤ temp.index) (hsize : temp.index < s'.vars.size)
    (ht : g'.typeOf (.var temp) = some method.owner) :
    Alike (op.effect p g s) ((Operator.loadIndirect t temp (.var this) check).effect p g' s' >>=
      (Operator.compare c result (.var temp) right).effect p g') := by
  have heffect := effect_equals (g := g) hkind hm hk hc hinstance hfloat hargs hthis hw
  have hload : (Operator.loadIndirect t temp (.var this) check).effect p g' s' =
      (do s'.setVar temp (← s'.read (← receiver.target))) := by
    have harg : s'.arg (.loadIndirect t temp (.var this) check) 0 = pure receiver :=
      arg_zero rfl (hs.eval (e := .var this) hthis)
    simp only [effect, loadIndirect] at harg ⊢
    rw [harg, pure_bind]
    rfl
  rw [hload]
  obtain rfl | rfl | ⟨l, hl⟩ := hpointer
  · rw [heffect]
    exact .fault (e := .invalidOperand (.notPointer .undefined)) rfl
  · rw [heffect]
    exact .fault (e := .nullReference) rfl
  · obtain ⟨v, hv, hjudge⟩ :=
      exists_behind hkind hm hk hc hfound hinstance hfloat hargs hw hthis hl
    have hv' : s'.read l = some v := by
      rw [hs.read fun x hx => ⟨id, lt_of_read (hx ▸ hv)⟩, hv]
    obtain ⟨u, hu⟩ : ∃ u, s'.write (.var temp) v = some u := ⟨_, setVar_eq_some.mpr ⟨hsize, rfl⟩⟩
    have hagree := hs.write_fresh htemp hu
    have heval : u.eval (.var temp) = some v := (read_write hu _).trans (if_pos rfl)
    have hloaded : (do s'.setVar temp (← s'.read (← receiver.target)) : Except Fault Frame) =
        .ok u := by
      rw [hl]
      change (liftM (s'.read l) >>= fun v => liftM (s'.setVar temp v) : Except Fault Frame) = .ok u
      rw [hv', Fault.lift_some_bind]
      exact Fault.lift_eq_ok.mpr hu
    rw [hloaded]
    exact alike_compare hk hagree hresult hfound hjudge ht heval (hagree.eval hw)

end Calls

end Operator

namespace Graph

open ScalarLowering.Frame

variable {g g' g₁ : Graph} {p : Pool} {c : Chains} {call n : OpId} {op : Operator} {s s' : Frame}
  {e : Expr}

/-- Runs operators one after another, up to the first that fails. -/
def execute (g : Graph) (p : Pool) : List OpId → Frame → Except Fault Frame
  | [], s => .ok s
  | id :: ids, s => do (← g.op id).effect p g s >>= g.execute p ids

theorem execute_cons {ids : List OpId} (hop : g.op n = some op) :
    g.execute p (n :: ids) s = op.effect p g s >>= g.execute p ids := by
  simp only [execute, hop]
  rfl

theorem execute_singleton (hop : g.op n = some op) : g.execute p [n] s = op.effect p g s := by
  rw [execute_cons hop]
  cases op.effect p g s <;> rfl

/-- The receiver of a call holds a value of its type. If it was found to hold the address of an
operand, that operand is a variable, and its address is what the receiver holds. -/
structure ReceiverHolds (g : Graph) (p : Pool) (c : Chains) (call : OpId) (this : VarId) (s : Frame) :
    Prop where
  admits : ∀ {kind v}, g.kindOf p this = some kind → s.read (.var this) = some v → kind.admits v
  addressed : ∀ {e}, g.isScalarExpr p (.var this) = some false →
    g.sourceOf p c call this = .ok (.value e) →
      ∃ x, e = .var x ∧ s.read (.var this) = some (.pointer (.var x))

theorem ReceiverHolds.scalar {this : VarId} {v : Value} (h : g.ReceiverHolds p c call this s)
    (hscalar : g.isScalarExpr p (.var this) = some true) (hv : s.read (.var this) = some v) :
    v = .undefined ∨ ∃ word, v = .bits word := by
  obtain ⟨k, hk⟩ := isScalarExpr_iff_kindOf.mp hscalar
  have hadmits := h.admits hk hv
  cases v <;> simp [TypeKind.admits] at hadmits ⊢

theorem ReceiverHolds.pointer {this : VarId} {v : Value} {u : TypeId}
    (h : g.ReceiverHolds p c call this s) (hpointee : g.pointeeOf p (.var this) = some u)
    (hv : s.read (.var this) = some v) :
    v = .undefined ∨ v = .null ∨ ∃ l, v = .pointer l := by
  have hadmits := h.admits (kindOf_of_pointee hpointee) hv
  cases v <;> simp [TypeKind.admits] at hadmits ⊢

theorem exists_eval (hsize : s.vars.size = g.vars.size) (he : g.isScalarExpr p e = some true) :
    ∃ v, s.eval e = some v := by
  obtain ⟨t, ht, -⟩ := isScalarExpr_eq_some.mp he
  cases e with
  | const c => exact ⟨_, rfl⟩
  | var x =>
    obtain ⟨info, hinfo, -⟩ := Option.map_eq_some_iff.mp ht
    obtain ⟨hx, -⟩ := Array.getElem?_eq_some_iff.mp hinfo
    exact ⟨_, Array.getElem?_eq_getElem (hsize ▸ hx)⟩

theorem exists_read {this : VarId} {info : Variable} (hsize : s.vars.size = g.vars.size)
    (hinfo : g.var this = some info) : ∃ v, s.read (.var this) = some v := by
  obtain ⟨hx, -⟩ := Array.getElem?_eq_some_iff.mp hinfo
  exact ⟨_, Array.getElem?_eq_getElem (hsize ▸ hx)⟩

def Puts (g g' : Graph) (old : OpId) (ids : List OpId) : Prop :=
  ∀ b, g'.block b = (g.block b).map fun block =>
    { block with ops := block.ops.flatMap (splice old ids) }

theorem Puts.inserted {old n m : OpId} (h : g.Puts g₁ old [n, old]) (h' : g₁.Puts g' old [m])
    (hne : n ≠ old) : g.Puts g' old [n, m] := by
  intro b
  rw [h' b, h b, Option.map_map]
  congr 1
  funext block
  simp only [Function.comp, Block.mk.injEq, List.flatMap_assoc, and_true]
  congr 1
  funext id
  by_cases hid : id = old
  · simp [hid, splice_of_ne _ hne]
  · simp [splice_of_ne _ hid]

section Operands

variable {m : MethodId} {method : Method} {k : Scalar} {condition : Condition}
  {result temp : VarId} {right : Expr}
  (hkind : op.kind = .call m) (hm : p.method m = some method)
  (hk : p.scalarOf method.owner = some (some k))
  (hcondition : p.equalityCondition method = some (some condition))
  (hresult : op.result? = some result) (hsize : s.vars.size = g.vars.size)
  (hagree : s.Agree (fun _ => False) s')
  (hreceiver : ∀ this, method.kind = .ofInstance → op.args.head? = some (.var this) →
    g.ReceiverHolds p c call this s)
  (hfound : op.effect p g s ≠ .error .dangling)
include hkind hm hk hcondition hresult hsize hagree hreceiver hfound

theorem alike_of_value
    (hoperands : method.kind = .ofType ∧ g.staticOperands p call op = .ok (some (.value e, right)) ∨
      method.kind ≠ .ofType ∧
        g.instanceOperands p c call op method.owner = .ok (some (.value e, right)))
    (ht : g'.typeOf e = some method.owner) :
    Alike (op.effect p g s) ((Operator.compare condition result e right).effect p g' s') := by
  obtain ⟨hstatic, hoperands⟩ | ⟨hinstance, hoperands⟩ := hoperands
  · obtain ⟨unused, e', hargs, heq, hleft, hright⟩ := staticOperands_spec hoperands
    obtain rfl := Source.value.inj heq
    obtain ⟨v, hv⟩ := exists_eval hsize hleft
    obtain ⟨w, hw⟩ := exists_eval hsize hright
    exact Operator.alike_static hkind hm hk hcondition hagree hresult hfound hstatic hargs ht hv hw
  · obtain ⟨this, kind, hargs, hright, hkindOf, hfloat, hsource⟩ := instanceOperands_spec hoperands
    obtain rfl := Option.some.inj (hkindOf.symm.trans hk)
    have hholds := hreceiver this (Pool.kind_of_instance hcondition hinstance) (by simp [hargs])
    obtain ⟨w, hw⟩ := exists_eval hsize hright
    obtain ⟨info, hinfo, hcase⟩ := sourceOf_spec hsource
    have htype : g.typeOf (.var this) = some info.type := by simp [typeOf, hinfo]
    obtain ⟨receiver, hthis⟩ := exists_read hsize hinfo
    obtain ⟨hscalar, heq⟩ | ⟨t, hscalar, -, ⟨-, -, -, -⟩ | heq⟩ := hcase
    · obtain rfl := Source.value.inj heq
      exact Operator.alike_self hkind hm hk hcondition hagree hresult hfound hinstance
        (by simpa using hfloat) hargs hw hthis
        (hholds.scalar (isScalarExpr_eq_some.mpr ⟨_, htype, hscalar⟩) hthis) ht
    · obtain ⟨x, rfl, hx⟩ := hholds.addressed (isScalarExpr_eq_some.mpr ⟨_, htype, hscalar⟩) hsource
      exact Operator.alike_addressed hkind hm hk hcondition hagree hresult hfound hinstance
        (by simpa using hfloat) hargs hw hx rfl ht
    · cases heq

theorem alike_of_behind {pointer : VarId} {t : TypeId} {check : Bool}
    (hoperands : method.kind = .ofType ∧
        g.staticOperands p call op = .ok (some (.behind pointer t, right)) ∨
      method.kind ≠ .ofType ∧
        g.instanceOperands p c call op method.owner = .ok (some (.behind pointer t, right)))
    (htemp : g.vars.size ≤ temp.index) (hsize' : temp.index < s'.vars.size)
    (ht : g'.typeOf (.var temp) = some method.owner) :
    Alike (op.effect p g s) ((Operator.loadIndirect t temp (.var pointer) check).effect p g' s' >>=
      (Operator.compare condition result (.var temp) right).effect p g') := by
  obtain ⟨-, hoperands⟩ | ⟨hinstance, hoperands⟩ := hoperands
  · obtain ⟨unused, e', -, heq, -⟩ := staticOperands_spec hoperands
    cases heq
  · obtain ⟨this, kind, hargs, hright, hkindOf, hfloat, hsource⟩ := instanceOperands_spec hoperands
    obtain rfl := Option.some.inj (hkindOf.symm.trans hk)
    have hholds := hreceiver this (Pool.kind_of_instance hcondition hinstance) (by simp [hargs])
    obtain ⟨w, hw⟩ := exists_eval hsize hright
    obtain ⟨info, hinfo, ⟨-, heq⟩ | ⟨t', -, hpointee, ⟨_, _, _, heq⟩ | heq⟩⟩ := sourceOf_spec hsource
    · cases heq
    · cases heq
    · cases heq
      obtain ⟨receiver, hthis⟩ := exists_read hsize hinfo
      have hpointee : g.pointeeOf p (.var pointer) = some t := by
        simp [pointeeOf, typeOf, hinfo, hpointee]
      exact Operator.alike_loaded hkind hm hk hcondition hagree hresult hfound hinstance
        (by simpa using hfloat) hargs hw hthis (hholds.pointer hpointee hthis) (hsize ▸ htemp) hsize' ht

end Operands

end Graph

namespace Edit

open ScalarLowering.Graph ScalarLowering.Frame

variable {g g' : Graph} {p : Pool} {c : Chains} {call : OpId} {op : Operator} {m : MethodId}
  {method : Method}

theorem fetch_substitute_spec {g₁ g₂ : Graph} {new : Operator} {check : Bool} {left : Expr}
    {pointer : VarId} {t : TypeId} {n : OpId} (hg : g.Linked)
    (hfetch : fetch call check (.behind pointer t) g = .ok left g₁)
    (hsubstitute : substitute call new .keep g₁ = .ok n g₂) :
    left = .var ⟨g.vars.size⟩ ∧ ∃ load loaded put, g.Puts g₂ call ([load] ++ [n]) ∧
      g₂.op load = some loaded ∧
      loaded.code = (Operator.loadIndirect t ⟨g.vars.size⟩ (.var pointer) check).code ∧
      g₂.op n = some put ∧ put.code = new.code ∧ g₂.vars.size = g.vars.size + 1 := by
  have hg₂ : g₁.Linked := ((grows_fetch call check (.behind pointer t)).ok hfetch hg).1
  obtain ⟨hleft, load, new, hnew, hinsert⟩ := fetch_behind_spec hfetch
  have hg₁ : (g.addVar .temporary t).2.Linked := (grows_addVar .temporary t hg).1
  obtain ⟨hs₁, hid, hcode₁⟩ := insertBefore_spec hg₁ hinsert
  obtain ⟨hs₂, -, hcode₂⟩ := substitute_spec hg₂ hsubstitute
  obtain ⟨loaded, hload, hcode₁⟩ := exists_of_code hcode₁
  obtain ⟨put, hput, hcode₂⟩ := exists_of_code hcode₂
  have hne : load ≠ call := by
    rintro rfl
    exact notMem_attached_size hg₁ (hid ▸ hs₁.attached)
  refine ⟨hleft, load, loaded, put, Puts.inserted hs₁.block hs₂.block hne, ?_, hcode₁.trans hnew,
    hput, hcode₂, by simp [hs₂.vars, hs₁.vars, addVar]⟩
  rw [hs₂.op (.inl hne) (Array.getElem?_eq_some_iff.mp hload).1, hload]

/-- A lowered equality call does what the call did. Let the operand that is compared have the type
of the wrapper. Then from frames that agree on the variables there were, in which the receiver of an
instance call holds what it can hold, the call and the operators that were put for it, a load at most
and a comparison, both succeed and leave the same heap and the same values of these variables, or
both fail with a fault of the same kind, as long as the call looks up nothing that does not exist. -/
theorem execute_lowerEquality (hg : g.Built) (hop : g.op call = some op) (hkind : op.kind = .call m)
    (hm : p.method m = some method) (h : lowerEquality p c call g = .ok true g') :
    ∃ loads n cmp condition left right, g.Puts g' call (loads ++ [n]) ∧
      (loads = [] ∨ ∃ id load t, loads = [id] ∧ g'.op id = some load ∧ load.kind = .loadIndirect t) ∧
      g'.op n = some cmp ∧ cmp.kind = .compare condition ∧ cmp.args = [left, right] ∧
      (g'.typeOf left = some method.owner → ∀ {s s' : Frame}, s.vars.size = g.vars.size →
        s'.vars.size = g'.vars.size → s.Agree (fun _ => False) s' →
        (∀ this, method.kind = .ofInstance → op.args.head? = some (.var this) →
          g.ReceiverHolds p c call this s) →
        g.execute p [call] s ≠ .error .dangling →
        Alike (g.execute p [call] s) (g'.execute p (loads ++ [n]) s')) := by
  have hlinked := hg.coherent.linked
  obtain ⟨found, hfound, h⟩ := query_bind_eq_ok.mp h
  cases found with
  | none => cases (pure_eq_ok.mp h).1
  | some cmp =>
  obtain ⟨condition, result, source, right⟩ := cmp
  obtain ⟨check, -, h⟩ := query_bind_eq_ok.mp h
  obtain ⟨left, g₁, hfetch, h⟩ := bind_eq_ok.mp h
  obtain ⟨n, g₂, hsubstitute, h⟩ := bind_eq_ok.mp h
  obtain ⟨-, rfl⟩ := pure_eq_ok.mp h
  obtain ⟨op', m', method', hop', hkind', hm', hscalar, hcondition, hresult, hoperands⟩ :=
    equalityComparison_spec hfound
  obtain rfl := Option.some.inj (hop.symm.trans hop')
  obtain rfl := OpKind.call.inj (hkind.symm.trans hkind')
  obtain rfl := Option.some.inj (hm.symm.trans hm')
  obtain ⟨k, hk⟩ := Pool.exists_scalarOf hscalar
  cases source with
  | value e =>
    obtain ⟨rfl, rfl⟩ := pure_eq_ok.mp hfetch
    obtain ⟨hs, -, hcode⟩ := substitute_spec hlinked hsubstitute
    obtain ⟨put, hput, hcode⟩ := exists_of_code hcode
    obtain ⟨hputKind, hputArgs, -⟩ := Operator.code_eq.mp hcode
    refine ⟨[], n, put, condition, e, right, hs.block, .inl rfl, hput, hputKind, hputArgs,
      fun ht s s' hsize _ hagree hreceiver hfound => ?_⟩
    rw [execute_singleton hop] at hfound ⊢
    rw [List.nil_append, execute_singleton hput, effect_of_code hcode]
    exact alike_of_value hkind hm hk hcondition hresult hsize hagree hreceiver hfound hoperands ht
  | behind pointer t =>
    obtain ⟨rfl, load, loaded, put, hputs, hload, hloaded, hput, hcode, hvars⟩ :=
      fetch_substitute_spec hlinked hfetch hsubstitute
    obtain ⟨hputKind, hputArgs, -⟩ := Operator.code_eq.mp hcode
    refine ⟨[load], n, put, condition, .var ⟨g.vars.size⟩, right, hputs,
      .inr ⟨load, loaded, t, rfl, hload, (Operator.code_eq.mp hloaded).1⟩, hput, hputKind,
      hputArgs, fun ht s s' hsize hsize' hagree hreceiver hfound => ?_⟩
    have hsteps : g₂.execute p ([load] ++ [n]) s' =
        (Operator.loadIndirect t ⟨g.vars.size⟩ (.var pointer) check).effect p g₂ s' >>=
          (Operator.compare condition result (.var ⟨g.vars.size⟩) right).effect p g₂ := by
      rw [List.singleton_append, execute_cons hload, effect_of_code hloaded]
      congr 1
      funext u
      rw [execute_singleton hput, effect_of_code hcode]
    rw [hsteps]
    rw [execute_singleton hop] at hfound ⊢
    exact alike_of_behind hkind hm hk hcondition hresult hsize hagree hreceiver hfound hoperands
      (Nat.le_refl _) (by simp [hsize', hvars]) ht

/-- The wrapper behind a pointer is compared with a constant. -/
def comparedBehind : Graph := (Graph.empty "f").changed
  [.addVar .argument ⟨14⟩, .addVar .local (.ofScalar .bool),
    .append ⟨0⟩ (.call ⟨1⟩ [.var ⟨0⟩, .const (.int (.ofScalar .i32) 5)] (some ⟨1⟩))]

def pointing (vars : List Value) : Frame :=
  ⟨(.pointer (.static ⟨9⟩) :: vars).toArray, Heap.empty.setStatic ⟨9⟩ (.bits 5)⟩

theorem execute_lowerEquality_comparedBehind : ∃ c g',
    lowerEquality wrapperPool c ⟨0⟩ comparedBehind = .ok true g' ∧
      comparedBehind.execute wrapperPool [⟨0⟩] (pointing [.undefined]) = .ok (pointing [.bits 1]) ∧
      Alike (.ok (pointing [.bits 1]))
        (g'.execute wrapperPool [⟨1⟩, ⟨2⟩] (pointing [.undefined, .bits 8])) := by
  let c : Chains := ⟨0, 0, #[], #[]⟩
  have h := eq_ok_of_result? (by decide +kernel :
    (lowerEquality wrapperPool c ⟨0⟩).result? comparedBehind = some true)
  obtain ⟨op, hop⟩ := Option.isSome_iff_exists.mp
    (by decide +kernel : (comparedBehind.op ⟨0⟩).isSome)
  obtain ⟨method, hm⟩ := Option.isSome_iff_exists.mp
    (by decide +kernel : (wrapperPool.method ⟨1⟩).isSome)
  have hkind : (comparedBehind.op ⟨0⟩).map (·.kind) = some (.call ⟨1⟩) := by decide +kernel
  have howner : (wrapperPool.method ⟨1⟩).map (·.owner) = some (.ofScalar .i32) := by decide +kernel
  rw [hop, Option.map_some, Option.some.injEq] at hkind
  rw [hm, Option.map_some, Option.some.injEq] at howner
  have hbuilt : comparedBehind.Built := (Built.empty "f").changed _
  obtain ⟨loads, n, cmp, condition, left, right, hputs, -, hcmp, -, hargs, halike⟩ :=
    execute_lowerEquality hbuilt hop hkind hm h
  have hids : loads ++ [n] = [⟨1⟩] ++ [⟨2⟩] := by
    have hblock : ((lowerEquality wrapperPool c ⟨0⟩).after comparedBehind).block ⟨0⟩ =
        some { ops := [⟨1⟩, ⟨2⟩] } := by decide +kernel
    have hold : comparedBehind.block ⟨0⟩ = some { ops := [⟨0⟩] } := by decide +kernel
    have hputs := hputs ⟨0⟩
    rw [hblock, hold] at hputs
    simpa using hputs.symm
  obtain ⟨rfl, hn⟩ := List.append_inj' hids rfl
  obtain rfl : n = ⟨2⟩ := by simpa using hn
  have hleft : ((lowerEquality wrapperPool c ⟨0⟩).after comparedBehind).typeOf left =
      some method.owner := by
    have hcompared : (((lowerEquality wrapperPool c ⟨0⟩).after comparedBehind).op ⟨2⟩).map
        (·.args.head?) = some (some (.var ⟨2⟩)) := by decide +kernel
    rw [hcmp, Option.map_some, hargs, List.head?_cons] at hcompared
    obtain rfl : left = .var ⟨2⟩ := by simpa using hcompared
    rw [howner]
    decide +kernel
  have hagree : (pointing [.undefined]).Agree (fun _ => False) (pointing [.undefined, .bits 8]) := by
    refine ⟨rfl, by decide, fun {x} _ hx => ?_⟩
    obtain ⟨_ | _ | i⟩ := x
    · rfl
    · rfl
    · exact absurd hx (Nat.not_lt.mpr (Nat.le_add_left 2 i))
  have hholds : comparedBehind.ReceiverHolds wrapperPool c ⟨0⟩ ⟨0⟩ (pointing [.undefined]) := by
    have hkindOf : comparedBehind.kindOf wrapperPool ⟨0⟩ = some (.pointer (.ofScalar .i32)) := by
      decide +kernel
    have hsource : comparedBehind.sourceOf wrapperPool c ⟨0⟩ ⟨0⟩ =
        .ok (.behind ⟨0⟩ (.ofScalar .i32)) := by decide +kernel
    refine ⟨fun hk hv => ?_, fun _ he => ?_⟩
    · cases hkindOf.symm.trans hk
      cases hv
      rfl
    · cases hsource.symm.trans he
  have hthis : (comparedBehind.op ⟨0⟩).map (·.args.head?) = some (some (.var ⟨0⟩)) := by
    decide +kernel
  rw [hop, Option.map_some, Option.some.injEq] at hthis
  have hcall : comparedBehind.execute wrapperPool [⟨0⟩] (pointing [.undefined]) =
      .ok (pointing [.bits 1]) := by decide +kernel
  have halike := halike hleft (by decide +kernel) (by decide +kernel) hagree
    (fun this _ hhead => by cases hthis.symm.trans hhead; exact hholds) (by simp [hcall])
  rw [hcall] at halike
  exact ⟨c, _, h, hcall, halike⟩

/-- A pointer that is compared before a constant, which has no address, is put into it. -/
def addressedConstant : Graph := (Graph.empty "f").changed
  [.addVar .local ⟨14⟩, .addVar .local (.ofScalar .bool), .addBlock,
    .append ⟨0⟩ (.call ⟨1⟩ [.var ⟨0⟩, .const (.int (.ofScalar .i32) 5)] (some ⟨1⟩)),
    .append ⟨1⟩ { kind := .addressOf, args := [.const (.int (.ofScalar .i32) 5)], results := [⟨0⟩] }]

/-- The constant is compared in place of the pointer, and where the call fails the comparison does
not. -/
theorem execute_addressedConstant : ∃ c g g' n, snapshot addressedConstant = .ok c g ∧
    lowerEquality wrapperPool c ⟨0⟩ g = .ok true g' ∧ g'.attached = [n, ⟨1⟩] ∧
    (g'.op n).map (·.code) = some (Operator.compare .eq ⟨1⟩ (.const (.int (.ofScalar .i32) 5))
      (.const (.int (.ofScalar .i32) 5))).code ∧
    g.kindOf wrapperPool ⟨0⟩ = some (.pointer (.ofScalar .i32)) ∧
    g.execute wrapperPool [⟨0⟩] ⟨#[.undefined, .undefined], .empty⟩ =
      .error (.invalidOperand (.notPointer .undefined)) ∧
    g'.execute wrapperPool [n] ⟨#[.undefined, .undefined], .empty⟩ =
      .ok ⟨#[.undefined, .bits 1], .empty⟩ := by
  have hc : snapshot.result? addressedConstant = some (addressedConstant.scan 1) := by
    decide +kernel
  have h : (lowerEquality wrapperPool (addressedConstant.scan 1) ⟨0⟩).result?
      (snapshot.after addressedConstant) = some true := by decide +kernel
  exact ⟨_, _, _, ⟨2⟩, eq_ok_of_result? hc, eq_ok_of_result? h, by decide +kernel, by decide +kernel,
    by decide +kernel, by decide +kernel, by decide +kernel⟩

end Edit
end ScalarLowering
