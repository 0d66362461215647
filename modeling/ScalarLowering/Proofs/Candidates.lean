import ScalarLowering.Proofs.Batches
import ScalarLowering.Proofs.Sources

/-! The wrapper operations that a run looks for, told from the graph alone. In a graph whose
operators are well formed each decision of the lowering finds something to do exactly at these,
whatever snapshot it works with. -/

namespace ScalarLowering

theorem Error.lift_some {α : Type} (x : α) : (liftM (some x) : Except Error α) = pure x := rfl

/-- The uses of a wrapper, in the order in which a run goes through them. -/
inductive WrapperUse
  | constructor
  | equality
  | load
  | address

def Pool.wrapperArity (p : Pool) (method : Method) : Option Nat :=
  if p.isScalar method.owner ≠ some true then none
  else if method.kind = .ctor then some 2
  else if (p.equalityCondition method).join.isNone then none
  else some (if method.kind = .ofType then 3 else 2)

namespace Operator

def isConstructor (op : Operator) (p : Pool) : Bool :=
  match op.kind with
  | .call m => (p.method m).any fun method =>
      method.kind = .ctor && p.isScalar method.owner = some true
  | _ => false

/-- The pool knows what the operator names and the types of its arguments, and a wrapper method is
called with as many arguments as it takes. -/
def resolved (op : Operator) (p : Pool) (g : Graph) : Bool :=
  !op.usesReceiver || (op.args.all fun e => ((g.typeOf e).bind p.kind).isSome) &&
    match op.kind with
    | .call m => (p.method m).any fun method => (p.kind method.owner).isSome &&
        (p.name method.name).isSome && (p.wrapperArity method).all (op.args.length = ·)
    | .loadField f | .loadFieldAddress f => (p.isValueField f).isSome
    | _ => true

end Operator

namespace Graph

/-- The variable is no argument, and its only definition takes the address of a local of that
type. -/
def HoldsLocal (g : Graph) (v : VarId) (t : TypeId) : Prop :=
  (∃ info, g.var v = some info ∧ info.isArgument = false) ∧ ∃ d source x info,
    g.definers v = [d] ∧ g.op d = some source ∧ source.kind = .addressOf ∧
      source.args.head? = some (.var x) ∧ g.var x = some info ∧ info.isArgument = false ∧
      info.type = t

/-- The operator is a use of a wrapper that can be lowered. -/
def Lowerable (g : Graph) (p : Pool) (id : OpId) (op : Operator) : WrapperUse → Prop
  | .constructor => ∃ m method this value t, op.kind = .call m ∧ p.method m = some method ∧
      method.kind = .ctor ∧ p.isScalar method.owner = some true ∧ op.args = [.var this, value] ∧
      g.typeOf value = some t ∧ p.accepts method.owner t = some true ∧
      g.HoldsLocal this method.owner
  | .equality => ∃ m method condition result, op.kind = .call m ∧ p.method m = some method ∧
      p.isScalar method.owner = some true ∧ p.equalityCondition method = some (some condition) ∧
      op.result? = some result ∧
      (method.kind = .ofType ∧ (∃ unused left right, op.args = [unused, left, right] ∧
          g.isScalarExpr p left = some true ∧ g.isScalarExpr p right = some true) ∨
        method.kind ≠ .ofType ∧ ∃ this right kind, op.args = [.var this, right] ∧
          g.isScalarExpr p right = some true ∧ p.scalarOf method.owner = some kind ∧
          kind.any Scalar.isFloat = false)
  | .load => ∃ f receiver result, op.kind = .loadField f ∧ p.isValueField f = some true ∧
      op.args = [.var receiver] ∧ g.Wraps p receiver ∧ op.result? = some result ∧
      g.definers result = [id]
  | .address => ∃ f receiver result, op.kind = .loadFieldAddress f ∧
      p.isValueField f = some true ∧ op.args = [receiver] ∧
      (g.isScalarExpr p receiver = some true ∧ (∃ x, receiver = .var x) ∨
        ∃ u, g.pointeeOf p receiver = some u) ∧
      op.result? = some result ∧ g.definers result = [id]

variable {g g' : Graph} {p : Pool} {c : Chains} {id : OpId} {op op' : Operator} {w : WrapperUse}

theorem Lowerable.usesReceiver (h : g.Lowerable p id op w) : op.usesReceiver := by
  cases w with
  | constructor =>
    obtain ⟨m, -, -, -, -, hkind, -⟩ := h
    simp [Operator.usesReceiver, hkind]
  | equality =>
    obtain ⟨m, -, -, -, hkind, -⟩ := h
    simp [Operator.usesReceiver, hkind]
  | load =>
    obtain ⟨f, -, -, hkind, -⟩ := h
    simp [Operator.usesReceiver, hkind]
  | address =>
    obtain ⟨f, -, -, hkind, -⟩ := h
    simp [Operator.usesReceiver, hkind]

theorem Lowerable.isConstructor_or (h : g.Lowerable p id op w) :
    op.isConstructor p ∨ ∃ x, op.result? = some x := by
  cases w with
  | constructor =>
    obtain ⟨m, method, -, -, -, hkind, hm, hctor, howner, -⟩ := h
    exact .inl (by simp [Operator.isConstructor, hkind, hm, hctor, howner])
  | equality =>
    obtain ⟨-, -, -, result, -, -, -, -, hresult, -⟩ := h
    exact .inr ⟨result, hresult⟩
  | load =>
    obtain ⟨-, -, result, -, -, -, -, hresult, -⟩ := h
    exact .inr ⟨result, hresult⟩
  | address =>
    obtain ⟨-, -, result, -, -, -, -, hresult, -⟩ := h
    exact .inr ⟨result, hresult⟩

def Pending (g : Graph) (p : Pool) (w : WrapperUse) (id : OpId) : Prop :=
  ∃ op, id ∈ g.attached ∧ g.op id = some op ∧ g.Lowerable p id op w ∧
    ∀ x ∈ op.results, g.readers x ≠ []

/-- What can be lowered could be lowered before, if its operands had the same types and what is
asked about definitions was so before. -/
theorem Lowerable.of_types {f : Expr → Expr} (h : g'.Lowerable p id op' w)
    (hkind : op'.kind = op.kind) (hargs : op'.args = op.args.map f)
    (htype : ∀ e ∈ op.args, g'.typeOf (f e) = g.typeOf e)
    (hvar : ∀ e ∈ op.args, ∀ y, f e = .var y → ∃ x, e = .var x)
    (hresult : ∀ x, op'.result? = some x → op.result? = some x)
    (hholds : ∀ {this value owner}, op.isConstructor p → op'.args = [.var this, value] →
      g'.HoldsLocal this owner → op.args.head? = some (.var this) ∧ g.HoldsLocal this owner)
    (hdefs : ∀ x, op'.result? = some x → g'.definers x = [id] → g.definers x = [id]) :
    g.Lowerable p id op w := by
  have hscalar : ∀ e ∈ op.args, g'.isScalarExpr p (f e) = g.isScalarExpr p e :=
    fun e he => isScalarExpr_congr (htype e he)
  have hpointee : ∀ e ∈ op.args, g'.pointeeOf p (f e) = g.pointeeOf p e :=
    fun e he => pointeeOf_congr (htype e he)
  cases w with
  | constructor =>
    obtain ⟨m, method, this, value, t, hcall, hm, hctor, howner, hargs', ht, haccepts, hlocal⟩ := h
    rw [hkind] at hcall
    obtain ⟨hhead, hlocal⟩ := hholds
      (by simp [Operator.isConstructor, hcall, hm, hctor, howner]) hargs' hlocal
    obtain ⟨a, b, hab, ha, rfl⟩ : ∃ a b, op.args = [a, b] ∧ f a = .var this ∧ f b = value := by
      simpa [hargs, List.map_eq_cons_iff, and_assoc] using hargs'
    obtain rfl : a = .var this := by simpa [hab] using hhead
    exact ⟨m, method, this, b, t, hcall, hm, hctor, howner, hab, htype b (by simp [hab]) ▸ ht,
      haccepts, hlocal⟩
  | equality =>
    obtain ⟨m, method, condition, result, hcall, hm, howner, hcondition, hres, hcase⟩ := h
    refine ⟨m, method, condition, result, hkind ▸ hcall, hm, howner, hcondition, hresult _ hres,
      hcase.imp ?_ ?_⟩
    · rintro ⟨hstatic, unused, left, right, hargs', hleft, hright⟩
      obtain ⟨a, b, d, habd, -, rfl, rfl⟩ :
          ∃ a b d, op.args = [a, b, d] ∧ f a = unused ∧ f b = left ∧ f d = right := by
        simpa [hargs, List.map_eq_cons_iff, and_assoc] using hargs'
      exact ⟨hstatic, a, b, d, habd, hscalar b (by simp [habd]) ▸ hleft,
        hscalar d (by simp [habd]) ▸ hright⟩
    · rintro ⟨hstatic, this, right, kind, hargs', hright, hkinds, hfloat⟩
      obtain ⟨a, b, hab, ha, rfl⟩ : ∃ a b, op.args = [a, b] ∧ f a = .var this ∧ f b = right := by
        simpa [hargs, List.map_eq_cons_iff, and_assoc] using hargs'
      obtain ⟨x, rfl⟩ := hvar a (by simp [hab]) this ha
      exact ⟨hstatic, x, b, kind, hab, hscalar b (by simp [hab]) ▸ hright, hkinds, hfloat⟩
  | load =>
    obtain ⟨field, receiver, result, hload, hvalue, hargs', hwraps, hres, halone⟩ := h
    obtain ⟨a, hab, ha⟩ : ∃ a, op.args = [a] ∧ f a = .var receiver := by
      simpa [hargs, List.map_eq_cons_iff] using hargs'
    have hmem : a ∈ op.args := by simp [hab]
    obtain ⟨x, rfl⟩ := hvar a hmem receiver ha
    refine ⟨field, x, result, hkind ▸ hload, hvalue, hab, ?_, hresult _ hres, hdefs _ hres halone⟩
    rw [Wraps, ← hscalar _ hmem, ← hpointee _ hmem, ha]
    exact hwraps
  | address =>
    obtain ⟨field, receiver, result, haddress, hvalue, hargs', hcase, hres, halone⟩ := h
    obtain ⟨a, hab, rfl⟩ : ∃ a, op.args = [a] ∧ f a = receiver := by
      simpa [hargs, List.map_eq_cons_iff] using hargs'
    have hmem : a ∈ op.args := by simp [hab]
    refine ⟨field, a, result, hkind ▸ haddress, hvalue, hab, ?_, hresult _ hres, hdefs _ hres halone⟩
    rw [← hscalar _ hmem, ← hpointee _ hmem]
    refine hcase.imp_left ?_
    rintro ⟨hs, y, hy⟩
    exact ⟨hs, hvar a hmem y hy⟩

end Graph

namespace Pool

variable {p : Pool} {t : TypeId} {k : TypeKind}

theorem isScalar_of_kind (h : p.kind t = some k) : p.isScalar t = some k.scalar?.isSome := by
  simp [isScalar, scalarOf, h]

theorem pointee_of_kind (h : p.kind t = some k) : p.pointee t = some k.pointee? := by
  simp [pointee, h]

theorem exists_accepts (h : p.kind t = some k) (slot : TypeId) : ∃ b, p.accepts slot t = some b := by
  unfold accepts
  split
  · exact ⟨true, rfl⟩
  · split
    · exact ⟨k.isReference, by simp [isReference, h]⟩
    · exact ⟨false, rfl⟩

end Pool

namespace Operator

variable {op : Operator} {p : Pool} {g : Graph}

theorem exists_kind_of_resolved (h : op.resolved p g) (huses : op.usesReceiver) {e : Expr}
    (he : e ∈ op.args) : ∃ t k, g.typeOf e = some t ∧ p.kind t = some k := by
  simp only [resolved, huses, Bool.not_true, Bool.false_or, Bool.and_eq_true, List.all_eq_true,
    Option.isSome_iff_exists, Option.bind_eq_some_iff] at h
  obtain ⟨k, t, ht, hk⟩ := h.1 e he
  exact ⟨t, k, ht, hk⟩

theorem exists_method_of_resolved {m : MethodId} (h : op.resolved p g) (hkind : op.kind = .call m) :
    ∃ method k condition, p.method m = some method ∧ p.kind method.owner = some k ∧
      p.equalityCondition method = some condition ∧
      ∀ n, p.wrapperArity method = some n → op.args.length = n := by
  simp only [resolved, usesReceiver, hkind, Bool.not_true, Bool.false_or, Bool.and_eq_true,
    Option.any_eq_true, Option.isSome_iff_exists, Option.all_eq_true, decide_eq_true_eq] at h
  obtain ⟨-, method, hm, ⟨⟨k, hk⟩, name, hname⟩, harity⟩ := h
  refine ⟨method, k, ?_⟩
  cases hof : WrapperMethod.of? method.kind name with
  | none => exact ⟨none, hm, hk, by simp [Pool.equalityCondition, hname, hof], harity⟩
  | some w =>
    cases w <;> exact ⟨_, hm, hk, by simp [Pool.equalityCondition, hname, hof]; rfl, harity⟩

theorem exists_field_of_resolved {f : FieldId} (h : op.resolved p g)
    (hkind : op.kind = .loadField f ∨ op.kind = .loadFieldAddress f) :
    ∃ b, p.isValueField f = some b := by
  obtain hkind | hkind := hkind <;>
    simp only [resolved, usesReceiver, hkind, Bool.not_true, Bool.false_or, Bool.and_eq_true,
      Option.isSome_iff_exists] at h <;> exact h.2

end Operator

namespace Graph

variable {g : Graph} {p : Pool} {c : Chains} {id : OpId} {op : Operator} {v : VarId}

theorem Ready.defCount_eq (hc : Ready c g) (hv : v ∈ g.mentioned) :
    g.defCount c v = pure (.ofList (g.definers v)) := by
  obtain ⟨⟨ids, hids⟩, -⟩ := hc.answerable v hv
  rw [defCount, hids, hc.tracks.attachedDefs hids]
  rfl

theorem Ready.definesAlone_eq (hc : Ready c g) (id : OpId) (hv : v ∈ g.mentioned) :
    g.definesAlone c id v = pure (decide (g.definers v = [id])) := by
  rw [definesAlone, hc.defCount_eq hv]
  simp only [← ofList_eq_one]
  rfl

theorem isScalarExpr_of_kind {e : Expr} {t : TypeId} {k : TypeKind} (ht : g.typeOf e = some t)
    (hk : p.kind t = some k) : g.isScalarExpr p e = some k.scalar?.isSome :=
  isScalarExpr_eq_some.mpr ⟨t, ht, Pool.isScalar_of_kind hk⟩

theorem pointeeOf_of_kind {e : Expr} {t : TypeId} {k : TypeKind} (ht : g.typeOf e = some t)
    (hk : p.kind t = some k) : g.pointeeOf p e = k.pointee? := by
  simp [pointeeOf, ht, Pool.pointee_of_kind hk]

theorem exists_kind_of_wraps (h : g.Wraps p v) : ∃ t k, g.typeOf (.var v) = some t ∧
    p.kind t = some k ∧ (k.scalar?.isSome ∨ k.scalar?.isSome = false ∧ ∃ u, k.pointee? = some u) := by
  obtain hscalar | ⟨u, hu⟩ := h
  · obtain ⟨t, k, ht, hk⟩ := isScalarExpr_eq_true.mp hscalar
    exact ⟨t, _, ht, hk, .inl rfl⟩
  · obtain ⟨t, ht, hk⟩ := pointeeOf_eq_some.mp hu
    exact ⟨t, _, ht, hk, .inr ⟨rfl, u, rfl⟩⟩

theorem exists_isScalarExpr (h : op.resolved p g) (huses : op.usesReceiver) {e : Expr}
    (he : e ∈ op.args) : ∃ b, g.isScalarExpr p e = some b := by
  obtain ⟨t, k, ht, hk⟩ := Operator.exists_kind_of_resolved h huses he
  exact ⟨_, isScalarExpr_of_kind ht hk⟩

theorem map_some_ne_none {α β : Type} (f : α → β) (x : Except Error α) :
    (fun a => some (f a)) <$> x ≠ .ok none := by
  cases x <;> simp [Functor.map, Except.map]

theorem staticOperands_eq_none_or (call : OpId) (h : op.resolved p g) (huses : op.usesReceiver)
    {unused left right : Expr} (hargs : op.args = [unused, left, right]) :
    g.staticOperands p call op = .ok none ∨
      g.isScalarExpr p left = some true ∧ g.isScalarExpr p right = some true := by
  obtain ⟨l, hl⟩ := exists_isScalarExpr h huses (e := left) (by simp [hargs])
  obtain ⟨r, hr⟩ := exists_isScalarExpr h huses (e := right) (by simp [hargs])
  cases l <;> cases r <;> simp [staticOperands, hargs, hl, hr, Error.lift_some]

theorem instanceOperands_eq_none_or (c : Chains) (call : OpId) (h : op.resolved p g)
    (huses : op.usesReceiver) {owner : TypeId} {this right : Expr} {k : TypeKind}
    (hargs : op.args = [this, right]) (hk : p.kind owner = some k) :
    g.instanceOperands p c call op owner = .ok none ∨ ∃ x, this = .var x ∧
      g.isScalarExpr p right = some true ∧ k.scalar?.any Scalar.isFloat = false := by
  obtain ⟨r, hr⟩ := exists_isScalarExpr h huses (e := right) (by simp [hargs])
  cases r with
  | false => simp [instanceOperands, hargs, hr, Error.lift_some]
  | true =>
    cases hfloat : k.scalar?.any Scalar.isFloat with
    | true => simp [instanceOperands, hargs, hr, Pool.scalarOf, hk, hfloat, Error.lift_some]
    | false =>
      cases this with
      | const => simp [instanceOperands, hargs, hr, Pool.scalarOf, hk, Error.lift_some]
      | var x => exact .inr ⟨x, rfl, hr, rfl⟩

section

variable (hop : g.op id = some op)
include hop

theorem equalityComparison_eq_none_or (hresolved : op.resolved p g) :
    g.equalityComparison p c id = .ok none ∨ g.Lowerable p id op .equality := by
  unfold equalityComparison
  simp only [hop, Error.lift_some_bind]
  split
  case h_2 => exact .inl rfl
  rename_i m hkind
  obtain ⟨method, k, found, hm, hk, hfound, harity⟩ :=
    Operator.exists_method_of_resolved hresolved hkind
  have huses : op.usesReceiver := by simp [Operator.usesReceiver, hkind]
  simp only [hm, hfound, Error.lift_some_bind, Pool.isScalar_of_kind hk]
  by_cases hscalar : k.scalar?.isSome
  case neg => exact .inl (if_pos (by simpa using hscalar))
  have howner : p.isScalar method.owner = some true := by rw [Pool.isScalar_of_kind hk, hscalar]
  simp only [hscalar, Bool.not_true, Bool.false_eq_true, if_false]
  cases found with
  | none => exact .inl rfl
  | some condition =>
  cases hresult : op.result? with
  | none => exact .inl rfl
  | some result =>
  have hctor : method.kind ≠ .ctor := by
    obtain ⟨-, -, ⟨-, h, -⟩ | ⟨-, h, -⟩ | ⟨-, h, -⟩⟩ := Pool.equalityCondition_spec hfound <;> simp [h]
  have hlength := harity _ (by simp [Pool.wrapperArity, howner, hctor, hfound]; rfl)
  have hlower : ∀ h, g.Lowerable p id op .equality := fun h =>
    ⟨m, method, condition, result, hkind, hm, howner, hfound, hresult, h⟩
  by_cases hstatic : method.kind = .ofType
  · rw [if_pos hstatic] at hlength
    obtain ⟨unused, left, right, hargs⟩ := List.length_eq_three.mp hlength
    refine (staticOperands_eq_none_or id hresolved huses hargs).imp (fun h => ?_) fun h =>
      hlower (.inl ⟨hstatic, unused, left, right, hargs, h⟩)
    simp only [if_pos hstatic, h]
    rfl
  · rw [if_neg hstatic] at hlength
    obtain ⟨this, right, hargs⟩ := List.length_eq_two.mp hlength
    refine (instanceOperands_eq_none_or c id hresolved huses hargs hk).imp (fun h => ?_) ?_
    · simp only [if_neg hstatic, h]
      rfl
    · rintro ⟨x, rfl, hright, hfloat⟩
      exact hlower (.inr ⟨hstatic, x, right, k.scalar?, hargs, hright, by simp [Pool.scalarOf, hk],
        hfloat⟩)

theorem Lowerable.equalityComparison_ne_none (h : g.Lowerable p id op .equality) :
    g.equalityComparison p c id ≠ .ok none := by
  obtain ⟨m, method, condition, result, hkind, hm, howner, hfound, hresult, hoperands⟩ := h
  obtain ⟨hstatic, unused, left, right, hargs, hleft, hright⟩ |
    ⟨hstatic, this, right, kind, hargs, hright, hscalar, hfloat⟩ := hoperands
  · simp [equalityComparison, hop, hkind, hm, howner, hfound, hresult, hstatic, staticOperands, hargs,
      hleft, hright, Error.lift_some]
  · cases hsource : g.sourceOf p c id this with
    | error e =>
      simp [equalityComparison, hop, hkind, hm, howner, hfound, hresult, hstatic, instanceOperands,
        hargs, hright, hscalar, hfloat, hsource, Error.lift_some, bind, Except.bind, pure, Except.pure]
    | ok source =>
      simp [equalityComparison, hop, hkind, hm, howner, hfound, hresult, hstatic, instanceOperands,
        hargs, hright, hscalar, hfloat, hsource, Error.lift_some, bind, Except.bind, pure, Except.pure]

variable (hc : Ready c g) (hid : id ∈ g.attached)
include hc hid

theorem Lowerable.constructorCopy_ne_none (hvoid : op.isConstructor p → op.results = [])
    (h : g.Lowerable p id op .constructor) : g.constructorCopy p c id ≠ .ok none := by
  obtain ⟨m, method, this, value, t, hkind, hm, hctor, howner, hargs, ht, haccepts,
    ⟨infoThis, hthis, harg⟩, d, source, x, info, hdefs, hsource, hkinds, hhead, hinfo, hlocal,
    htype⟩ := h
  have hresults := hvoid (by simp [Operator.isConstructor, hkind, hm, hctor, howner])
  have hmem : this ∈ g.mentioned := mentions_of_arg hid hop (e := .var this) (by simp [hargs]) this rfl
  have hdefs' : Multiplicity.ofList (g.definers this) = .one d := ofList_eq_one.mpr hdefs
  unfold constructorCopy
  simp [hop, hkind, hm, hctor, howner, hargs, hresults, ht, haccepts, hthis, harg, hc.defCount_eq hmem,
    hdefs', hsource, hkinds, hhead, hinfo, hlocal, htype, Error.lift_some_bind]

theorem Lowerable.fieldRead_ne_none (h : g.Lowerable p id op .load) :
    g.fieldRead p c id ≠ .ok none := by
  obtain ⟨f, receiver, result, hkind, hvalue, hargs, hwraps, hresult, hdefs⟩ := h
  have halone := hc.definesAlone_eq id (mem_mentioned_of_result? hid hop hresult)
  obtain ⟨t, k, ht, hk, hcase⟩ := exists_kind_of_wraps hwraps
  obtain ⟨info, hinfo, rfl⟩ := Option.map_eq_some_iff.mp ht
  have hscalar := Pool.isScalar_of_kind hk
  have hpointee := Pool.pointee_of_kind hk
  obtain hk | ⟨hk, u, hu⟩ := hcase
  · simp [fieldRead, hop, hkind, hvalue, hargs, hresult, hinfo, hscalar, hpointee, hk, halone, hdefs,
      Error.lift_some, map_some_ne_none]
  · simp [fieldRead, hop, hkind, hvalue, hargs, hresult, hinfo, hscalar, hpointee, hk, hu, halone,
      hdefs, Error.lift_some, map_some_ne_none]

theorem Lowerable.fieldAddress_ne_none (h : g.Lowerable p id op .address) :
    g.fieldAddress p c id ≠ .ok none := by
  obtain ⟨f, receiver, result, hkind, hvalue, hargs, hcase, hresult, hdefs⟩ := h
  have halone := hc.definesAlone_eq id (mem_mentioned_of_result? hid hop hresult)
  obtain ⟨hscalar, x, rfl⟩ | ⟨u, hu⟩ := hcase
  · obtain ⟨t, ht, hscalar⟩ := isScalarExpr_eq_some.mp hscalar
    simp [fieldAddress, hop, hkind, hvalue, hargs, hresult, halone, hdefs, ht, hscalar,
      Error.lift_some]
  · obtain ⟨t, ht, hk⟩ := pointeeOf_eq_some.mp hu
    have hscalar := Pool.isScalar_of_kind hk
    have hpointee := Pool.pointee_of_kind hk
    simp [fieldAddress, hop, hkind, hvalue, hargs, hresult, halone, hdefs, ht, hscalar, hpointee,
      TypeKind.scalar?, TypeKind.pointee?, Error.lift_some, map_some_ne_none]

variable (hg : g.WellShaped) (hresolved : op.resolved p g)
include hg hresolved

theorem constructorCopy_eq_none_or (hvoid : op.isConstructor p → op.results = []) :
    g.constructorCopy p c id = .ok none ∨ g.Lowerable p id op .constructor := by
  unfold constructorCopy
  simp only [hop, Error.lift_some_bind]
  split
  case h_2 => exact .inl rfl
  rename_i m hkind
  obtain ⟨method, k, -, hm, hk, -, harity⟩ := Operator.exists_method_of_resolved hresolved hkind
  have huses : op.usesReceiver := by simp [Operator.usesReceiver, hkind]
  simp only [hm, Error.lift_some_bind, Pool.isScalar_of_kind hk]
  by_cases hctor : method.kind = .ctor
  case neg => exact .inl (if_pos hctor)
  rw [if_neg (not_not.mpr hctor)]
  by_cases hscalar : k.scalar?.isSome
  case neg => exact .inl (if_pos (by simpa using hscalar))
  have howner : p.isScalar method.owner = some true := by rw [Pool.isScalar_of_kind hk, hscalar]
  obtain ⟨this, value, hargs⟩ := List.length_eq_two.mp
    (harity 2 (by simp [Pool.wrapperArity, howner, hctor]))
  have hresults := hvoid (by simp [Operator.isConstructor, hkind, hm, hctor, howner])
  have hknown : ∀ e ∈ op.args, ∃ t k, g.typeOf e = some t ∧ p.kind t = some k := fun e he =>
    Operator.exists_kind_of_resolved hresolved huses he
  obtain ⟨t, kind, ht, hkindt⟩ := hknown value (by simp [hargs])
  obtain ⟨accepts, haccepts⟩ := Pool.exists_accepts hkindt method.owner
  simp only [hscalar, hargs, hresults, ht, haccepts, Error.lift_some_bind, List.isEmpty_nil,
    Bool.not_true, Bool.false_eq_true, if_false]
  cases accepts with
  | false => exact .inl rfl
  | true =>
  cases this with
  | const => exact .inl rfl
  | var this =>
  have hmem : this ∈ g.mentioned := mentions_of_arg hid hop (e := .var this) (by simp [hargs]) this rfl
  obtain ⟨infoThis, hthis, -⟩ :=
    liveExpr_of_fits (hg.fits hid hop) (e := .var this) (by simp [hargs]) this rfl
  simp only [hthis, hc.defCount_eq hmem, Error.lift_some_bind, pure_bind, Bool.not_true,
    Bool.false_eq_true, if_false]
  by_cases harg : infoThis.isArgument
  case pos => exact .inl (if_pos harg)
  rw [if_neg harg]
  split
  case h_2 => exact .inl rfl
  rename_i d hone
  have hdefs := ofList_eq_one.mp hone
  have hd : d ∈ g.definers this := hdefs ▸ List.mem_singleton_self d
  obtain ⟨hdatt, source, hsource, -⟩ := mem_definers.mp hd
  simp only [hsource, Error.lift_some_bind]
  by_cases hkinds : source.kind = .addressOf
  case neg => exact .inl (if_pos hkinds)
  rw [if_neg (not_not.mpr hkinds)]
  split
  case h_2 => exact .inl rfl
  rename_i x hx
  have hhead := head?_bind_var?.mp hx
  obtain ⟨info, hinfo, -⟩ :=
    liveExpr_of_fits (hg.fits hdatt hsource) (List.mem_of_mem_head? hhead) x rfl
  simp only [hinfo, Error.lift_some_bind]
  split
  · exact .inl rfl
  · rename_i hlocal
    simp only [Bool.or_eq_true, decide_eq_true_eq, not_or, not_not, Bool.not_eq_true] at hlocal
    exact .inr ⟨m, method, this, value, t, hkind, hm, hctor, howner, hargs, ht, haccepts,
      ⟨infoThis, hthis, by simpa using harg⟩, d, source, x, info, hdefs, hsource, hkinds, hhead, hinfo,
      hlocal.1, hlocal.2⟩

theorem fieldRead_eq_none_or : g.fieldRead p c id = .ok none ∨ g.Lowerable p id op .load := by
  unfold fieldRead
  simp only [hop, Error.lift_some_bind]
  split
  case h_2 => exact .inl rfl
  rename_i f hkind
  obtain ⟨value, hvalue⟩ := Operator.exists_field_of_resolved hresolved (.inl hkind)
  have huses : op.usesReceiver := by simp [Operator.usesReceiver, hkind]
  have hlength := (hg.fits hid hop).args (a := .exactly 1) (by rw [hkind]; rfl)
  obtain ⟨receiver, hargs⟩ := List.length_eq_one_iff.mp (Arity.admits_exactly.mp hlength)
  obtain ⟨t, k, ht, hk⟩ := Operator.exists_kind_of_resolved hresolved huses (e := receiver)
    (by simp [hargs])
  simp only [hvalue, hargs, Error.lift_some_bind]
  cases value with
  | false => exact .inl rfl
  | true =>
  cases receiver with
  | const => exact .inl rfl
  | var receiver =>
  cases hresult : op.result? with
  | none => exact .inl rfl
  | some result =>
  obtain ⟨info, hinfo, rfl⟩ := Option.map_eq_some_iff.mp ht
  simp only [hinfo, Pool.isScalar_of_kind hk, Pool.pointee_of_kind hk, Error.lift_some_bind,
    hc.definesAlone_eq id (mem_mentioned_of_result? hid hop hresult), pure_bind, Bool.not_true,
    Bool.false_eq_true, if_false]
  by_cases hwraps : g.Wraps p receiver
  case neg =>
    have hnone : k.scalar?.isSome = false ∧ k.pointee? = none := by
      simpa [Wraps, isScalarExpr_of_kind ht hk, pointeeOf_of_kind ht hk,
        Option.eq_none_iff_forall_ne_some] using hwraps
    exact .inl (if_pos (by simp [hnone]))
  by_cases halone : g.definers result = [id]
  case neg =>
    simp only [halone, decide_false, Bool.not_false, if_true]
    exact .inl (ite_self _)
  exact .inr ⟨f, receiver, result, hkind, hvalue, hargs, hwraps, hresult, halone⟩

theorem fieldAddress_eq_none_or :
    g.fieldAddress p c id = .ok none ∨ g.Lowerable p id op .address := by
  unfold fieldAddress
  simp only [hop, Error.lift_some_bind]
  split
  case h_2 => exact .inl rfl
  rename_i f hkind
  obtain ⟨value, hvalue⟩ := Operator.exists_field_of_resolved hresolved (.inr hkind)
  have huses : op.usesReceiver := by simp [Operator.usesReceiver, hkind]
  have hlength := (hg.fits hid hop).args (a := .exactly 1) (by rw [hkind]; rfl)
  obtain ⟨receiver, hargs⟩ := List.length_eq_one_iff.mp (Arity.admits_exactly.mp hlength)
  obtain ⟨t, k, ht, hk⟩ := Operator.exists_kind_of_resolved hresolved huses (e := receiver)
    (by simp [hargs])
  simp only [hvalue, hargs, Error.lift_some_bind]
  cases value with
  | false => exact .inl rfl
  | true =>
  cases hresult : op.result? with
  | none => exact .inl rfl
  | some result =>
  simp only [hc.definesAlone_eq id (mem_mentioned_of_result? hid hop hresult), pure_bind, Bool.not_true,
    Bool.false_eq_true, if_false, ht, Pool.isScalar_of_kind hk, Pool.pointee_of_kind hk,
    Error.lift_some_bind]
  by_cases halone : g.definers result = [id]
  case neg =>
    simp only [halone, decide_false, Bool.not_false, if_true]
    exact .inl rfl
  have hlower : ∀ h, g.Lowerable p id op .address := fun h =>
    ⟨f, receiver, result, hkind, hvalue, hargs, h, hresult, halone⟩
  simp only [halone, decide_true, Bool.not_true, Bool.false_eq_true, if_false]
  cases hscalar : k.scalar?.isSome with
  | true =>
    cases receiver with
    | const => exact .inl rfl
    | var x => exact .inr (hlower (.inl ⟨hscalar ▸ isScalarExpr_of_kind ht hk, x, rfl⟩))
  | false =>
    cases hpointee : k.pointee? with
    | none => exact .inl rfl
    | some u => exact .inr (hlower (.inr ⟨u, hpointee ▸ pointeeOf_of_kind ht hk⟩))

end

end Graph
end ScalarLowering
