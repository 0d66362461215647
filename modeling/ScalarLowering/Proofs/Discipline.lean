import ScalarLowering.Proofs.Invariants

/-! The discipline under which the lowering keeps the behaviour of a graph: its operators are well
typed, the pointers that the lowering does not follow are only read through, and the address of a
field or an element is used where it is taken. -/

namespace ScalarLowering

namespace Graph

def pointeeOf (g : Graph) (p : Pool) (e : Expr) : Option TypeId :=
  (g.typeOf e).bind fun t => (p.pointee t).join

/-- The type of the value that a receiver is or points at. -/
def contentOf (g : Graph) (p : Pool) (e : Expr) : Option TypeId :=
  if g.isScalarExpr p e = some true then g.typeOf e else g.pointeeOf p e

end Graph

namespace Operator

/-- The types that the operands of an operator have to have to each other. -/
def wellTyped (op : Operator) (p : Pool) (g : Graph) : Bool :=
  match op.kind with
  | .loadField f => p.isValueField f ≠ some true || op.args.head?.all fun e => op.results.all fun x =>
      g.contentOf p e = none || g.contentOf p e = g.typeOf (.var x)
  | .loadIndirect _ => op.args.head?.all fun e => op.results.all fun x =>
      g.pointeeOf p e = g.typeOf (.var x)
  | .addressOf => op.args.head?.all fun e => op.results.all fun x =>
      g.pointeeOf p (.var x) = g.typeOf e
  | .loadFieldAddress f => (p.isValueField f).isSome && op.args.head?.all fun e =>
      (g.isScalarExpr p e ≠ some true || p.isValueField f = some true) && op.results.all fun x =>
        (g.pointeeOf p (.var x)).isSome &&
        (g.isScalarExpr p e ≠ some true || g.pointeeOf p (.var x) = g.typeOf e) &&
        (p.isValueField f ≠ some true || (g.pointeeOf p e).isNone || g.typeOf (.var x) = g.typeOf e)
  | .loadElementAddress => op.results.all fun x => (g.pointeeOf p (.var x)).isSome
  | .call m => (p.method m).all fun method =>
      p.isScalar method.owner ≠ some true || (p.equalityCondition method).all (·.isNone) ||
        (op.args.tail.all fun e => g.typeOf e = some method.owner) &&
          (method.kind = .ofType || op.args.head?.all fun e => g.contentOf p e = some method.owner)
  | _ => true

/-- The operator makes a pointer that the lowering does not follow: to a pointer, or to a scalar
whose field is addressed. -/
def escapes (op : Operator) (p : Pool) (g : Graph) : Bool :=
  match op.kind with
  | .addressOf => op.args.head?.any fun e => (g.pointeeOf p e).isSome
  | .loadFieldAddress _ => op.args.head?.any fun e => !e.isConst && g.isScalarExpr p e = some true
  | _ => false

def isLoad (op : Operator) : Bool :=
  match op.kind with
  | .loadField _ | .loadIndirect _ => true
  | _ => false

end Operator

/-- What the lowering needs of a graph to keep its behaviour. -/
@[mk_iff]
structure Graph.Disciplined (g : Graph) (p : Pool) : Prop where
  typed : ∀ id ∈ g.attached, ∀ op ∈ g.op id, op.wellTyped p g
  /-- Pointers to pointers, and to scalars whose field is addressed, are only read through. -/
  readOnly : ∀ id ∈ g.attached, ∀ op ∈ g.op id, op.escapes p g → ∀ q ∈ op.results,
    ∀ user ∈ g.readers q, ∀ op' ∈ g.op user, p.readsThrough q op' = some true
  /-- A scalar whose field is addressed is not defined by a load. -/
  notLoaded : ∀ id ∈ g.attached, ∀ op ∈ g.op id, op.escapes p g → op.kind ≠ .addressOf →
    ∀ x ∈ op.reads, ∀ d ∈ g.definers x, ∀ op' ∈ g.op d, op'.isLoad = false
  /-- The address of a field or an element is checked or used later in its own block only, and its
  own address is not taken. -/
  nearby : ∀ id ∈ g.attached, ∀ op ∈ g.op id, op.isPlace → ∀ q ∈ op.results,
    ∀ user ∈ g.readers q, (op.mayFault ∨ g.Before id user) ∧
      ∀ op' ∈ g.op user, op'.kind ≠ .addressOf

set_option synthInstance.maxSize 400 in
instance (g : Graph) (p : Pool) : Decidable (g.Disciplined p) :=
  decidable_of_iff' _ (Graph.disciplined_iff g p)

namespace Graph

variable {g g' : Graph} {p : Pool} {e e' : Expr} {x : VarId} {t : TypeId}

theorem isScalarExpr_congr (h : g'.typeOf e' = g.typeOf e) :
    g'.isScalarExpr p e' = g.isScalarExpr p e := by simp only [isScalarExpr, h]

theorem pointeeOf_congr (h : g'.typeOf e' = g.typeOf e) : g'.pointeeOf p e' = g.pointeeOf p e := by
  simp only [pointeeOf, h]

theorem contentOf_congr (h : g'.typeOf e' = g.typeOf e) : g'.contentOf p e' = g.contentOf p e := by
  simp only [contentOf, isScalarExpr_congr h, pointeeOf_congr h, h]

theorem pointeeOf_eq_some {u : TypeId} : g.pointeeOf p e = some u ↔
    ∃ t, g.typeOf e = some t ∧ p.kind t = some (.pointer u) := by
  have hpointee : ∀ k : TypeKind, k.pointee? = some u ↔ k = .pointer u := by
    intro k
    cases k <;> simp [TypeKind.pointee?]
  simp [pointeeOf, Option.bind_eq_some_iff, Pool.pointee, Option.join_eq_some_iff, hpointee]

theorem isScalarExpr_eq_true : g.isScalarExpr p e = some true ↔
    ∃ t k, g.typeOf e = some t ∧ p.kind t = some (.scalar k) := by
  have hscalar : ∀ k : TypeKind, k.scalar?.isSome = true ↔ ∃ s, k = .scalar s := by
    intro k
    cases k <;> simp [TypeKind.scalar?]
  simp only [isScalarExpr_eq_some, Pool.isScalar, Pool.scalarOf, Option.map_map,
    Option.map_eq_some_iff, Function.comp, hscalar]
  constructor
  · rintro ⟨t, ht, k, hk, s, rfl⟩
    exact ⟨t, s, ht, hk⟩
  · rintro ⟨t, s, ht, hk⟩
    exact ⟨t, ht, _, hk, s, rfl⟩

theorem pointeeOf_of_scalar (h : g.isScalarExpr p e = some true) : g.pointeeOf p e = none := by
  obtain ⟨t, k, ht, hk⟩ := isScalarExpr_eq_true.mp h
  cases hu : g.pointeeOf p e with
  | none => rfl
  | some u =>
    obtain ⟨t', ht', hk'⟩ := pointeeOf_eq_some.mp hu
    obtain rfl := Option.some.inj (ht.symm.trans ht')
    simp [hk] at hk'

theorem contentOf_of_scalar (h : g.isScalarExpr p e = some true) : g.contentOf p e = g.typeOf e :=
  if_pos h

theorem contentOf_of_pointee {u : TypeId} (h : g.pointeeOf p e = some u) :
    g.contentOf p e = some u := by
  rw [contentOf, if_neg, h]
  intro hscalar
  simp [pointeeOf_of_scalar hscalar] at h

theorem isScalarExpr_iff_kindOf : g.isScalarExpr p (.var x) = some true ↔
    ∃ k, g.kindOf p x = some (.scalar k) := by
  rw [isScalarExpr_eq_true]
  simp only [kindOf_eq, Option.bind_eq_some_iff]
  constructor
  · rintro ⟨t, k, ht, hk⟩
    exact ⟨k, t, ht, hk⟩
  · rintro ⟨k, t, ht, hk⟩
    exact ⟨t, k, ht, hk⟩

theorem kindOf_of_pointee {u : TypeId} (h : g.pointeeOf p (.var x) = some u) :
    g.kindOf p x = some (.pointer u) := by
  obtain ⟨t, ht, hk⟩ := pointeeOf_eq_some.mp h
  rw [kindOf_eq, ht]
  exact hk

end Graph

namespace Operator

variable {op op' : Operator} {g g' : Graph} {p : Pool} {e : Expr} {x : VarId}

/-- Operands of the same types can be put for each other, and results can go. -/
theorem wellTyped_of_types {f : Expr → Expr} (hkind : op'.kind = op.kind)
    (hargs : op'.args = op.args.map f) (hf : ∀ e ∈ op.args, g'.typeOf (f e) = g.typeOf e)
    (hresults : ∀ x ∈ op'.results, x ∈ op.results ∧ g'.typeOf (.var x) = g.typeOf (.var x))
    (h : op.wellTyped p g) : op'.wellTyped p g' := by
  have hhead : ∀ {e'}, op'.args.head? = some e' → ∃ e, op.args.head? = some e ∧
      g'.typeOf e' = g.typeOf e := by
    intro e' he'
    rw [hargs, List.head?_map] at he'
    obtain ⟨e, he, rfl⟩ := Option.map_eq_some_iff.mp he'
    exact ⟨e, he, hf e (List.mem_of_mem_head? he)⟩
  unfold wellTyped at h ⊢
  rw [hkind]
  cases hk : op.kind <;> simp only [hk, Bool.or_eq_true, Bool.and_eq_true, decide_eq_true_eq,
    Option.all_eq_true, List.all_eq_true] at h ⊢
  case loadField f =>
    refine h.imp_right fun h e' he' x hx => ?_
    obtain ⟨e, he, htype⟩ := hhead he'
    obtain ⟨hx, hxtype⟩ := hresults x hx
    rw [Graph.contentOf_congr htype, hxtype]
    exact h e he x hx
  case loadIndirect t =>
    intro e' he' x hx
    obtain ⟨e, he, htype⟩ := hhead he'
    obtain ⟨hx, hxtype⟩ := hresults x hx
    rw [Graph.pointeeOf_congr htype, hxtype]
    exact h e he x hx
  case addressOf =>
    intro e' he' x hx
    obtain ⟨e, he, htype⟩ := hhead he'
    obtain ⟨hx, hxtype⟩ := hresults x hx
    rw [Graph.pointeeOf_congr hxtype, htype]
    exact h e he x hx
  case loadFieldAddress f =>
    refine ⟨h.1, fun e' he' => ?_⟩
    obtain ⟨e, he, htype⟩ := hhead he'
    obtain ⟨hscalar, hres⟩ := h.2 e he
    rw [Graph.isScalarExpr_congr htype, Graph.pointeeOf_congr htype, htype]
    refine ⟨hscalar, fun x hx => ?_⟩
    obtain ⟨hx, hxtype⟩ := hresults x hx
    rw [Graph.pointeeOf_congr hxtype, hxtype]
    exact hres x hx
  case loadElementAddress =>
    intro x hx
    obtain ⟨hx, hxtype⟩ := hresults x hx
    rw [Graph.pointeeOf_congr hxtype]
    exact h x hx
  case call m =>
    intro method hm
    refine (h method hm).imp_right fun h => ⟨fun e' he' => ?_, h.2.imp_right fun h e' he' => ?_⟩
    · rw [hargs, ← List.map_tail] at he'
      obtain ⟨e, he, rfl⟩ := List.mem_map.mp he'
      rw [hf e (List.mem_of_mem_tail he)]
      exact h.1 e he
    · obtain ⟨e, he, htype⟩ := hhead he'
      rw [Graph.contentOf_congr htype]
      exact h e he

theorem wellTyped_addressOf (h : op.wellTyped p g) (hkind : op.kind = .addressOf)
    (he : op.args.head? = some e) (hx : x ∈ op.results) :
    g.pointeeOf p (.var x) = g.typeOf e := by
  simp only [wellTyped, hkind, Option.all_eq_true, List.all_eq_true, decide_eq_true_eq] at h
  exact h e he x hx

theorem wellTyped_loadIndirect {t : TypeId} (h : op.wellTyped p g) (hkind : op.kind = .loadIndirect t)
    (he : op.args.head? = some e) (hx : x ∈ op.results) :
    g.pointeeOf p e = g.typeOf (.var x) := by
  simp only [wellTyped, hkind, Option.all_eq_true, List.all_eq_true, decide_eq_true_eq] at h
  exact h e he x hx

theorem wellTyped_loadField {f : FieldId} {t : TypeId} (h : op.wellTyped p g)
    (hkind : op.kind = .loadField f) (hf : p.isValueField f = some true)
    (he : op.args.head? = some e) (ht : g.contentOf p e = some t) (hx : x ∈ op.results) :
    g.typeOf (.var x) = some t := by
  simp only [wellTyped, hkind, hf, Option.all_eq_true, List.all_eq_true, Bool.or_eq_true,
    decide_eq_true_eq, ne_eq, not_true_eq_false, false_or] at h
  simpa [ht, eq_comm] using h e he x hx

theorem wellTyped_loadFieldAddress {f : FieldId} (h : op.wellTyped p g)
    (hkind : op.kind = .loadFieldAddress f) (he : op.args.head? = some e) :
    (∃ b, p.isValueField f = some b) ∧
      (g.isScalarExpr p e = some true → p.isValueField f = some true) ∧
      ∀ x ∈ op.results, (∃ u, g.pointeeOf p (.var x) = some u) ∧
        (g.isScalarExpr p e = some true → g.pointeeOf p (.var x) = g.typeOf e) ∧
        ∀ {u}, p.isValueField f = some true → g.pointeeOf p e = some u →
          g.typeOf (.var x) = g.typeOf e := by
  simp only [wellTyped, hkind, Option.all_eq_true, List.all_eq_true, Bool.or_eq_true,
    Bool.and_eq_true, decide_eq_true_eq, Option.isSome_iff_exists] at h
  obtain ⟨hknown, h⟩ := h
  obtain ⟨hscalar, h⟩ := h e he
  refine ⟨hknown, fun hs => hscalar.resolve_left (by simpa using hs), fun x hx => ?_⟩
  obtain ⟨⟨hpointee, hs⟩, hf⟩ := h x hx
  refine ⟨hpointee, fun he => hs.resolve_left (by simpa using he), fun {u} hvalue hu => ?_⟩
  exact hf.resolve_left (by simp [hvalue, hu])

theorem wellTyped_call {m : MethodId} {method : Method} {c : Condition} (h : op.wellTyped p g)
    (hkind : op.kind = .call m) (hm : p.method m = some method)
    (hscalar : p.isScalar method.owner = some true)
    (hc : p.equalityCondition method = some (some c)) :
    (∀ e ∈ op.args.tail, g.typeOf e = some method.owner) ∧
      (method.kind ≠ .ofType → ∀ e, op.args.head? = some e →
        g.contentOf p e = some method.owner) := by
  simp only [wellTyped, hkind, Option.all_eq_true, List.all_eq_true, Bool.or_eq_true,
    Bool.and_eq_true, decide_eq_true_eq] at h
  have h := (h method hm).resolve_left (by simp [hscalar, hc])
  exact ⟨h.1, fun hne => h.2.resolve_left hne⟩

end Operator

namespace Graph

variable {g g' : Graph} {p : Pool} {c : Chains} {id : OpId} {op : Operator} {q x y : VarId}

/-- Nobody does more with the pointer than to read through it. -/
def OnlyReadThrough (g : Graph) (p : Pool) (q : VarId) : Prop :=
  ∀ user ∈ g.readers q, ∀ op ∈ g.op user, p.readsThrough q op = some true

/-- Pointers to the field of a wrapper that the variable holds are only read through. -/
def FieldReadOnly (g : Graph) (p : Pool) (x : VarId) : Prop :=
  g.isScalarExpr p (.var x) = some true → ∀ id ∈ g.attached, ∀ op ∈ g.op id,
    op.kind.isFieldAddress → op.args.head? = some (.var x) → ∀ q ∈ op.results, g.OnlyReadThrough p q

instance (g : Graph) (p : Pool) (q : VarId) : Decidable (g.OnlyReadThrough p q) :=
  inferInstanceAs (Decidable (∀ user ∈ g.readers q, ∀ op ∈ g.op user, p.readsThrough q op = some true))

instance (g : Graph) (p : Pool) (x : VarId) : Decidable (g.FieldReadOnly p x) :=
  inferInstanceAs (Decidable (g.isScalarExpr p (.var x) = some true → ∀ id ∈ g.attached,
    ∀ op ∈ g.op id, op.kind.isFieldAddress → op.args.head? = some (.var x) → ∀ q ∈ op.results,
      g.OnlyReadThrough p q))

/-- Stable variables are written by their own definitions only, unless it is through a pointer to
the field of a wrapper. -/
theorem FieldReadOnly.quiet (h : g.FieldReadOnly p x) (hg : g.WellShaped) (hc : Tracks c g)
    (hstable : g.isStable p c (.var x) = .ok true) : g.Quiet p x := by
  rintro q ⟨id, op, hid, hop, ⟨hhead, hkind | ⟨⟨f, hkind⟩, k, hk⟩⟩, hq⟩ user op' huser hop' hread
  · exact (isStable_spec hc hstable).2 (mem_readers_of_reads hid hop (Operator.mem_reads_of_mem
      (List.mem_of_mem_head? hhead))) hop hkind (hg.result?_eq hid hop hq)
      (mem_readers_of_reads huser hop' hread) hop'
  · exact h (isScalarExpr_iff_kindOf.mpr ⟨k, hk⟩) id hid op hop (by rw [hkind]; rfl) hhead q hq user
      (mem_readers_of_reads huser hop' hread) op' hop'

/-- No rule says how the variable is to be read. -/
def Free (g : Graph) (p : Pool) (y : VarId) : Prop :=
  ∀ {id op}, id ∈ g.attached → g.op id = some op → y ∈ op.results →
    op.escapes p g = false ∧ op.isPlace = false

namespace Disciplined

variable (hd : g.Disciplined p)
include hd

theorem pointee_of_isPlace (hg : g.WellShaped) (hid : id ∈ g.attached) (hop : g.op id = some op)
    (hplace : op.isPlace) (hx : x ∈ op.results) : ∃ u, g.pointeeOf p (.var x) = some u := by
  have htyped := hd.typed id hid op hop
  unfold Operator.isPlace at hplace
  split at hplace
  · rename_i f hkind
    have hlength : (Arity.exactly 1).admits op.args.length :=
      (hg.fits hid hop).args (by rw [hkind]; rfl)
    obtain ⟨e, he⟩ := List.length_eq_one_iff.mp (Arity.admits_exactly.mp hlength)
    exact ((Operator.wellTyped_loadFieldAddress (e := e) htyped hkind (by simp [he])).2.2 x hx).1
  · rename_i hkind
    simp only [Operator.wellTyped, hkind, List.all_eq_true] at htyped
    exact Option.isSome_iff_exists.mp (htyped x hx)
  · cases hplace

theorem pointee_of_escapes (hid : id ∈ g.attached) (hop : g.op id = some op)
    (hescapes : op.escapes p g) (hx : x ∈ op.results) : ∃ u, g.pointeeOf p (.var x) = some u := by
  have htyped := hd.typed id hid op hop
  unfold Operator.escapes at hescapes
  split at hescapes
  · rename_i hkind
    obtain ⟨e, he, hpointee⟩ := (Option.any_eq_true _ _).mp hescapes
    obtain ⟨u, hu⟩ := Option.isSome_iff_exists.mp hpointee
    obtain ⟨t, ht, -⟩ := pointeeOf_eq_some.mp hu
    exact ⟨t, (Operator.wellTyped_addressOf htyped hkind he hx).trans ht⟩
  · rename_i f hkind
    obtain ⟨e, he, -⟩ := (Option.any_eq_true _ _).mp hescapes
    exact ((Operator.wellTyped_loadFieldAddress htyped hkind he).2.2 x hx).1
  · cases hescapes

theorem quiet_of_pointee {u : TypeId} (h : g.pointeeOf p (.var x) = some u) : g.Quiet p x := by
  rintro q ⟨id, op, hid, hop, ⟨hhead, hkind | ⟨-, k, hk⟩⟩, hq⟩ user op' huser hop' hread
  · refine hd.readOnly id hid op hop ?_ q hq user (mem_readers_of_reads huser hop' hread) op' hop'
    simp [Operator.escapes, hkind, hhead, h]
  · simp [pointeeOf_of_scalar (isScalarExpr_iff_kindOf.mpr ⟨k, hk⟩)] at h

theorem quiet_of_stable (hg : g.WellShaped) (hc : Tracks c g)
    (h : g.isStable p c (.var x) = .ok true) : g.Quiet p x := by
  refine FieldReadOnly.quiet (fun hscalar id hid op hop hkind hhead => ?_) hg hc h
  refine hd.readOnly id hid op hop ?_
  cases hk : op.kind <;> simp [hk, OpKind.isFieldAddress] at hkind
  simp [Operator.escapes, hk, hhead, hscalar, Expr.isConst]

theorem free_of_scalar (hg : g.WellShaped) (h : g.isScalarExpr p (.var y) = some true) :
    g.Free p y := by
  intro id op hid hop hy
  refine ⟨?_, ?_⟩
  · cases hescapes : op.escapes p g with
    | false => rfl
    | true =>
      obtain ⟨u, hu⟩ := hd.pointee_of_escapes hid hop hescapes hy
      simp [pointeeOf_of_scalar h] at hu
  · cases hplace : op.isPlace with
    | false => rfl
    | true =>
      obtain ⟨u, hu⟩ := hd.pointee_of_isPlace hg hid hop hplace hy
      simp [pointeeOf_of_scalar h] at hu

/-- A variable that is not only read through does not come from an operator whose result is. -/
theorem not_escapes_of_passes (hid : id ∈ g.attached) (hop : g.op id = some op) (hy : y ∈ op.results)
    {user : OpId} {op' : Operator} (huser : user ∈ g.attached) (hop' : g.op user = some op')
    (hread : y ∈ op'.reads) (hpasses : p.readsThrough y op' ≠ some true) :
    op.escapes p g = false := by
  cases hescapes : op.escapes p g with
  | false => rfl
  | true =>
    exact absurd (hd.readOnly id hid op hop hescapes y hy user
      (mem_readers_of_reads huser hop' hread) op' hop') hpasses

theorem free_of_addressed {user : OpId} {op' : Operator} (huser : user ∈ g.attached)
    (hop' : g.op user = some op') (hkind : op'.kind = .addressOf) (hread : y ∈ op'.reads) :
    g.Free p y := by
  intro id op hid hop hy
  refine ⟨hd.not_escapes_of_passes hid hop hy huser hop' hread (by simp [Pool.readsThrough, hkind]), ?_⟩
  cases hplace : op.isPlace with
  | false => rfl
  | true =>
    exact absurd hkind ((hd.nearby id hid op hop hplace y hy user
      (mem_readers_of_reads huser hop' hread)).2 op' hop')

end Disciplined

end Graph
end ScalarLowering
