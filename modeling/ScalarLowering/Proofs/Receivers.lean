import ScalarLowering.Proofs.Discipline

/-! What the wrapper operations do with their receiver: they work on the value that it is or points
at. -/

namespace ScalarLowering

/-- The value that a receiver is or points at. -/
def Frame.unwrap (s : Frame) : Value → Option Value
  | .bits w => some (.bits w)
  | .pointer l => s.read l
  | _ => none

def Graph.Wraps (g : Graph) (p : Pool) (x : VarId) : Prop :=
  g.isScalarExpr p (.var x) = some true ∨ ∃ u, g.pointeeOf p (.var x) = some u

namespace Pool

variable {p : Pool} {method : Method} {c : Condition}

theorem equalityCondition_spec (h : p.equalityCondition method = some (some c)) :
    ∃ name, p.name method.name = some name ∧
      (WrapperMethod.of? method.kind name = some .equals ∧ method.kind = .ofInstance ∧ c = .eq ∨
        WrapperMethod.of? method.kind name = some .opEquality ∧ method.kind = .ofType ∧ c = .eq ∨
        WrapperMethod.of? method.kind name = some .opInequality ∧ method.kind = .ofType ∧
          c = .ne) := by
  obtain ⟨name, hname, h⟩ := Option.bind_eq_some_iff.mp h
  refine ⟨name, hname, ?_⟩
  split at h
  · rename_i hof
    exact .inl ⟨hof, WrapperMethod.kind_of? hof, by simpa using h.symm⟩
  · rename_i hof
    exact .inr (.inl ⟨hof, WrapperMethod.kind_of? hof, by simpa using h.symm⟩)
  · rename_i hof
    exact .inr (.inr ⟨hof, WrapperMethod.kind_of? hof, by simpa using h.symm⟩)
  · simp at h
  · simp at h

end Pool

namespace Operator

variable {op : Operator} {p : Pool} {g : Graph} {s : Frame} {x : VarId} {v : Value}
  {a : Option (Location × Value)} {ending : Ending}

theorem arg_zero (hhead : op.args.head? = some (.var x)) (hv : s.read (.var x) = some v) :
    s.arg op 0 = .ok v :=
  arg_eq_ok.mpr ⟨.var x, by rwa [← List.head?_eq_getElem?], hv⟩

theorem read_of_arg_zero (hhead : op.args.head? = some (.var x)) (hv : s.arg op 0 = .ok v) :
    s.read (.var x) = some v := by
  obtain ⟨e, he, hv⟩ := arg_eq_ok.mp hv
  rw [← List.head?_eq_getElem?, hhead] at he
  obtain rfl := Option.some.inj he
  exact hv

/-- A scalar holds a payload, a pointer is null or points somewhere. -/
theorem Safe.receiver (hsafe : op.Safe p g s) (huses : op.usesReceiver)
    (hhead : op.args.head? = some (.var x)) (hx : g.Wraps p x) (hv : s.read (.var x) = some v) :
    v = .undefined ∨ (g.isScalarExpr p (.var x) = some true ∧ ∃ w, v = .bits w) ∨
      (∃ u, g.pointeeOf p (.var x) = some u) ∧ (v = .null ∨ ∃ l, v = .pointer l) := by
  have hreceives := hsafe huses x v hhead hv
  obtain hscalar | ⟨u, hu⟩ := hx
  · obtain ⟨t, ht⟩ := Graph.isScalarExpr_iff_kindOf.mp hscalar
    have hadmits := hreceives.admits ht
    cases v <;> simp [TypeKind.admits] at hadmits ⊢
    exact hscalar
  · have hadmits := hreceives.admits (Graph.kindOf_of_pointee hu)
    cases v <;> simp [TypeKind.admits] at hadmits ⊢ <;> exact ⟨u, hu⟩

/-- The operator works on the value that its receiver is or points at. -/
structure Unwraps (op : Operator) (p : Pool) (x : VarId) : Prop where
  head : op.args.head? = some (.var x)
  uses : op.usesReceiver
  value : ∀ {g s a}, g.Wraps p x → op.Safe p g s → op.action p g s = .ok a →
    ∃ v w, s.read (.var x) = some v ∧ s.unwrap v = some w
  fault : ∀ {g s ending}, g.Wraps p x → op.Safe p g s → op.Faults p g s ending →
    s.read (.var x) = some .null ∧ ending = .nullReference ∧ op.checkForNull

theorem Fault.lift_eq_error {α : Type} {found : Lookup α} {e : Fault} :
    (liftM found : Except Fault α) = .error e ↔ found = none ∧ .dangling = e := by
  cases found <;> simp [liftM, monadLift, MonadLift.monadLift]

theorem Fault.lift_some_bind {α β : Type} (x : α) (f : α → Except Fault β) :
    (liftM (some x) >>= f) = f x := rfl

/-- A checked fault comes of a null reference or an index out of range. -/
theorem Faults.exists_error (h : op.Faults p g s ending) : ∃ e, op.action p g s = .error e ∧
    ((e = .nullReference ∧ ending = .nullReference ∧ op.checkForNull) ∨
      ∃ i n, e = .indexOutOfRange i n ∧ ending = .indexOutOfRange ∧ op.flags.mayThrow) := by
  cases h with
  | null h hcheck => exact ⟨_, h, .inl ⟨rfl, rfl, hcheck⟩⟩
  | range h hcheck => exact ⟨_, h, .inr ⟨_, _, rfl, rfl, hcheck⟩⟩

theorem compareBy_eq_error {test : UInt64 → UInt64 → Bool} {w u : Value} {e : Fault}
    (h : w.compareBy test u = .error e) : .invalidOperand .undefinedComparison = e := by
  unfold Value.compareBy at h
  split at h
  · cases h
  · split at h
    · exact Except.error.inj h
    · cases h

theorem loadField_action {f : FieldId} (hkind : op.kind = .loadField f)
    (hhead : op.args.head? = some (.var x)) (hx : g.Wraps p x) (hsafe : op.Safe p g s)
    (ha : op.action p g s = .ok a) :
    ∃ v w, s.read (.var x) = some v ∧ s.unwrap v = some w ∧ a = op.into w := by
  simp only [action, hkind, Except.bind_eq_ok, Except.pure_eq_ok, readField_eq_ok] at ha
  obtain ⟨v, hv, w, ⟨scalar, -, hw⟩, rfl⟩ := ha
  have hread := read_of_arg_zero hhead hv
  refine ⟨v, w, hread, ?_, rfl⟩
  have hcases := hsafe.receiver (by simp [usesReceiver, hkind]) hhead hx hread
  obtain ⟨o, rfl, -⟩ | ⟨-, l, rfl, hl⟩ | ⟨-, b, rfl, rfl⟩ := hw
  · simp at hcases
  · exact hl
  · rfl

theorem unwraps_loadField {f : FieldId} (hkind : op.kind = .loadField f)
    (hf : p.isValueField f = some true) (hhead : op.args.head? = some (.var x)) :
    op.Unwraps p x := by
  have huses : op.usesReceiver := by simp [usesReceiver, hkind]
  refine ⟨hhead, huses, fun hx hsafe ha => ?_, fun {g s ending} hx hsafe hfault => ?_⟩
  · obtain ⟨v, w, hv, hw, -⟩ := loadField_action hkind hhead hx hsafe ha
    exact ⟨v, w, hv, hw⟩
  · obtain ⟨e, he, hcase⟩ := hfault.exists_error
    simp only [action, hkind, Except.bind_eq_error, Pool.readField, hf] at he
    obtain harg | ⟨v, hv, hrest⟩ := he
    · obtain rfl | ⟨cause, rfl⟩ := arg_eq_error harg <;> simp at hcase
    · have hread := read_of_arg_zero hhead hv
      obtain (hlift | ⟨b, hb, hrest⟩) | ⟨w, -, hpure⟩ := hrest
      · simp [Fault.lift_eq_error] at hlift
      · obtain rfl : true = b := by simpa using hb
        obtain rfl | ⟨-, w, rfl⟩ | ⟨-, rfl | ⟨l, rfl⟩⟩ := hsafe.receiver huses hhead hx hread
        · obtain rfl := Except.error.inj hrest
          simp at hcase
        · cases hrest
        · obtain rfl := Except.error.inj hrest
          exact ⟨hread, by simpa using hcase⟩
        · obtain ⟨-, rfl⟩ := Fault.lift_eq_error.mp hrest
          simp at hcase
      · cases hpure

theorem behind_eq_ok {w : Value} : s.behind v = .ok w ↔ s.unwrap v = some w := by
  cases v <;> simp [Frame.behind, Frame.unwrap, Value.target, Except.bind_eq_ok]

theorem behind_eq_error {e : Fault} (h : s.behind v = .error e) : (v = .null ∧ .nullReference = e) ∨
    .dangling = e ∨ ∃ cause, .invalidOperand cause = e := by
  cases v with
  | bits w => cases h
  | null => exact .inl ⟨rfl, Except.error.inj h⟩
  | pointer l => exact .inr (.inl (Fault.lift_eq_error.mp h).2)
  | undefined => exact .inr (.inr ⟨_, Except.error.inj h⟩)
  | object o => exact .inr (.inr ⟨_, Except.error.inj h⟩)
  | array a => exact .inr (.inr ⟨_, Except.error.inj h⟩)

section Equals

variable {m : MethodId} {method : Method} {name : String} {k : Scalar} (hkind : op.kind = .call m)
  (hm : p.method m = some method) (hname : p.name method.name = some name)
  (hk : p.scalarOf method.owner = some (some k))
  (hof : WrapperMethod.of? method.kind name = some .equals)
include hkind hm hname hk hof

/-- What `Equals` does: the same comparison as the operators, except that NaNs are equal. -/
theorem equals_action_eq : op.action p g s = do
    let this ← s.behind (← s.arg op 0)
    let equal ← this.compareBy (Scalar.same k) (← s.arg op 1)
    return op.into (.ofBool equal) := by
  simp only [action, hkind, callAction, hm, Fault.lift_some_bind, hname, hk, hof]

theorem equals_action (hhead : op.args.head? = some (.var x)) (ha : op.action p g s = .ok a) :
    ∃ v w right equal, s.read (.var x) = some v ∧ s.unwrap v = some w ∧ s.arg op 1 = .ok right ∧
      w.compareBy (Scalar.same k) right = .ok equal ∧ a = op.into (.ofBool equal) := by
  rw [equals_action_eq hkind hm hname hk hof] at ha
  simp only [Except.bind_eq_ok, Except.pure_eq_ok, behind_eq_ok] at ha
  obtain ⟨v, hv, w, hw, right, hright, equal, hequal, rfl⟩ := ha
  exact ⟨v, w, right, equal, read_of_arg_zero hhead hv, hw, hright, hequal, rfl⟩

theorem unwraps_equals (hhead : op.args.head? = some (.var x)) : op.Unwraps p x := by
  refine ⟨hhead, by simp [usesReceiver, hkind], fun _ _ ha => ?_, fun _ _ hfault => ?_⟩
  · obtain ⟨v, w, -, -, hv, hw, -⟩ := equals_action hkind hm hname hk hof hhead ha
    exact ⟨v, w, hv, hw⟩
  · obtain ⟨e, he, hcase⟩ := hfault.exists_error
    simp only [equals_action_eq hkind hm hname hk hof, Except.bind_eq_error] at he
    obtain harg | ⟨v, hv, hbehind | ⟨w, -, harg | ⟨right, -, hcompare | ⟨_, -, hpure⟩⟩⟩⟩ := he
    · obtain rfl | ⟨cause, rfl⟩ := arg_eq_error harg <;> simp at hcase
    · obtain ⟨rfl, rfl⟩ | rfl | ⟨cause, rfl⟩ := behind_eq_error hbehind
      · exact ⟨read_of_arg_zero hhead hv, by simpa using hcase⟩
      · simp at hcase
      · simp at hcase
    · obtain rfl | ⟨cause, rfl⟩ := arg_eq_error harg <;> simp at hcase
    · obtain rfl := compareBy_eq_error hcompare
      simp at hcase
    · cases hpure

end Equals

end Operator
end ScalarLowering
