import ScalarLowering.Machine.Run
import ScalarLowering.Lowering.Calls
import ScalarLowering.Lowering.Forwarding
import ScalarLowering.Proofs.Edits

/-! What an operator does to a frame. It finds a place and a value, and then writes the value
there; all that the lowering relies on is which places and values these can be. -/

namespace ScalarLowering

namespace Heap

variable {h h' : Heap} {v : Value}

theorem setField_eq_some {o : Nat} {f : FieldId} (hs : h.setField o f v = some h') :
    (∀ o' e, h'.field o' e = if o' = o ∧ e = f then some v else h.field o' e) ∧
      h'.arrays = h.arrays ∧ h'.statics = h.statics := by
  obtain ⟨fields, hfields, rfl⟩ := Option.map_eq_some_iff.mp hs
  refine ⟨fun o' e => ?_, rfl, rfl⟩
  simp only [field, Array.getElem?_modify]
  by_cases ho : o = o'
  · subst ho
    by_cases he : e = f
    · simp [hfields, Fields.get_set, he]
    · simp [hfields, Fields.get_set, he]
  · simp [ho, Ne.symm ho]

theorem static_setStatic (h : Heap) (f : FieldId) (v : Value) (e : FieldId) :
    (h.setStatic f v).static e = if e = f then v else h.static e :=
  Fields.get_set h.statics f e v

theorem setElement_eq_some {a i : Nat} (hs : h.setElement a i v = some h') :
    (∀ b j, h'.element b j = if b = a ∧ j = i then some v else h.element b j) ∧
      (∀ b, (h'.elements b).map Array.size = (h.elements b).map Array.size) ∧
      h'.objects = h.objects ∧ h'.statics = h.statics := by
  obtain ⟨w, hw, rfl⟩ := Option.map_eq_some_iff.mp hs
  obtain ⟨array, harray, hi⟩ := Option.bind_eq_some_iff.mp hw
  have helements : ∀ b, Heap.elements { h with arrays := h.arrays.modify a (·.setIfInBounds i v) } b =
      (h.elements b).map fun array => if a = b then array.setIfInBounds i v else array := by
    intro b
    simp only [elements, Array.getElem?_modify]
    split <;> simp
  have hlt : i < array.size := (Array.getElem?_eq_some_iff.mp hi).1
  refine ⟨fun b j => ?_, fun b => ?_, rfl, rfl⟩
  · rw [element, helements]
    by_cases hb : a = b
    · subst hb
      by_cases hj : j = i
      · simp [harray, hj, hlt]
      · simp [harray, element, hj, Array.getElem?_setIfInBounds_ne (Ne.symm hj)]
    · simp [hb, Ne.symm hb, element]
  · rw [helements, Option.map_map]
    refine Option.map_congr fun array _ => ?_
    simp only [Function.comp]
    split <;> simp

end Heap

namespace Frame

variable {s t : Frame} {l : Location} {v : Value}

theorem setVar_eq_some {x : VarId} : s.setVar x v = some t ↔
    x.index < s.vars.size ∧ { s with vars := s.vars.setIfInBounds x.index v } = t := by
  unfold setVar
  split
  · rename_i hx
    simp [hx]
  · rename_i hx
    simp [hx]

theorem read_write (h : s.write l v = some t) (l' : Location) :
    t.read l' = if l' = l then some v else s.read l' := by
  cases l with
  | var x =>
    obtain ⟨hx, rfl⟩ := setVar_eq_some.mp h
    cases l' with
    | var y =>
      simp only [read, Array.getElem?_setIfInBounds, Location.var.injEq, VarId.ext_iff]
      split <;> simp_all [eq_comm]
    | field o f => simp [read]
    | static f => simp [read]
    | element a i => simp [read]
  | field o f =>
    obtain ⟨heap, hheap, rfl⟩ := Option.map_eq_some_iff.mp h
    obtain ⟨hfield, harrays, hstatics⟩ := Heap.setField_eq_some hheap
    cases l' <;> simp [read, hfield, Heap.static, Heap.element, Heap.elements, harrays, hstatics]
  | static f =>
    obtain rfl := Option.some.inj h
    cases l' with
    | static e =>
      simp only [read, Heap.static_setStatic, Location.static.injEq]
      split <;> rfl
    | var y => simp [read]
    | field o f => simp [read, Heap.setStatic, Heap.field]
    | element a i => simp [read, Heap.setStatic, Heap.element, Heap.elements]
  | element a i =>
    obtain ⟨heap, hheap, rfl⟩ := Option.map_eq_some_iff.mp h
    obtain ⟨helement, -, hobjects, hstatics⟩ := Heap.setElement_eq_some hheap
    cases l' <;> simp [read, helement, Heap.static, Heap.field, hobjects, hstatics]

theorem exists_write (h : s.read l = some v) (w : Value) : ∃ t, s.write l w = some t := by
  cases l with
  | var x =>
    exact ⟨_, setVar_eq_some.mpr ⟨(Array.getElem?_eq_some_iff.mp h).1, rfl⟩⟩
  | field o f =>
    obtain ⟨fields, hfields, -⟩ := Option.map_eq_some_iff.mp h
    exact ⟨_, by simp only [write, Heap.setField, hfields, Option.map_some]; rfl⟩
  | static f => exact ⟨_, rfl⟩
  | element a i =>
    have h : s.heap.element a i = some v := h
    exact ⟨_, by simp only [write, Heap.setElement, h, Option.map_some]; rfl⟩

theorem size_write (h : s.write l v = some t) : t.vars.size = s.vars.size := by
  cases l with
  | var x =>
    obtain ⟨-, rfl⟩ := setVar_eq_some.mp h
    simp
  | static f =>
    obtain rfl := Option.some.inj h
    rfl
  | field o f =>
    obtain ⟨heap, -, rfl⟩ := Option.map_eq_some_iff.mp h
    rfl
  | element a i =>
    obtain ⟨heap, -, rfl⟩ := Option.map_eq_some_iff.mp h
    rfl

theorem size_elements_write (h : s.write l v = some t) (a : Nat) :
    (t.heap.elements a).map Array.size = (s.heap.elements a).map Array.size := by
  cases l with
  | var x =>
    obtain ⟨-, rfl⟩ := setVar_eq_some.mp h
    rfl
  | static f =>
    obtain rfl := Option.some.inj h
    rfl
  | field o f =>
    obtain ⟨heap, hheap, rfl⟩ := Option.map_eq_some_iff.mp h
    simp [Heap.elements, (Heap.setField_eq_some hheap).2.1]
  | element a i =>
    obtain ⟨heap, hheap, rfl⟩ := Option.map_eq_some_iff.mp h
    exact (Heap.setElement_eq_some hheap).2.1 _

def perform (s : Frame) : Option (Location × Value) → Lookup Frame
  | none => some s
  | some (l, v) => s.write l v

theorem size_perform {a : Option (Location × Value)} (h : s.perform a = some t) :
    t.vars.size = s.vars.size := by
  cases a with
  | none => rw [Option.some.inj h]
  | some act => exact size_write h

theorem read_perform (h : s.perform (some (l, v)) = some t) (l' : Location) :
    t.read l' = if l' = l then some v else s.read l' :=
  read_write h l'

end Frame

namespace Operator

def into (op : Operator) (v : Value) : Option (Location × Value) :=
  op.result?.map fun x => (.var x, v)

theorem define_eq_perform (op : Operator) (s : Frame) (v : Value) :
    s.define op v = s.perform (op.into v) := by
  unfold Frame.define into
  cases op.result? <;> rfl

def callAction (op : Operator) (p : Pool) (m : MethodId) (s : Frame) :
    Except Fault (Option (Location × Value)) := do
  let m ← p.method m
  let name ← p.name m.name
  let some kind ← p.scalarOf m.owner | throw (.unsupportedCall name)
  match WrapperMethod.of? m.kind name with
  | some .ctor =>
    let l ← (← s.arg op 0).target
    return some (l, ← s.arg op 1)
  | some .equals =>
    let this ← s.behind (← s.arg op 0)
    let equal ← this.compareBy (Scalar.same kind) (← s.arg op 1)
    return op.into (.ofBool equal)
  | some .opEquality =>
    let left ← s.arg op 1
    let equal ← left.compareBy (Scalar.equal kind) (← s.arg op 2)
    return op.into (.ofBool equal)
  | some .opInequality =>
    let left ← s.arg op 1
    let equal ← left.compareBy (Scalar.equal kind) (← s.arg op 2)
    return op.into (.ofBool !equal)
  | none => throw (.unsupportedCall name)

/-- What an operator writes. -/
def action (op : Operator) (p : Pool) (g : Graph) (s : Frame) :
    Except Fault (Option (Location × Value)) :=
  match op.kind with
  | .call m => op.callAction p m s
  | .loadField f => do return op.into (← p.readField s (← s.arg op 0) f)
  | .loadStatic f => return op.into (s.heap.static f)
  | .loadFieldAddress f => do return op.into (.pointer (← p.fieldPlace op (← s.arg op 0) f))
  | .loadStaticAddress f => return op.into (.pointer (.static f))
  | .storeField f => do
    let object ← s.arg op 0
    let value ← s.arg op 1
    match object with
    | .object o => return some (.field o f, value)
    | .null => throw .nullReference
    | v => throw (.invalidOperand (.noFieldStore v))
  | .loadElement => do
    let array ← s.arg op 0
    let l ← s.heap.elementAt array (← s.arg op 1)
    return op.into (← s.read l)
  | .loadElementAddress => do
    let array ← s.arg op 0
    return op.into (.pointer (← s.heap.elementAt array (← s.arg op 1)))
  | .addressOf =>
    match op.args.head?.bind Expr.var? with
    | some v => return op.into (.pointer (.var v))
    | none => throw (.invalidOperand .constantAddress)
  | .loadIndirect _ => do return op.into (← s.read (← (← s.arg op 0).target))
  | .storeIndirect => do
    let l ← (← s.arg op 0).target
    return some (l, ← s.arg op 1)
  | .copy => do return op.into (← s.arg op 0)
  | .compare c => do
    let kind ← op.comparedKind p g
    let left ← s.arg op 0
    let equal ← left.compareBy (Scalar.equal kind) (← s.arg op 1)
    return op.into (.ofBool (c.holds equal))
  | .nop | .jump _ | .branch _ _ | .ret => .ok none

theorem callMethod_eq_action (op : Operator) (p : Pool) (m : MethodId) (s : Frame) :
    p.callMethod op m s = op.callAction p m s >>= fun a => liftM (s.perform a) := by
  unfold Pool.callMethod callAction
  simp only [bind_assoc, define_eq_perform]
  refine bind_congr fun m => bind_congr fun name => bind_congr fun kind => ?_
  cases kind with
  | none => rfl
  | some kind =>
    dsimp only
    cases WrapperMethod.of? m.kind name with
    | none => rfl
    | some method =>
      cases method with
      | ctor => simp only [bind_assoc, pure_bind]; rfl
      | equals => simp only [bind_assoc, pure_bind]
      | opEquality => simp only [bind_assoc, pure_bind]
      | opInequality => simp only [bind_assoc, pure_bind]

theorem effect_eq_action (op : Operator) (p : Pool) (g : Graph) (s : Frame) :
    op.effect p g s = op.action p g s >>= fun a => liftM (s.perform a) := by
  unfold effect action
  simp only [define_eq_perform]
  cases op.kind with
  | call m => exact callMethod_eq_action op p m s
  | storeField f =>
    simp only [bind_assoc]
    refine bind_congr fun object => bind_congr fun value => ?_
    cases object <;> rfl
  | addressOf =>
    dsimp only
    cases op.args.head?.bind Expr.var? <;> rfl
  | _ => simp only [bind_assoc, pure_bind] <;> rfl

end Operator

def WrapperMethod.kind : WrapperMethod → MethodKind
  | .ctor => .ctor
  | .equals => .ofInstance
  | .opEquality | .opInequality => .ofType

theorem WrapperMethod.kind_of? {kind : MethodKind} {name : String} {w : WrapperMethod}
    (h : WrapperMethod.of? kind name = some w) : kind = w.kind := by
  unfold WrapperMethod.of? at h
  split at h <;> cases h <;> rfl

/-- Whether a variable of a type of this kind may hold a value. Only scalars and pointers are told
from other values. -/
def TypeKind.admits : TypeKind → Value → Bool
  | .scalar _, .undefined | .scalar _, .bits _ => true
  | .scalar _, _ => false
  | .pointer _, .undefined | .pointer _, .null | .pointer _, .pointer _ => true
  | .pointer _, _ => false
  | _, _ => true

def Graph.kindOf (g : Graph) (p : Pool) (x : VarId) : Lookup TypeKind :=
  (g.var x).bind fun info => p.kind info.type

/-- A receiver of that type may hold that value. It holds a payload whose field is addressed only if
the type is scalar. -/
structure OpKind.Receives (k : OpKind) (type : Option TypeKind) (v : Value) : Prop where
  admits : ∀ {t : TypeKind}, type = some t → t.admits v
  apart : ∀ {f : FieldId} {w : UInt64}, k = .loadFieldAddress f → v = .bits w →
    ∃ t, type = some (.scalar t)

namespace Operator

variable {op : Operator} {p : Pool} {g : Graph} {s : Frame} {l : Location} {v : Value} {x : VarId}

def usesReceiver (op : Operator) : Bool :=
  match op.kind with
  | .call _ | .loadField _ | .loadFieldAddress _ => true
  | _ => false

/-- The receiver of the operator holds what it may hold. -/
def Safe (op : Operator) (p : Pool) (g : Graph) (s : Frame) : Prop :=
  op.usesReceiver → ∀ x v, op.args.head? = some (.var x) → s.read (.var x) = some v →
    op.kind.Receives (g.kindOf p x) v

/-- The operator may hand out a pointer to the variable. The field of a wrapper at hand lies in
the variable itself. -/
def TakesAddress (op : Operator) (p : Pool) (g : Graph) (x : VarId) : Prop :=
  op.args.head? = some (.var x) ∧ (op.kind = .addressOf ∨
    (∃ f, op.kind = .loadFieldAddress f) ∧ ∃ t, g.kindOf p x = some (.scalar t))

/-- The operator does more with its operands than to read through them. -/
def Passes (op : Operator) (p : Pool) : Prop := ∀ x, p.readsThrough x op ≠ some true

/-- The places an operator can write: its result, what an operand points at, or a field. -/
inductive Targets (op : Operator) (p : Pool) (s : Frame) : Location → Prop
  | result {x : VarId} : op.result? = some x → Targets op p s (.var x)
  | through {e : Expr} {l : Location} : e ∈ op.args → s.eval e = some (.pointer l) → op.Passes p →
    Targets op p s l
  | field {o : Nat} {f : FieldId} : Targets op p s (.field o f)

/-- What an operator can write where. A pointer to a variable is made anew, or is an operand
that the operator does not only read through, or is found in memory. -/
inductive Act (op : Operator) (p : Pool) (g : Graph) (s : Frame) : Location → Value → Prop
  | plain {l : Location} {v : Value} : op.Targets p s l → (∀ x, v ≠ .pointer (.var x)) → Act op p g s l v
  | address {r x : VarId} : op.result? = some r → op.TakesAddress p g x →
    Act op p g s (.var r) (.pointer (.var x))
  | operand {l : Location} {v : Value} {e : Expr} : op.Targets p s l → e ∈ op.args →
    s.eval e = some v → op.Passes p → Act op p g s l v
  | content {r : VarId} {l : Location} {v : Value} : op.result? = some r → s.read l = some v →
    ((∀ x, l ≠ .var x) ∨ ∃ e ∈ op.args, s.eval e = some (.pointer l)) → Act op p g s (.var r) v

@[simp] theorem into_eq_some {w : Value} : op.into w = some (l, v) ↔
    ∃ x, op.result? = some x ∧ .var x = l ∧ w = v := by
  simp [into]

theorem arg_eq_ok {n : Nat} : s.arg op n = .ok v ↔ ∃ e, op.args[n]? = some e ∧ s.eval e = some v := by
  unfold Frame.arg
  cases op.args[n]? with
  | none => simp
  | some e => simp

theorem mem_of_arg {n : Nat} (h : s.arg op n = .ok v) : ∃ e ∈ op.args, s.eval e = some v := by
  obtain ⟨e, he, hv⟩ := arg_eq_ok.mp h
  exact ⟨e, List.mem_of_getElem? he, hv⟩

theorem target_eq_ok : v.target = .ok l ↔ v = .pointer l := by
  cases v <;> simp [Value.target]

theorem readField_eq_ok {receiver : Value} {f : FieldId} : p.readField s receiver f = .ok v ↔
    ∃ scalar, p.isValueField f = some scalar ∧
      ((∃ o, receiver = .object o ∧ s.read (.field o f) = some v) ∨
        (scalar = true ∧ ∃ l, receiver = .pointer l ∧ s.read l = some v) ∨
        (scalar = true ∧ ∃ w, receiver = .bits w ∧ .bits w = v)) := by
  simp only [Pool.readField, Except.bind_eq_ok, Fault.lift_eq_ok]
  refine exists_congr fun scalar => and_congr_right fun _ => ?_
  have hfield : ∀ o, s.read (.field o f) = s.heap.field o f := fun _ => rfl
  cases receiver <;> cases scalar <;> simp [hfield]

theorem fieldPlace_eq_ok {receiver : Value} {f : FieldId} : p.fieldPlace op receiver f = .ok l ↔
    (∃ o, receiver = .object o ∧ l = .field o f) ∨
      (receiver = .pointer l ∧ p.isValueField f = some true) ∨
      ∃ w x, receiver = .bits w ∧ op.args.head? = some (.var x) ∧ l = .var x := by
  cases receiver with
  | object o => simp [Pool.fieldPlace, eq_comm]
  | pointer l' =>
    cases hf : p.isValueField f with
    | none => simp [Pool.fieldPlace, hf, Except.bind_eq_ok]
    | some b => cases b <;> simp [Pool.fieldPlace, hf, Except.bind_eq_ok]
  | bits w =>
    cases hx : op.args.head?.bind Expr.var? with
    | none =>
      have hnone : ∀ x, op.args.head? ≠ some (.var x) := by
        intro x hhead
        simp [hhead] at hx
      simp [Pool.fieldPlace, hx, hnone]
    | some x =>
      have hhead : op.args.head? = some (.var x) := by
        obtain ⟨e, he, hx⟩ := Option.bind_eq_some_iff.mp hx
        rw [he, Expr.var?_eq_some.mp hx]
      simp [Pool.fieldPlace, hhead, eq_comm]
  | undefined => simp [Pool.fieldPlace]
  | null => simp [Pool.fieldPlace]
  | array a => simp [Pool.fieldPlace]

theorem elementAt_eq_ok {h : Heap} {array index : Value} (hl : h.elementAt array index = .ok l) :
    ∃ a i, l = .element a i := by
  cases array <;> simp only [Heap.elementAt, Except.throw_ne_ok] at hl
  cases index <;> simp only [Except.throw_ne_ok, Except.bind_eq_ok] at hl
  obtain ⟨elements, -, hl⟩ := hl
  split at hl
  · exact ⟨_, _, (Except.pure_eq_ok.mp hl).symm⟩
  · simp at hl

theorem Act.ofBool {b : Bool} (h : op.into (.ofBool b) = some (l, v)) : op.Act p g s l v := by
  obtain ⟨x, hx, rfl, rfl⟩ := into_eq_some.mp h
  exact .plain (.result hx) nofun

theorem passes_of_ctor {m : MethodId} {method : Method} (hkind : op.kind = .call m)
    (hm : p.method m = some method) (hctor : method.kind ≠ .ofInstance) : op.Passes p := by
  intro x
  simp [Pool.readsThrough, hkind, hm, hctor]

/-- A call answers with a truth value, or it is a constructor and writes through its receiver. -/
theorem callAction_cases {m : MethodId} (h : op.callAction p m s = .ok (some (l, v))) :
    (∃ b, op.into (.ofBool b) = some (l, v)) ∨ ∃ method, p.method m = some method ∧
      method.kind = .ctor ∧ s.arg op 0 = .ok (.pointer l) ∧ s.arg op 1 = .ok v := by
  simp only [callAction, Except.bind_eq_ok, Fault.lift_eq_ok] at h
  obtain ⟨method, hm, name, -, kind, -, h⟩ := h
  cases kind with
  | none => simp at h
  | some kind =>
    dsimp only at h
    split at h
    · rename_i hctor
      simp only [Except.bind_eq_ok, Except.pure_eq_ok, target_eq_ok, Option.some.injEq,
        Prod.mk.injEq] at h
      obtain ⟨_, harg, _, rfl, w, hw, rfl, rfl⟩ := h
      exact .inr ⟨method, hm, WrapperMethod.kind_of? hctor, harg, hw⟩
    · simp only [Except.bind_eq_ok, Except.pure_eq_ok] at h
      obtain ⟨_, -, _, -, _, -, _, -, h⟩ := h
      exact .inl ⟨_, h⟩
    · simp only [Except.bind_eq_ok, Except.pure_eq_ok] at h
      obtain ⟨_, -, _, -, _, -, h⟩ := h
      exact .inl ⟨_, h⟩
    · simp only [Except.bind_eq_ok, Except.pure_eq_ok] at h
      obtain ⟨_, -, _, -, _, -, h⟩ := h
      exact .inl ⟨_, h⟩
    · simp at h

theorem Act.through {n k : Nat} (hpasses : op.Passes p) (hthis : s.arg op n = .ok (.pointer l))
    (hvalue : s.arg op k = .ok v) : op.Act p g s l v := by
  obtain ⟨e, he, hv⟩ := mem_of_arg hthis
  obtain ⟨e', he', hw⟩ := mem_of_arg hvalue
  exact .operand (.through he hv hpasses) he' hw hpasses

theorem Act.passed {n : Nat} {r : VarId} (hpasses : op.Passes p) (harg : s.arg op n = .ok v)
    (hr : op.result? = some r) : op.Act p g s (.var r) v := by
  obtain ⟨e, he, hv⟩ := mem_of_arg harg
  exact .operand (.result hr) he hv hpasses

theorem callAction_spec {m : MethodId} (hkind : op.kind = .call m)
    (h : op.callAction p m s = .ok (some (l, v))) : op.Act p g s l v := by
  obtain ⟨b, h⟩ | ⟨method, hm, hctor, hthis, hvalue⟩ := callAction_cases h
  · exact .ofBool h
  · exact .through (passes_of_ctor hkind hm (by simp [hctor])) hthis hvalue

theorem readField_spec {f : FieldId} {receiver : Value} {r : VarId} (hr : op.result? = some r)
    (harg : s.arg op 0 = .ok receiver) (h : p.readField s receiver f = .ok v) :
    op.Act p g s (.var r) v := by
  obtain ⟨scalar, -, hcase⟩ := readField_eq_ok.mp h
  obtain ⟨o, rfl, hread⟩ | ⟨-, l, rfl, hread⟩ | ⟨-, b, rfl, rfl⟩ := hcase
  · exact .content hr hread (.inl (by simp))
  · exact .content hr hread (.inr (mem_of_arg harg))
  · exact .plain (.result hr) (by simp)

structure TakesField (op : Operator) (s : Frame) (f : FieldId) (r x : VarId) (w : UInt64) : Prop where
  kind : op.kind = .loadFieldAddress f
  result : op.result? = some r
  head : op.args.head? = some (.var x)
  value : s.read (.var x) = some (.bits w)

theorem fieldPlace_spec {f : FieldId} {receiver : Value} {r : VarId}
    (hkind : op.kind = .loadFieldAddress f) (hr : op.result? = some r)
    (harg : s.arg op 0 = .ok receiver) (h : p.fieldPlace op receiver f = .ok l) :
    op.Act p g s (.var r) (.pointer l) ∨ ∃ x w, op.TakesField s f r x w ∧ l = .var x := by
  obtain ⟨o, rfl, rfl⟩ | ⟨rfl, -⟩ | ⟨w, x, rfl, hx, rfl⟩ := fieldPlace_eq_ok.mp h
  · exact .inl (.plain (.result hr) (by simp))
  · exact .inl (.passed (fun x => by simp [Pool.readsThrough, hkind]) harg hr)
  · refine .inr ⟨x, w, ⟨hkind, hr, hx, ?_⟩, rfl⟩
    obtain ⟨e, he, hv⟩ := arg_eq_ok.mp harg
    rw [List.head?_eq_getElem?] at hx
    obtain rfl := Option.some.inj (he.symm.trans hx)
    exact hv

/-- What an operator writes is one of the acts, or the address of a wrapper at hand. -/
theorem action_cases (h : op.action p g s = .ok (some (l, v))) : op.Act p g s l v ∨
    ∃ f r x w, op.TakesField s f r x w ∧ l = .var r ∧ v = .pointer (.var x) := by
  unfold action at h
  cases hkind : op.kind <;> simp only [hkind, Except.bind_eq_ok, Except.pure_eq_ok, into_eq_some,
    Fault.lift_eq_ok, target_eq_ok, Option.some.injEq, Prod.mk.injEq] at h
  case call m => exact .inl (callAction_spec hkind h)
  case loadField f =>
    obtain ⟨receiver, harg, w, hw, r, hr, rfl, rfl⟩ := h
    exact .inl (readField_spec hr harg hw)
  case loadStatic f =>
    obtain ⟨r, hr, rfl, rfl⟩ := h
    have hread : s.read (.static f) = some (s.heap.static f) := rfl
    exact .inl (.content hr hread (.inl (by simp)))
  case loadFieldAddress f =>
    obtain ⟨receiver, harg, l, hl, r, hr, rfl, rfl⟩ := h
    obtain hact | ⟨x, w, htakes, rfl⟩ := fieldPlace_spec (g := g) hkind hr harg hl
    · exact .inl hact
    · exact .inr ⟨f, r, x, w, htakes, rfl, rfl⟩
  case loadStaticAddress f =>
    obtain ⟨r, hr, rfl, rfl⟩ := h
    exact .inl (.plain (.result hr) (by simp))
  case storeField f =>
    obtain ⟨object, -, value, harg, h⟩ := h
    obtain ⟨e, he, hv⟩ := mem_of_arg harg
    cases object <;> simp only [Except.throw_ne_ok, Except.pure_eq_ok, Option.some.injEq,
      Prod.mk.injEq] at h
    obtain ⟨rfl, rfl⟩ := h
    exact .inl (.operand .field he hv fun x => by simp [Pool.readsThrough, hkind])
  case loadElement =>
    obtain ⟨array, -, index, -, l, hl, w, hw, r, hr, rfl, rfl⟩ := h
    obtain ⟨a, i, rfl⟩ := elementAt_eq_ok hl
    exact .inl (.content hr hw (.inl (by simp)))
  case loadElementAddress =>
    obtain ⟨array, -, index, -, l, hl, r, hr, rfl, rfl⟩ := h
    obtain ⟨a, i, rfl⟩ := elementAt_eq_ok hl
    exact .inl (.plain (.result hr) (by simp))
  case addressOf =>
    split at h
    · rename_i x hx
      obtain ⟨e, he, hx⟩ := Option.bind_eq_some_iff.mp hx
      obtain rfl := Expr.var?_eq_some.mp hx
      obtain ⟨r, hr, rfl, rfl⟩ := into_eq_some.mp (Except.pure_eq_ok.mp h)
      exact .inl (.address hr ⟨he, .inl hkind⟩)
    · simp at h
  case loadIndirect t =>
    obtain ⟨_, harg, l, rfl, w, hw, r, hr, rfl, rfl⟩ := h
    exact .inl (.content hr hw (.inr (mem_of_arg harg)))
  case storeIndirect =>
    obtain ⟨_, harg, _, rfl, w, hw, rfl, rfl⟩ := h
    exact .inl (.through (fun x => by simp [Pool.readsThrough, hkind]) harg hw)
  case copy =>
    obtain ⟨w, harg, r, hr, rfl, rfl⟩ := h
    exact .inl (.passed (fun x => by simp [Pool.readsThrough, hkind]) harg hr)
  case compare c =>
    obtain ⟨kind, -, left, -, right, -, equal, -, r, hr, rfl, rfl⟩ := h
    exact .inl (.plain (.result hr) (by simp [Value.ofBool]))
  all_goals simp at h

/-- The field of a payload is only taken of a variable of a scalar type. -/
def Apart (op : Operator) (p : Pool) (g : Graph) (s : Frame) : Prop :=
  ∀ {f x w}, op.kind = .loadFieldAddress f → op.args.head? = some (.var x) →
    s.read (.var x) = some (.bits w) → ∃ t, g.kindOf p x = some (.scalar t)

theorem Safe.apart (h : op.Safe p g s) : op.Apart p g s := by
  intro f x w hkind hhead hbits
  have hreceives := h (by simp [usesReceiver, hkind]) x _ hhead hbits
  exact hreceives.apart hkind rfl

theorem action_spec (hapart : op.Apart p g s) (h : op.action p g s = .ok (some (l, v))) :
    op.Act p g s l v := by
  obtain hact | ⟨f, r, x, w, hfield, rfl, rfl⟩ := action_cases h
  · exact hact
  · exact .address hfield.result
      ⟨hfield.head, .inr ⟨⟨f, hfield.kind⟩, hapart hfield.kind hfield.head hfield.value⟩⟩

variable {op' : Operator} {g' : Graph} {s' : Frame}

/-- The second operator does in its frame what the first one does in its own. -/
structure Mirrors (op op' : Operator) (g g' : Graph) (s s' : Frame) : Prop where
  kind : op'.kind = op.kind
  results : op'.results = op.results
  flags : op'.flags = op.flags
  args : ∃ f : Expr → Expr, op'.args = op.args.map f ∧
    ∀ e ∈ op.args, s'.eval (f e) = s.eval e ∧ g'.typeOf (f e) = g.typeOf e
  heap : s'.heap = s.heap
  memory : ∀ e ∈ op.args, ∀ l, s.eval e = some (.pointer l) → s'.read l = s.read l
  /-- The operators that name a variable in the pointer they make name the same one. -/
  head : op.kind = .addressOf ∨ ((∃ f, op.kind = .loadFieldAddress f) ∧
    ∃ w, s.arg op 0 = .ok (.bits w)) → op'.args.head? = op.args.head?

theorem Mirrors.arg (h : op.Mirrors op' g g' s s') (n : Nat) : s'.arg op' n = s.arg op n := by
  obtain ⟨f, hargs, hsame⟩ := h.args
  unfold Frame.arg
  rw [hargs, List.getElem?_map]
  cases he : op.args[n]? with
  | none => rfl
  | some e => simp [(hsame e (List.mem_of_getElem? he)).1]

theorem Mirrors.memory_arg (h : op.Mirrors op' g g' s s') {n : Nat} (harg : s.arg op n = .ok (.pointer l)) :
    s'.read l = s.read l := by
  obtain ⟨e, he, hl⟩ := mem_of_arg harg
  exact h.memory e he l hl

theorem Mirrors.result? (h : op.Mirrors op' g g' s s') : op'.result? = op.result? := by
  rw [Operator.result?, h.results, Operator.result?]

theorem Mirrors.into (h : op.Mirrors op' g g' s s') (w : Value) : op'.into w = op.into w := by
  rw [Operator.into, h.result?, Operator.into]

theorem bind_congr_ok {α β : Type} {x : Except Fault α} {f k : α → Except Fault β}
    (h : ∀ a, x = .ok a → f a = k a) : x >>= f = x >>= k := by
  cases x with
  | error e => rfl
  | ok a => exact h a rfl

theorem readField_congr {receiver : Value} {f : FieldId} (hheap : s'.heap = s.heap)
    (hread : ∀ l, receiver = .pointer l → s'.read l = s.read l) :
    p.readField s' receiver f = p.readField s receiver f := by
  unfold Pool.readField
  refine bind_congr fun scalar => ?_
  cases receiver with
  | pointer l => cases scalar <;> simp [hread l rfl]
  | bits w => cases scalar <;> rfl
  | _ => simp [hheap]

theorem Mirrors.behind {n : Nat} {receiver : Value} (h : op.Mirrors op' g g' s s')
    (hreceiver : s.arg op n = .ok receiver) : s'.behind receiver = s.behind receiver := by
  cases receiver with
  | pointer l =>
    simp only [Frame.behind]
    refine bind_congr_ok fun l' hl => ?_
    rw [h.memory_arg (target_eq_ok.mp hl ▸ hreceiver)]
  | _ => rfl

theorem Mirrors.comparedKind (h : op.Mirrors op' g g' s s') :
    op'.comparedKind p g' = op.comparedKind p g := by
  obtain ⟨f, hargs, hsame⟩ := h.args
  unfold Operator.comparedKind
  rw [hargs, List.head?_map]
  cases he : op.args.head? with
  | none => rfl
  | some e => simp only [Option.map_some, (hsame e (List.mem_of_mem_head? he)).2]

theorem Mirrors.callAction (h : op.Mirrors op' g g' s s') (m : MethodId) :
    op'.callAction p m s' = op.callAction p m s := by
  unfold Operator.callAction
  simp only [h.arg, h.into]
  refine bind_congr fun method => bind_congr fun name => bind_congr fun kind => ?_
  cases kind with
  | none => rfl
  | some kind =>
    dsimp only
    split
    · rfl
    · refine bind_congr_ok fun receiver hreceiver => ?_
      rw [h.behind hreceiver]
    · rfl
    · rfl
    · rfl

theorem Mirrors.action (h : op.Mirrors op' g g' s s') : op'.action p g' s' = op.action p g s := by
  unfold Operator.action
  rw [h.kind]
  cases hkind : op.kind with
  | call m => exact h.callAction m
  | loadField f =>
    simp only [h.arg, h.into]
    refine bind_congr_ok fun receiver hreceiver => ?_
    rw [readField_congr h.heap fun l hl => h.memory_arg (hl ▸ hreceiver)]
  | loadFieldAddress f =>
    simp only [h.arg, h.into]
    refine bind_congr_ok fun receiver hreceiver => ?_
    cases receiver with
    | bits w =>
      have hhead := h.head (.inr ⟨⟨f, hkind⟩, w, hreceiver⟩)
      simp [Pool.fieldPlace, hhead]
    | _ => rfl
  | addressOf => simp only [h.head (.inl hkind), h.into]
  | loadIndirect t =>
    simp only [h.arg, h.into]
    refine bind_congr_ok fun receiver hreceiver => bind_congr_ok fun l hl => ?_
    rw [h.memory_arg (target_eq_ok.mp hl ▸ hreceiver)]
  | compare c => simp only [h.arg, h.into, h.comparedKind]
  | loadStatic f => simp only [h.into, h.heap]
  | loadElement =>
    simp only [h.arg, h.into, h.heap]
    refine bind_congr_ok fun array _ => bind_congr_ok fun index _ => bind_congr_ok fun l hl => ?_
    obtain ⟨a, i, rfl⟩ := elementAt_eq_ok hl
    simp only [Frame.read, h.heap]
  | _ => simp only [h.arg, h.into, h.heap]

end Operator
end ScalarLowering
