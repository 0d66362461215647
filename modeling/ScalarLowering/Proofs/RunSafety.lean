import ScalarLowering.Proofs.Simulation
import ScalarLowering.Proofs.Verification

/-! Runs of verified graphs. A frame is closed if all that its values refer to exists. Operators
write such values to places that exist, and make neither objects nor arrays, so a run that
starts in a closed frame looks up nothing that is missing. It cannot run past the end of a
block either, since a verified block ends with a control operator. -/

namespace ScalarLowering

def Location.isIn (vars : Nat) (h : Heap) : Location → Bool
  | .var v => v.index < vars
  | .field object _ => object < h.objects.size
  | .static _ => true
  | .element array i => (h.elements array).any (i < ·.size)

def Value.isIn (vars : Nat) (h : Heap) : Value → Bool
  | .pointer l => l.isIn vars h
  | .object o => o < h.objects.size
  | .array a => a < h.arrays.size
  | .undefined | .bits _ | .null => true

def Fields.all (test : Value → Bool) (fs : Fields) : Bool := fs.entries.all fun e => test e.2

theorem Fields.get_of_all {test : Value → Bool} {fs : Fields} (h : fs.all test)
    (hundefined : test .undefined) (f : FieldId) : test (fs.get f) := by
  unfold get
  cases hf : fs.entries.lookup f with
  | none => exact hundefined
  | some v =>
    obtain ⟨before, after, hentries, -⟩ := List.lookup_eq_some_iff.mp hf
    exact List.all_eq_true.mp h (f, v) (by simp [hentries])

/-- Whether the values in the heap refer only to what exists. -/
def Heap.isClosed (vars : Nat) (h : Heap) : Bool :=
  h.objects.toList.all (·.all (·.isIn vars h)) &&
    h.arrays.toList.all (·.toList.all (·.isIn vars h)) && h.statics.all (·.isIn vars h)

namespace Frame

variable {s t u : Frame} {l : Location} {v : Value}

def hasPlace (s : Frame) (l : Location) : Bool := l.isIn s.vars.size s.heap

def hasValue (s : Frame) (v : Value) : Bool := v.isIn s.vars.size s.heap

/-- Every value in the frame refers to what exists. -/
def Closed (s : Frame) : Prop := ∀ {l v}, s.read l = some v → s.hasValue v

theorem hasPlace_iff : s.hasPlace l ↔ ∃ v, s.read l = some v := by
  rw [← Option.isSome_iff_exists]
  cases l with
  | var x => simp [read, hasPlace, Location.isIn]
  | field o f => simp [read, hasPlace, Location.isIn, Heap.field]
  | static f => simp [read, hasPlace, Location.isIn]
  | element a i =>
    cases ha : s.heap.elements a <;> simp [read, hasPlace, Location.isIn, Heap.element, ha]

structure SameShape (s t : Frame) : Prop where
  vars : t.vars.size = s.vars.size
  objects : t.heap.objects.size = s.heap.objects.size
  arrays : t.heap.arrays.map Array.size = s.heap.arrays.map Array.size

theorem SameShape.refl (s : Frame) : SameShape s s := ⟨rfl, rfl, rfl⟩

theorem SameShape.trans (h : SameShape s t) (h' : SameShape t u) : SameShape s u :=
  ⟨h'.vars.trans h.vars, h'.objects.trans h.objects, h'.arrays.trans h.arrays⟩

theorem SameShape.hasPlace (h : SameShape s t) (l : Location) : t.hasPlace l = s.hasPlace l := by
  cases l with
  | var x => simp [Frame.hasPlace, Location.isIn, h.vars]
  | field o f => simp [Frame.hasPlace, Location.isIn, h.objects]
  | static f => rfl
  | element a i =>
    have hsize : (t.heap.elements a).map Array.size = (s.heap.elements a).map Array.size := by
      simpa [Heap.elements] using congrArg (·[a]?) h.arrays
    have hany := congrArg (Option.any (decide <| i < ·)) hsize
    simpa [Frame.hasPlace, Location.isIn, Option.any_map, Function.comp_def] using hany

theorem SameShape.hasValue (h : SameShape s t) (v : Value) : t.hasValue v = s.hasValue v := by
  cases v with
  | pointer l => exact h.hasPlace l
  | object o => simp [Frame.hasValue, Value.isIn, h.objects]
  | array a =>
    have hsize : t.heap.arrays.size = s.heap.arrays.size := by
      simpa using congrArg Array.size h.arrays
    simp [Frame.hasValue, Value.isIn, hsize]
  | undefined => rfl
  | bits w => rfl
  | null => rfl

theorem sameShape_write (h : s.write l v = some t) : SameShape s t := by
  refine ⟨size_write h, ?_, Array.ext_getElem? fun a => ?_⟩
  · cases l with
    | var x =>
      obtain ⟨-, rfl⟩ := setVar_eq_some.mp h
      rfl
    | static f =>
      obtain rfl := Option.some.inj h
      rfl
    | field o f =>
      obtain ⟨heap, hheap, rfl⟩ := Option.map_eq_some_iff.mp h
      obtain ⟨fields, -, rfl⟩ := Option.map_eq_some_iff.mp hheap
      simp
    | element a i =>
      obtain ⟨heap, hheap, rfl⟩ := Option.map_eq_some_iff.mp h
      simp [(Heap.setElement_eq_some hheap).2.2.1]
  · simpa [Heap.elements] using size_elements_write h a

theorem Closed.write (hs : s.Closed) (hv : s.hasValue v) (h : s.write l v = some t) :
    t.Closed := by
  intro l' w hw
  rw [(sameShape_write h).hasValue]
  rw [read_write h] at hw
  split at hw
  · exact Option.some.inj hw ▸ hv
  · exact hs hw

/-- What is to be written is a value that may stand in the frame, and it has a place there. -/
def Takes (s : Frame) (a : Option (Location × Value)) : Prop :=
  ∀ {l v}, a = some (l, v) → s.hasPlace l ∧ s.hasValue v

theorem Closed.perform {a : Option (Location × Value)} (hs : s.Closed) (ha : s.Takes a) :
    ∃ t, s.perform a = some t ∧ t.Closed ∧ SameShape s t := by
  cases a with
  | none => exact ⟨s, rfl, hs, .refl s⟩
  | some lv =>
    obtain ⟨l, v⟩ := lv
    obtain ⟨hl, hv⟩ := ha rfl
    obtain ⟨w, hw⟩ := hasPlace_iff.mp hl
    obtain ⟨t, ht⟩ := exists_write hw v
    exact ⟨t, ht, hs.write hv ht, sameShape_write ht⟩

end Frame

/-- No unknown id is looked up, and what is computed satisfies the condition. -/
structure Yields {α : Type} (x : Except Fault α) (P : α → Prop) : Prop where
  result : ∀ {a}, x = .ok a → P a
  known : x ≠ .error .dangling

section

variable {α β : Type} {x : Except Fault α} {f : α → Except Fault β} {P : α → Prop} {Q : β → Prop}

theorem yields_pure {a : α} (h : P a) : Yields (pure a) P :=
  ⟨fun ha => Except.ok.inj ha ▸ h, nofun⟩

theorem yields_throw {e : Fault} (he : e ≠ .dangling) : Yields (throw e) P :=
  ⟨nofun, fun h => he (Except.error.inj h)⟩

theorem yields_bind (hx : Yields x P) (hf : ∀ a, P a → Yields (f a) Q) : Yields (x >>= f) Q := by
  cases x with
  | error e => exact ⟨nofun, fun h => hx.known (congrArg _ (Except.error.inj h))⟩
  | ok a => exact hf a (hx.result rfl)

theorem yields_lift {found : Lookup α} (h : ∃ a, found = some a ∧ P a) :
    Yields (liftM found) P := by
  obtain ⟨a, rfl, ha⟩ := h
  exact yields_pure ha

end

namespace Pool

def hasField (p : Pool) (f : FieldId) : Bool := (p.field f).any fun f => (p.kind f.owner).isSome

def hasMethod (p : Pool) (m : MethodId) : Bool :=
  (p.method m).any fun m => (p.name m.name).isSome && (p.kind m.owner).isSome

end Pool

namespace Operator

variable {op : Operator} {p : Pool} {g : Graph} {s t : Frame} {v w : Value} {l : Location}

/-- Whether the pool has all that the machine looks up there to run the operator. -/
def knownTo (op : Operator) (p : Pool) (g : Graph) : Bool :=
  match op.kind with
  | .call m => p.hasMethod m
  | .loadField f | .loadFieldAddress f => p.hasField f
  | .compare _ => op.args.head?.all fun e => (g.typeOf e).any fun t => (p.kind t).isSome
  | _ => true

def FitsIn (op : Operator) (s : Frame) : Prop := ∀ x ∈ op.mentions, x.index < s.vars.size

theorem FitsIn.hasPlace_arg (hop : op.FitsIn s) {x : VarId} (hx : .var x ∈ op.args) :
    s.hasPlace (.var x) := by
  have hmem : x ∈ op.mentions :=
    List.mem_append_left _ (List.mem_filterMap.mpr ⟨_, hx, rfl⟩)
  simpa [Frame.hasPlace, Location.isIn] using hop x hmem

theorem FitsIn.hasPlace_head (hop : op.FitsIn s) {x : VarId}
    (hx : op.args.head?.bind Expr.var? = some x) : s.hasPlace (.var x) :=
  hop.hasPlace_arg (List.mem_of_mem_head? (Graph.head?_bind_var?.mp hx))

theorem FitsIn.takes_into (hop : op.FitsIn s) (hv : s.hasValue v) : s.Takes (op.into v) := by
  intro l w h
  obtain ⟨x, hx, rfl, rfl⟩ := into_eq_some.mp h
  have hmem : x ∈ op.mentions := List.mem_append_right _ (List.mem_of_mem_head? hx)
  exact ⟨by simpa [Frame.hasPlace, Location.isIn] using hop x hmem, hv⟩

theorem yields_eval (hs : s.Closed) (hop : op.FitsIn s) {e : Expr} (he : e ∈ op.args) :
    Yields (liftM (s.eval e)) fun v => s.hasValue v := by
  cases e with
  | var x =>
    obtain ⟨v, hv⟩ := Frame.hasPlace_iff.mp (hop.hasPlace_arg he)
    exact yields_lift ⟨v, hv, hs hv⟩
  | const c =>
    have hconst : s.hasValue (.ofConstant c) := by
      cases hc : c.value <;> simp [Value.ofConstant, hc] <;> rfl
    exact yields_lift ⟨_, rfl, hconst⟩

theorem yields_arg (hs : s.Closed) (hop : op.FitsIn s) (n : Nat) :
    Yields (s.arg op n) fun v => s.hasValue v := by
  unfold Frame.arg
  split
  · rename_i e he
    exact yields_eval hs hop (List.mem_of_getElem? he)
  · exact yields_throw nofun

theorem yields_target (hv : s.hasValue v) : Yields v.target fun l => s.hasPlace l := by
  cases v with
  | pointer l => exact yields_pure hv
  | null => exact yields_throw nofun
  | undefined => exact yields_throw nofun
  | bits w => exact yields_throw nofun
  | object o => exact yields_throw nofun
  | array a => exact yields_throw nofun

theorem yields_read (hs : s.Closed) (hl : s.hasPlace l) :
    Yields (liftM (s.read l)) fun v => s.hasValue v := by
  obtain ⟨v, hv⟩ := Frame.hasPlace_iff.mp hl
  exact yields_lift ⟨v, hv, hs hv⟩

theorem yields_behind (hs : s.Closed) (hv : s.hasValue v) :
    Yields (s.behind v) fun w => s.hasValue w := by
  unfold Frame.behind
  split
  · exact yields_pure hv
  · exact yields_bind (yields_target hv) fun l hl => yields_read hs hl

theorem FitsIn.yields_into {x : Except Fault Value} (hop : op.FitsIn s)
    (hx : Yields x fun v => s.hasValue v) :
    Yields (x >>= fun v => pure (op.into v)) fun a => s.Takes a :=
  yields_bind hx fun _ hv => yields_pure (hop.takes_into hv)

theorem FitsIn.yields_pointer {x : Except Fault Location} (hop : op.FitsIn s)
    (hx : Yields x fun l => s.hasPlace l) :
    Yields (x >>= fun l => pure (op.into (.pointer l))) fun a => s.Takes a := by
  refine yields_bind hx fun l hl => yields_pure (hop.takes_into ?_)
  exact hl

theorem FitsIn.yields_compareBy {test : UInt64 → UInt64 → Bool} (hop : op.FitsIn s)
    (result : Bool → Bool) :
    Yields (v.compareBy test w >>= fun equal => pure (op.into (.ofBool (result equal))))
      fun a => s.Takes a := by
  refine yields_bind (P := fun _ => True) ?_ fun _ _ => yields_pure (hop.takes_into rfl)
  unfold Value.compareBy
  split
  · exact yields_pure trivial
  · split
    · exact yields_throw nofun
    · exact yields_pure trivial

theorem takes_store (hl : s.hasPlace l) (hv : s.hasValue v) : s.Takes (some (l, v)) := by
  rintro _ _ ⟨⟩
  exact ⟨hl, hv⟩

theorem yields_elementAt (hv : s.hasValue v) : Yields (s.heap.elementAt v w) fun l => s.hasPlace l := by
  unfold Heap.elementAt
  split
  · rename_i a
    split
    · have ha : a < s.heap.arrays.size := of_decide_eq_true hv
      have helements : Yields (liftM (s.heap.elements a)) fun elements =>
          s.heap.elements a = some elements :=
        yields_lift ⟨_, Array.getElem?_eq_getElem ha, Array.getElem?_eq_getElem ha⟩
      refine yields_bind helements fun elements h => ?_
      dsimp only
      split
      · rename_i hi
        refine yields_pure ?_
        simp only [Frame.hasPlace, Location.isIn, h, Option.any_some, decide_eq_true_eq]
        omega
      · exact yields_throw nofun
    · exact yields_throw nofun
  · exact yields_throw nofun
  · exact yields_throw nofun

theorem yields_isValueField {f : FieldId} (h : p.hasField f) :
    Yields (liftM (p.isValueField f)) fun _ => True := by
  obtain ⟨field, hfield, howner⟩ := Option.any_eq_true _ _ |>.mp h
  obtain ⟨kind, hkind⟩ := Option.isSome_iff_exists.mp howner
  have hscalar : p.isValueField f = some kind.scalar?.isSome := by
    simp [Pool.isValueField, Pool.isScalar, Pool.scalarOf, hfield, hkind]
  exact yields_lift ⟨_, hscalar, trivial⟩

theorem yields_scalarOf {t : TypeId} (h : (p.kind t).isSome) :
    Yields (liftM (p.scalarOf t)) fun _ => True := by
  obtain ⟨kind, hkind⟩ := Option.isSome_iff_exists.mp h
  exact yields_lift ⟨kind.scalar?, by simp [Pool.scalarOf, hkind], trivial⟩

theorem yields_readField {f : FieldId} (hs : s.Closed) (hv : s.hasValue v)
    (hf : p.hasField f) :
    Yields (p.readField s v f) fun v => s.hasValue v := by
  refine yields_bind (yields_isValueField hf) fun scalar _ => ?_
  split
  · exact yields_throw nofun
  · rename_i o
    have hplace : s.hasPlace (.field o f) := hv
    exact yields_read hs hplace
  · exact yields_read hs hv
  · exact yields_pure rfl
  · exact yields_throw nofun

theorem yields_fieldPlace {f : FieldId} (hop : op.FitsIn s) (hv : s.hasValue v)
    (hf : p.hasField f) :
    Yields (p.fieldPlace op v f) fun l => s.hasPlace l := by
  unfold Pool.fieldPlace
  split
  · exact yields_pure hv
  · exact yields_throw nofun
  · refine yields_bind (yields_isValueField hf) fun scalar _ => ?_
    split
    · exact yields_pure hv
    · exact yields_throw nofun
  · split
    · rename_i x hx
      exact yields_pure (hop.hasPlace_head hx)
    · exact yields_throw nofun
  · exact yields_throw nofun

/-- A method of a wrapper stores its second argument through the first, or gives a truth value. -/
theorem yields_callAction {m : MethodId} (hs : s.Closed) (hop : op.FitsIn s)
    (hm : p.hasMethod m) : Yields (op.callAction p m s) fun a => s.Takes a := by
  obtain ⟨method, hmethod, hknown⟩ := Option.any_eq_true _ _ |>.mp hm
  obtain ⟨hname, howner⟩ := Bool.and_eq_true_iff.mp hknown
  obtain ⟨name, hname⟩ := Option.isSome_iff_exists.mp hname
  unfold callAction
  refine yields_bind (yields_lift ⟨method, hmethod, rfl⟩) fun m' hm' => ?_
  subst hm'
  refine yields_bind (yields_lift ⟨name, hname, rfl⟩) fun name' hname' => ?_
  refine yields_bind (yields_scalarOf howner) fun kind _ => ?_
  cases kind with
  | none => exact yields_throw nofun
  | some kind =>
    dsimp only
    split
    · refine yields_bind (yields_arg hs hop 0) fun this hthis => ?_
      refine yields_bind (yields_target hthis) fun l hl => ?_
      exact yields_bind (yields_arg hs hop 1) fun value hvalue => yields_pure (takes_store hl hvalue)
    · refine yields_bind (yields_arg hs hop 0) fun receiver hreceiver => ?_
      refine yields_bind (yields_behind hs hreceiver) fun this _ => ?_
      exact yields_bind (yields_arg hs hop 1) fun value _ => hop.yields_compareBy id
    · refine yields_bind (yields_arg hs hop 1) fun left _ => ?_
      exact yields_bind (yields_arg hs hop 2) fun right _ => hop.yields_compareBy id
    · refine yields_bind (yields_arg hs hop 1) fun left _ => ?_
      exact yields_bind (yields_arg hs hop 2) fun right _ => hop.yields_compareBy not
    · exact yields_throw nofun

theorem yields_comparedKind {c : Condition} (hkind : op.kind = .compare c)
    (hknown : op.knownTo p g) : Yields (liftM (op.comparedKind p g)) fun _ => True := by
  simp only [knownTo, hkind] at hknown
  cases he : op.args.head? with
  | none => exact yields_lift ⟨none, by simp only [comparedKind, he], trivial⟩
  | some e =>
    simp only [he, Option.all_some] at hknown
    obtain ⟨t, ht, htype⟩ := Option.any_eq_true _ _ |>.mp hknown
    obtain ⟨kind, hkind⟩ := Option.isSome_iff_exists.mp htype
    exact yields_lift ⟨kind.scalar?, by simp [comparedKind, he, ht, Pool.scalarOf, hkind], trivial⟩

/-- In a closed frame, an operator that fits there and is known to the pool writes a value that
may stand in the frame to a place that exists. -/
theorem yields_action (hs : s.Closed) (hop : op.FitsIn s) (hknown : op.knownTo p g) :
    Yields (op.action p g s) fun a => s.Takes a := by
  have harg := yields_arg hs hop
  unfold action
  cases hkind : op.kind with
  | call m => exact yields_callAction hs hop (by simpa only [knownTo, hkind] using hknown)
  | loadField f =>
    refine yields_bind (harg 0) fun v hv => hop.yields_into (yields_readField hs hv ?_)
    simpa only [knownTo, hkind] using hknown
  | loadStatic f =>
    have hread : s.read (.static f) = some (s.heap.static f) := rfl
    exact yields_pure (hop.takes_into (hs hread))
  | loadFieldAddress f =>
    refine yields_bind (harg 0) fun v hv => hop.yields_pointer (yields_fieldPlace hop hv ?_)
    simpa only [knownTo, hkind] using hknown
  | loadStaticAddress f => exact yields_pure (hop.takes_into rfl)
  | storeField f =>
    refine yields_bind (harg 0) fun object hobject => yields_bind (harg 1) fun value hvalue => ?_
    split
    · rename_i o
      have hplace : s.hasPlace (.field o f) := hobject
      exact yields_pure (takes_store hplace hvalue)
    · exact yields_throw nofun
    · exact yields_throw nofun
  | loadElement =>
    refine yields_bind (harg 0) fun array harray => yields_bind (harg 1) fun index _ => ?_
    exact yields_bind (yields_elementAt harray) fun l hl => hop.yields_into (yields_read hs hl)
  | loadElementAddress =>
    refine yields_bind (harg 0) fun array harray => yields_bind (harg 1) fun index _ => ?_
    exact hop.yields_pointer (yields_elementAt harray)
  | addressOf =>
    dsimp only
    split
    · rename_i x hx
      have hpointer : s.hasValue (.pointer (.var x)) := hop.hasPlace_head hx
      exact yields_pure (hop.takes_into hpointer)
    · exact yields_throw nofun
  | loadIndirect t =>
    refine yields_bind (harg 0) fun v hv => yields_bind (yields_target hv) fun l hl => ?_
    exact hop.yields_into (yields_read hs hl)
  | storeIndirect =>
    refine yields_bind (harg 0) fun v hv => yields_bind (yields_target hv) fun l hl => ?_
    exact yields_bind (harg 1) fun w hw => yields_pure (takes_store hl hw)
  | copy => exact hop.yields_into (harg 0)
  | compare c =>
    refine yields_bind (yields_comparedKind hkind hknown) fun kind _ => ?_
    refine yields_bind (harg 0) fun left _ => yields_bind (harg 1) fun right _ => ?_
    exact hop.yields_compareBy c.holds
  | nop => exact yields_pure nofun
  | jump b => exact yields_pure nofun
  | branch b b' => exact yields_pure nofun
  | ret => exact yields_pure nofun

theorem yields_control (hs : s.Closed) (hop : op.FitsIn s) :
    Yields (op.control s) fun c => ∀ b, c = .goto b → b ∈ op.targets := by
  unfold control
  split
  · rename_i b hkind
    refine yields_pure ?_
    rintro _ ⟨⟩
    simp [targets, OpKind.targets, hkind]
  · rename_i onTrue onFalse hkind
    refine yields_bind (yields_arg hs hop 0) fun v _ => ?_
    split
    · refine yields_pure ?_
      rintro _ ⟨⟩
      simp only [targets, OpKind.targets, hkind]
      split <;> simp
    · exact yields_throw (by simp)
  · split
    · rename_i e he
      refine yields_bind (yields_eval hs hop (List.mem_of_mem_head? he)) fun v _ => ?_
      exact yields_pure (by simp)
    · exact yields_pure (by simp)
  · exact yields_pure (by simp)

/-- One step keeps the frame closed and in shape. -/
theorem yields_step (hs : s.Closed) (hop : op.FitsIn s) (hknown : op.knownTo p g) :
    Yields (op.step p g s) fun r => r.2.Closed ∧ s.SameShape r.2 ∧
      ∀ b, r.1 = .goto b → b ∈ op.targets := by
  have heffect : Yields (op.effect p g s) fun t => t.Closed ∧ s.SameShape t := by
    rw [effect_eq_action]
    exact yields_bind (yields_action hs hop hknown) fun a ha => yields_lift (hs.perform ha)
  refine yields_bind (yields_control hs hop) fun control hcontrol => ?_
  exact yields_bind heffect fun t ⟨hclosed, hshape⟩ => yields_pure ⟨hclosed, hshape, hcontrol⟩

end Operator

namespace Frame

/-- The run that starts in the frame misses nothing that it looks up, stays in the blocks, and
leaves the heap in shape. -/
def EndsWell (s : Frame) : Except RunError Outcome → Prop
  | .error e => e.isDangling = false ∧ ∀ b, e ≠ .fellOffBlock b
  | .ok out => s.SameShape out.toFrame

theorem SameShape.endsWell {s t : Frame} {r : Except RunError Outcome} (h : s.SameShape t)
    (hr : t.EndsWell r) : s.EndsWell r := by
  cases r with
  | error e => exact hr
  | ok out => exact h.trans hr

end Frame

namespace Graph

variable {g : Graph} {p : Pool} {s : Frame} {b : BlockId} {block : Block} {pre ids : List OpId}

/-- What a run relies on in the blocks that can be reached. -/
structure Runnable (g : Graph) (p : Pool) : Prop where
  last : ∀ {b block}, g.block b = some block → block.reachable →
    ∃ id op, block.ops.getLast? = some id ∧ g.op id = some op ∧ op.isControl
  listed : ∀ {b block id}, g.block b = some block → block.reachable → id ∈ block.ops →
    ∃ op, g.op id = some op ∧ (∀ x ∈ op.mentions, x.index < g.vars.size) ∧ op.knownTo p g ∧
      ∀ t ∈ op.targets, ∃ target, g.block t = some target ∧ target.reachable

theorem runnable_of_verify (hverify : g.verify = .ok ())
    (htargets : ∀ {b block id op t target}, g.block b = some block → block.reachable →
      id ∈ block.ops → g.op id = some op → t ∈ op.targets → g.block t = some target →
      target.reachable)
    (hknown : ∀ {b block id op}, g.block b = some block → block.reachable → id ∈ block.ops →
      g.op id = some op → op.knownTo p g) : g.Runnable p := by
  refine ⟨fun hb hr => ?_, fun {b block id} hb hr hid => ?_⟩
  · obtain ⟨last, op, hlast, -, hop, hc⟩ := checkBlock_eq_ok.mp (verify_eq_ok.mp hverify _ _ hb hr)
    exact ⟨last, op, hlast, hop, hc⟩
  · obtain ⟨last, -, -, hlisted, -⟩ := checkBlock_eq_ok.mp (verify_eq_ok.mp hverify _ _ hb hr)
    obtain ⟨op, hop, -, -, hcheck⟩ := checkListed_eq_ok.mp (hlisted id hid)
    obtain ⟨-, -, hexist, hlive, -⟩ := checkOperator_eq_ok.mp hcheck
    refine ⟨op, hop, fun x hx => ?_, hknown hb hr hid hop, fun t ht => ?_⟩
    · obtain ⟨info, hinfo, -⟩ := hlive x hx
      exact (Array.getElem?_eq_some_iff.mp hinfo).1
    · obtain ⟨target, htarget⟩ := exists_block (hexist t ht)
      exact ⟨target, htarget, htargets hb hr hid hop ht htarget⟩

theorem Runnable.ops_ne_nil (hg : g.Runnable p) (hb : g.block b = some block)
    (hr : block.reachable) : block.ops ≠ [] := by
  obtain ⟨id, op, hlast, -⟩ := hg.last hb hr
  rintro hnil
  simp [hnil] at hlast

theorem Runnable.rest_ne_nil (hg : g.Runnable p) (hb : g.block b = some block)
    (hr : block.reachable) {id : OpId} (hids : block.ops = pre ++ id :: ids) {op : Operator}
    (hop : g.op id = some op) (hnext : op.control s = .ok .next) : ids ≠ [] := by
  rintro rfl
  obtain ⟨last, op', hlast, hop', hc⟩ := hg.last hb hr
  obtain rfl : id = last := by simpa [hids] using hlast
  obtain rfl : op = op' := Option.some.inj (hop.symm.trans hop')
  exact Operator.control_ne_next hc hnext

/-- A run from within a block that can be reached. -/
theorem Runnable.endsWell_runFrom (hg : g.Runnable p) (fuel : Nat) {left : Nat}
    (hb : g.block b = some block) (hr : block.reachable) (hids : block.ops = pre ++ ids)
    (hne : ids ≠ []) (hs : s.Closed) (hsize : s.vars.size = g.vars.size) :
    s.EndsWell (g.runFrom p fuel left b ids s) := by
  -- The invariant is that the frame is closed and that some operator of the block is still to run.
  induction left generalizing b block pre ids s with
  | zero =>
    obtain ⟨id, rest, rfl⟩ := List.exists_cons_of_ne_nil hne
    exact ⟨rfl, nofun⟩
  | succ left ih =>
    obtain ⟨id, rest, rfl⟩ := List.exists_cons_of_ne_nil hne
    obtain ⟨op, hop, hmentions, hknown, htargets⟩ :=
      hg.listed hb hr (hids ▸ List.mem_append_right pre List.mem_cons_self)
    have hfits : op.FitsIn s := fun x hx => hsize ▸ hmentions x hx
    have hstep := Operator.yields_step hs hfits hknown
    unfold runFrom
    rw [hop]
    dsimp only
    split
    · rename_i cause hcause
      refine ⟨?_, nofun⟩
      cases cause with
      | dangling => exact absurd hcause hstep.known
      | _ => rfl
    · rename_i t ht
      obtain ⟨hclosed, hshape, -⟩ := hstep.result ht
      have hnext := hg.rest_ne_nil hb hr hids hop (Operator.step_eq_ok.mp ht).1
      have hids : block.ops = (pre ++ [id]) ++ rest := by simp [hids]
      exact hshape.endsWell (ih hb hr hids hnext hclosed (hshape.vars.trans hsize))
    · rename_i returned t ht
      exact (hstep.result ht).2.1
    · rename_i target t ht
      obtain ⟨hclosed, hshape, hgoto⟩ := hstep.result ht
      obtain ⟨block', hb', hr'⟩ := htargets target (hgoto target rfl)
      rw [hb']
      exact hshape.endsWell (ih hb' hr' (List.nil_append _).symm (hg.ops_ne_nil hb' hr') hclosed
        (hshape.vars.trans hsize))

theorem size_initial (args : List Value) (heap : Heap) :
    (g.initial args heap).vars.size = g.vars.size := by
  simp [initial, length_initialVars]

/-- The first frame is closed if the arguments and the heap are. -/
theorem closed_initial {args : List Value} {heap : Heap}
    (hargs : ∀ v ∈ args, v.isIn g.vars.size heap) (hheap : heap.isClosed g.vars.size) :
    (g.initial args heap).Closed := by
  intro l v hv
  obtain ⟨hrest, hstatics⟩ := Bool.and_eq_true_iff.mp hheap
  obtain ⟨hobjects, harrays⟩ := Bool.and_eq_true_iff.mp hrest
  rw [Frame.hasValue, size_initial]
  show v.isIn g.vars.size heap
  cases l with
  | var x =>
    have hmem : v ∈ initialVars g.vars.toList args := by
      simpa [initial] using Array.mem_of_getElem? hv
    obtain rfl | hv := mem_initialVars hmem
    · rfl
    · exact hargs v hv
  | field o f =>
    obtain ⟨fields, hfields, rfl⟩ := Option.map_eq_some_iff.mp hv
    exact Fields.get_of_all (List.all_eq_true.mp hobjects fields
      (Array.mem_of_getElem? hfields).val) rfl f
  | static f => exact Option.some.inj hv ▸ Fields.get_of_all hstatics rfl f
  | element a i =>
    obtain ⟨elements, helements, hi⟩ := Option.bind_eq_some_iff.mp hv
    have hall := List.all_eq_true.mp harrays elements (Array.mem_of_getElem? helements).val
    exact List.all_eq_true.mp hall v (Array.mem_of_getElem? hi).val

/-- A verified graph does not go wrong when it runs: what it looks up exists, it does not run past
the end of a block, and it leaves as many objects and arrays, of the same lengths, as it found. -/
theorem verified_runs_safe {args : List Value} {heap : Heap} (fuel : Nat)
    (hverify : g.verify = .ok ())
    (hentry : ∃ block, g.block g.entry = some block ∧ block.reachable)
    (htargets : ∀ {b block id op t target}, g.block b = some block → block.reachable →
      id ∈ block.ops → g.op id = some op → t ∈ op.targets → g.block t = some target →
      target.reachable)
    (hknown : ∀ {b block id op}, g.block b = some block → block.reachable → id ∈ block.ops →
      g.op id = some op → op.knownTo p g)
    (hargs : ∀ v ∈ args, v.isIn g.vars.size heap) (hheap : heap.isClosed g.vars.size) :
    (∀ e, g.run p args heap fuel = .error e → e.isDangling = false ∧ ∀ b, e ≠ .fellOffBlock b) ∧
    ∀ out, g.run p args heap fuel = .ok out → out.heap.objects.size = heap.objects.size ∧
      out.heap.arrays.size = heap.arrays.size ∧
      out.heap.arrays.map Array.size = heap.arrays.map Array.size := by
  have hg := runnable_of_verify hverify htargets hknown
  have hends : (g.initial args heap).EndsWell (g.run p args heap fuel) := by
    obtain ⟨block, hb, hr⟩ := hentry
    unfold run
    split
    · exact ⟨rfl, nofun⟩
    · rw [hb]
      exact hg.endsWell_runFrom fuel hb hr (List.nil_append _).symm (hg.ops_ne_nil hb hr)
        (closed_initial hargs hheap) (size_initial args heap)
  refine ⟨fun e he => ?_, fun out hout => ?_⟩
  · rw [he] at hends
    exact hends
  · rw [hout] at hends
    have harrays : out.heap.arrays.map Array.size = heap.arrays.map Array.size := hends.arrays
    exact ⟨hends.objects, by simpa using congrArg Array.size harrays, harrays⟩

/-- Sets the first element of an array through its address until it reads the value back. -/
def setFirst : Graph :=
  let zero := .const (.int (.ofScalar .i32) 0)
  let seven := .const (.int (.ofScalar .i32) 7)
  (empty "f").changed
    [.addVar .argument ⟨14⟩, .addVar .local ⟨15⟩, .addVar .local (.ofScalar .i32),
      .addVar .local (.ofScalar .bool), .addBlock, .addBlock,
      .append ⟨0⟩ (.loadElementAddress ⟨1⟩ (.var ⟨0⟩) zero),
      .append ⟨0⟩ (.storeIndirect (.var ⟨1⟩) seven true), .append ⟨0⟩ (.jump ⟨1⟩),
      .append ⟨1⟩ (.loadElement ⟨2⟩ (.var ⟨0⟩) zero),
      .append ⟨1⟩ (.compare .eq ⟨3⟩ (.var ⟨2⟩) seven),
      .append ⟨1⟩ (.branch (.var ⟨3⟩) ⟨2⟩ ⟨0⟩), .append ⟨2⟩ (.ret (some (.var ⟨2⟩)))]

def cyclicArray : Heap := { arrays := #[#[.null, .array 0]] }

theorem verified_runs_safe_setFirst :
    ∃ out, setFirst.run Pool.new [.array 0] cyclicArray 100 = .ok out ∧
      out.returned = some (.bits 7) ∧ out.heap.arrays.map Array.size = #[2] := by
  have hreachable : ∀ block ∈ setFirst.blocks, block.reachable := by decide
  have hknown : ∀ op ∈ setFirst.ops, op.knownTo Pool.new setFirst := by decide
  have hargs : ∀ v ∈ [Value.array 0], v.isIn setFirst.vars.size cyclicArray := by decide
  have hsafe := verified_runs_safe 100 (by decide) ⟨_, rfl, by decide⟩
    (fun _ _ _ _ _ htarget => hreachable _ (Array.mem_of_getElem? htarget))
    (fun _ _ _ hop => hknown _ (Array.mem_of_getElem? hop)) hargs (by decide)
  obtain ⟨out, hout, hreturned⟩ : ∃ out, setFirst.run Pool.new [.array 0] cyclicArray 100 = .ok out ∧
      out.returned = some (.bits 7) := ⟨_, rfl, rfl⟩
  exact ⟨out, hout, hreturned, (hsafe.2 out hout).2.2.trans (by simp [cyclicArray])⟩

end Graph
end ScalarLowering
