import ScalarLowering.Proofs.Construction

/-! Who writes a variable in the course of a run. An operator writes its result or, if it is an
indirect store or a constructor, what its first operand points at. A variable therefore changes
behind its definitions only where such an operator gets hold of a pointer to it, and it never does
where all pointers to the variable are only read through. -/

namespace ScalarLowering

namespace Operator

variable {op : Operator} {p : Pool} {g : Graph} {s : Frame} {x : VarId} {v : Value}

/-- Indirect stores and constructors write through their first operand. -/
def storesThrough (op : Operator) (p : Pool) : Bool :=
  match op.kind with
  | .storeIndirect => true
  | .call m => (p.method m).any (·.kind = .ctor)
  | _ => false

def StoresTo (op : Operator) (p : Pool) (s : Frame) (x : VarId) : Prop :=
  op.storesThrough p ∧ s.arg op 0 = .ok (.pointer (.var x))

theorem passes_of_storesThrough (h : op.storesThrough p) : op.Passes p := by
  unfold storesThrough at h
  split at h
  · rename_i hkind
    intro y
    simp [Pool.readsThrough, hkind]
  · rename_i m hkind
    obtain ⟨method, hm, hctor⟩ := Option.any_eq_true _ _ |>.mp h
    exact passes_of_ctor hkind hm (by simp [of_decide_eq_true hctor])
  · cases h

theorem result?_or_storesTo (h : op.action p g s = .ok (some (.var x, v))) :
    op.result? = some x ∨ op.StoresTo p s x := by
  by_cases hdefines : op.definesOnly
  · obtain hnone | ⟨w, hinto⟩ := action_of_definesOnly hdefines h
    · cases hnone
    · obtain ⟨r, hr, hl, -⟩ := into_eq_some.mp hinto.symm
      exact .inl (Location.var.inj hl ▸ hr)
  · cases hkind : op.kind with
    | call m =>
      rw [action, hkind] at h
      obtain ⟨b, h⟩ | ⟨method, hm, hctor, harg, -⟩ := callAction_cases h
      · obtain ⟨r, hr, hl, -⟩ := into_eq_some.mp h
        exact .inl (Location.var.inj hl ▸ hr)
      · exact .inr ⟨by simp [storesThrough, hkind, hm, hctor], harg⟩
    | storeField f =>
      simp only [action, hkind, Except.bind_eq_ok] at h
      obtain ⟨object, -, value, -, h⟩ := h
      cases object <;> simp at h
    | storeIndirect =>
      simp only [action, hkind, Except.bind_eq_ok, Except.pure_eq_ok, target_eq_ok,
        Option.some.injEq, Prod.mk.injEq] at h
      obtain ⟨_, harg, _, rfl, w, -, rfl, -⟩ := h
      exact .inr ⟨by simp [storesThrough, hkind], harg⟩
    | jump b => simp [action, hkind] at h
    | branch b c => simp [action, hkind] at h
    | ret => simp [action, hkind] at h
    | _ => simp [definesOnly, hkind] at hdefines

end Operator

/-- The variable is undefined or holds the address of `x`. -/
def Frame.HoldsAddress (s : Frame) (q x : VarId) : Prop :=
  s.read (.var q) = some .undefined ∨ s.read (.var q) = some (.pointer (.var x))

namespace Graph

/-- A run of the graph comes to the operators `ids`, the rest of a block, in the frame, and every
operator that it has run was as `T` says in the frame it met. -/
inductive Visits (g : Graph) (p : Pool) (T : Operator → Frame → Prop) (args : List Value) (heap : Heap) :
    List OpId → Frame → Prop
  | start {block : Block} : g.block g.entry = some block →
    Visits g p T args heap block.ops (g.initial args heap)
  | next {id : OpId} {ids : List OpId} {op : Operator} {s t : Frame} :
    Visits g p T args heap (id :: ids) s → g.op id = some op → T op s →
    op.step p g s = .ok (.next, t) → Visits g p T args heap ids t
  | goto {id : OpId} {ids : List OpId} {op : Operator} {s t : Frame} {b : BlockId} {block : Block} :
    Visits g p T args heap (id :: ids) s → g.op id = some op → T op s →
    op.step p g s = .ok (.goto b, t) → g.block b = some block →
    Visits g p T args heap block.ops t

variable {g g₁ : Graph} {p : Pool} {c : Chains} {T : Operator → Frame → Prop} {args : List Value}
  {heap : Heap} {id : OpId} {ids : List OpId} {op : Operator} {s t : Frame} {q x : VarId}
  {a : Option (Location × Value)}

theorem Visits.mem_attached (h : g.Visits p T args heap ids s) : ∀ id ∈ ids, id ∈ g.attached := by
  induction h with
  | start hb => exact fun id hid => Graph.mem_attached.mpr ⟨_, _, hb, hid⟩
  | next _ _ _ _ ih => exact fun id hid => ih id (List.mem_cons_of_mem _ hid)
  | goto _ _ _ _ hb _ => exact fun id hid => Graph.mem_attached.mpr ⟨_, _, hb, hid⟩

/-- What holds at the start and is kept by every step holds at every moment. -/
theorem Visits.keeps {I : Frame → Prop} (h : g.Visits p T args heap ids s)
    (hstart : I (g.initial args heap))
    (hstep : ∀ {id op s t a}, id ∈ g.attached → g.op id = some op → T op s → I s →
      op.action p g s = .ok a → s.perform a = some t → I t) : I s := by
  induction h with
  | start _ => exact hstart
  | next hvisits hop hT hok ih =>
    obtain ⟨-, a, ha, ht⟩ := Operator.step_eq_ok.mp hok
    exact hstep (hvisits.mem_attached _ List.mem_cons_self) hop hT ih ha ht
  | goto hvisits hop hT hok _ ih =>
    obtain ⟨-, a, ha, ht⟩ := Operator.step_eq_ok.mp hok
    exact hstep (hvisits.mem_attached _ List.mem_cons_self) hop hT ih ha ht

/-- Every frame of a run is met at one of its moments. -/
theorem visits_of_mem_trace {fuel : Nat} (h : s ∈ g.trace p args heap fuel) :
    ∃ ids, g.Visits p (fun _ _ => True) args heap ids s := by
  have hfrom : ∀ {left ids u}, g.Visits p (fun _ _ => True) args heap ids u →
      s ∈ g.traceFrom p left ids u → ∃ ids, g.Visits p (fun _ _ => True) args heap ids s := by
    intro left
    induction left with
    | zero =>
      intro ids u _ hs
      cases ids <;> simp [traceFrom] at hs
    | succ left ih =>
      intro ids u hvisits hs
      cases ids with
      | nil => simp [traceFrom] at hs
      | cons id ids =>
        simp only [traceFrom, List.mem_cons] at hs
        obtain rfl | hs := hs
        · exact ⟨_, hvisits⟩
        cases hop : g.op id with
        | none => simp [hop] at hs
        | some op =>
          cases hstep : op.step p g u with
          | error cause => simp [hop, hstep] at hs
          | ok result =>
            obtain ⟨control, t⟩ := result
            simp only [hop, hstep] at hs
            cases control with
            | next => exact ih (hvisits.next hop .intro hstep) hs
            | goto b =>
              cases hb : g.block b with
              | none => simp [hb] at hs
              | some block =>
                simp only [hb, Option.elim_some] at hs
                exact ih (hvisits.goto hop .intro hstep hb) hs
            | done returned =>
              obtain ⟨hcontrol, a, ha, ht⟩ := Operator.step_eq_ok.mp hstep
              obtain rfl := frame_of_control hcontrol (by simp) ha ht
              obtain rfl := List.mem_singleton.mp hs
              exact ⟨_, hvisits⟩
  unfold trace at h
  cases hb : g.block g.entry with
  | none => simp [hb] at h
  | some block =>
    simp only [hb, Option.elim_some] at h
    exact hfrom (.start hb) h

/-- Every address that is taken of the variable is only read through. -/
def AddressReadOnly (g : Graph) (p : Pool) (x : VarId) : Prop :=
  ∀ id ∈ g.attached, ∀ op ∈ g.op id, op.kind = .addressOf → op.args.head? = some (.var x) →
    ∀ r ∈ op.result?, g.OnlyReadThrough p r

instance (g : Graph) (p : Pool) (x : VarId) : Decidable (g.AddressReadOnly p x) :=
  inferInstanceAs (Decidable (∀ id ∈ g.attached, ∀ op ∈ g.op id, op.kind = .addressOf →
    op.args.head? = some (.var x) → ∀ r ∈ op.result?, g.OnlyReadThrough p r))

theorem OnlyReadThrough.not_passes (h : g.OnlyReadThrough p q) (hid : id ∈ g.attached)
    (hop : g.op id = some op) (hpasses : op.Passes p) : .var q ∉ op.args :=
  fun hq => hpasses q (h id (mem_readers_of_reads hid hop (Operator.mem_reads_of_mem hq)) op hop)

/-- Pointers to the variable are in variables that are only read through, and nothing points to
those. -/
structure Confined (g : Graph) (p : Pool) (x : VarId) (s : Frame) : Prop where
  held : ∀ {l}, s.read l = some (.pointer (.var x)) → ∃ q, l = .var q ∧ g.OnlyReadThrough p q
  unpointed : ∀ {q}, g.OnlyReadThrough p q → s.Unpointed q

theorem confined_initial (hclean : Clean args heap) : g.Confined p x (g.initial args heap) :=
  ⟨fun h => absurd h (read_initial_ne_pointer hclean), fun _ _ => read_initial_ne_pointer hclean⟩

theorem Confined.eval_ne (hs : g.Confined p x s) (hid : id ∈ g.attached) (hop : g.op id = some op)
    (hpasses : op.Passes p) {e : Expr} (he : e ∈ op.args) : s.eval e ≠ some (.pointer (.var x)) := by
  intro hv
  obtain ⟨y, rfl, hy⟩ := eval_eq_pointer hv
  obtain ⟨q, hq, honly⟩ := hs.held hy
  obtain rfl := Location.var.inj hq
  exact honly.not_passes hid hop hpasses he

theorem Confined.not_storesTo (hs : g.Confined p x s) (hid : id ∈ g.attached)
    (hop : g.op id = some op) : ¬op.StoresTo p s x := by
  rintro ⟨hstores, harg⟩
  obtain ⟨e, he, hv⟩ := Operator.mem_of_arg harg
  exact hs.eval_ne hid hop (Operator.passes_of_storesThrough hstores) he hv

/-- No step lets a pointer out if every address that it takes of the variable is only read
through. -/
theorem Confined.step (hs : g.Confined p x s) (hx : g.AddressReadOnly p x) (hid : id ∈ g.attached)
    (hop : g.op id = some op)
    (hfield : ∀ f r w, op.TakesField s f r x w → g.OnlyReadThrough p r)
    (ha : op.action p g s = .ok a) (ht : s.perform a = some t) : g.Confined p x t := by
  refine ⟨fun {l'} hl' => ?_, fun {q} hq => ?_⟩
  · rcases a with _ | ⟨l, v⟩
    · obtain rfl := Option.some.inj ht
      exact hs.held hl'
    rw [Frame.read_perform ht] at hl'
    split at hl'
    case isFalse => exact hs.held hl'
    rename_i heq
    subst heq
    obtain rfl := Option.some.inj hl'
    cases Operator.emits_of_action ha with
    | address hkind hhead hr => exact ⟨_, rfl, hx id hid op hop hkind hhead _ hr⟩
    | field h => exact ⟨_, rfl, hfield _ _ _ h⟩
    | operand he hv hpasses => exact absurd hv (hs.eval_ne hid hop hpasses he)
    | content hv hwhere =>
      obtain ⟨q, rfl, honly⟩ := hs.held hv
      obtain hheap | ⟨e, -, he⟩ := hwhere
      · exact absurd rfl (hheap q)
      · obtain ⟨y, -, hy⟩ := eval_eq_pointer he
        exact absurd hy (hs.unpointed honly _)
  · -- taking an address does more than to read through it
    have hhead : op.Passes p → op.args.head? ≠ some (.var q) := fun hpasses h =>
      hq.not_passes hid hop hpasses (List.mem_of_mem_head? h)
    exact (hs.unpointed hq).step (fun hkind => hhead fun y => by simp [Pool.readsThrough, hkind])
      (fun f r w h => hhead (fun y => by simp [Pool.readsThrough, h.kind]) h.head) ha ht

/-- A variable whose one definition takes an address holds it, unless a store has reached it. -/
theorem holdsAddress_step {d : OpId} {source : Operator} (hd : g.definers q = [d])
    (hsource : g.op d = some source) (hkind : source.kind = .addressOf)
    (hhead : source.args.head? = some (.var x)) (hs : s.HoldsAddress q x) (hid : id ∈ g.attached)
    (hop : g.op id = some op) (hstores : ¬op.StoresTo p s q) (ha : op.action p g s = .ok a)
    (ht : s.perform a = some t) : t.HoldsAddress q x := by
  rcases a with _ | ⟨l, v⟩
  · obtain rfl := Option.some.inj ht
    exact hs
  unfold Frame.HoldsAddress
  rw [Frame.read_perform ht]
  split
  case isFalse => exact hs
  rename_i heq
  subst heq
  have hresult := (Operator.result?_or_storesTo ha).resolve_right hstores
  obtain rfl : id = d := by simpa [hd] using mem_definers_of_result? hid hop hresult
  obtain rfl := Option.some.inj (hsource.symm.trans hop)
  exact .inr (by rw [eq_pointer_of_addressOf hkind hhead ha])

/-- A local whose one definition takes the address of `x` is undefined or holds that address for as
long as nothing has been stored through a pointer to the local. Where every address of the local is
only read through, this is so at every moment. -/
theorem holdsAddress_of_visits {d : OpId} {source : Operator} {info : Variable}
    (hinfo : g.var q = some info) (harg : info.isArgument = false) (hd : g.definers q = [d])
    (hsource : g.op d = some source) (hkind : source.kind = .addressOf)
    (hhead : source.args.head? = some (.var x)) (hclean : Clean args heap) :
    (∀ {ids s}, g.Visits p (fun op s => ¬op.StoresTo p s q) args heap ids s → s.HoldsAddress q x) ∧
      (g.AddressReadOnly p q → ∀ {ids s}, g.Visits p (fun _ _ => True) args heap ids s →
        s.HoldsAddress q x) := by
  have hstart : (g.initial args heap).HoldsAddress q x := .inl (read_initial hinfo harg)
  refine ⟨fun hvisits => ?_, fun hreadOnly ids s hvisits => ?_⟩
  · exact hvisits.keeps hstart fun hid hop hstores hs ha ht =>
      holdsAddress_step hd hsource hkind hhead hs hid hop hstores ha ht
  · refine (hvisits.keeps (I := fun s => g.Confined p q s ∧ s.HoldsAddress q x)
      ⟨confined_initial hclean, hstart⟩ ?_).2
    rintro id op s t a hid hop - ⟨hconfined, hheld⟩ ha ht
    refine ⟨hconfined.step hreadOnly hid hop (fun f r w hfield => ?_) ha ht,
      holdsAddress_step hd hsource hkind hhead hheld hid hop (hconfined.not_storesTo hid hop) ha ht⟩
    obtain h | h := hheld <;> simp [hfield.value] at h

open Edit (wrapperPool constructed)

def pointerPool : Pool := (wrapperPool.pointerTo ⟨14⟩).2

/-- The pointer that a wrapper is constructed through is read by way of its own address. -/
def readAddress : Graph := (constructed (.addressOf ⟨1⟩ ⟨0⟩)).changed
  [.addVar .local ⟨15⟩, .addVar .local ⟨14⟩, .append ⟨0⟩ (.addressOf ⟨2⟩ ⟨1⟩),
    .append ⟨0⟩ (.loadIndirect ⟨14⟩ ⟨3⟩ (.var ⟨2⟩) false),
    .append ⟨0⟩ (.storeIndirect (.var ⟨3⟩) (.const (.int (.ofScalar .i32) 6)) false),
    .append ⟨0⟩ (.ret (some (.var ⟨0⟩)))]

theorem holdsAddress_of_visits_readAddress : readAddress.AddressReadOnly pointerPool ⟨1⟩ ∧
    readAddress.answer? pointerPool [] .empty 6 = some (some (.bits 6), 6) ∧
    ∀ s ∈ readAddress.trace pointerPool [] .empty 6, s.HoldsAddress ⟨1⟩ ⟨0⟩ := by
  have hreadOnly : readAddress.AddressReadOnly pointerPool ⟨1⟩ := by decide +kernel
  have hd : readAddress.definers ⟨1⟩ = [⟨0⟩] := by decide +kernel
  obtain ⟨info, hinfo, harg⟩ : ∃ info, readAddress.var ⟨1⟩ = some info ∧ info.isArgument = false :=
    ⟨_, rfl, rfl⟩
  obtain ⟨source, hsource, hkind, hhead⟩ : ∃ source, readAddress.op ⟨0⟩ = some source ∧
    source.kind = .addressOf ∧ source.args.head? = some (.var ⟨0⟩) := ⟨_, rfl, rfl, rfl⟩
  refine ⟨hreadOnly, by decide +kernel, fun s hs => ?_⟩
  obtain ⟨ids, hvisits⟩ := visits_of_mem_trace hs
  exact (holdsAddress_of_visits hinfo harg hd hsource hkind hhead
    (clean_of_stored (by decide))).2 hreadOnly hvisits

/-- The pointer that a wrapper is constructed through is moved on to another variable, by a store
through its own address. -/
def movedPointer : Graph := (Graph.empty "f").changed
  [.addVar .local (.ofScalar .i32), .addVar .local (.ofScalar .i32), .addVar .local ⟨14⟩,
    .addVar .local ⟨15⟩, .addVar .local ⟨14⟩,
    .append ⟨0⟩ (.copy ⟨0⟩ (.const (.int (.ofScalar .i32) 1))),
    .append ⟨0⟩ (.copy ⟨1⟩ (.const (.int (.ofScalar .i32) 2))),
    .append ⟨0⟩ (.addressOf ⟨2⟩ ⟨0⟩), .append ⟨0⟩ (.addressOf ⟨3⟩ ⟨2⟩), .append ⟨0⟩ (.addressOf ⟨4⟩ ⟨1⟩),
    .append ⟨0⟩ (.storeIndirect (.var ⟨3⟩) (.var ⟨4⟩) false),
    .append ⟨0⟩ (.call ⟨0⟩ [.var ⟨2⟩, .const (.int (.ofScalar .i32) 5)] none),
    .append ⟨0⟩ (.ret (some (.var ⟨0⟩)))]

/-- The pointer has one definition, which takes the address of the first variable, but comes to
hold the address of the second one. Lowering the constructor changes what the graph returns. -/
theorem movedPointer_leaves_address : movedPointer.Built ∧ movedPointer.verify = .ok () ∧
    (∀ block ∈ movedPointer.blocks, block.reachable) ∧ Clean [] .empty ∧
    movedPointer.definers ⟨2⟩ = [⟨2⟩] ∧
    (movedPointer.op ⟨2⟩).map (fun op => (op.kind, op.args)) = some (.addressOf, [.var ⟨0⟩]) ∧
    (∃ s ∈ movedPointer.trace pointerPool [] .empty 8,
      movedPointer.respects pointerPool s ∧ movedPointer.keepsApart pointerPool s ∧ s.read (.var ⟨2⟩) = some (.pointer (.var ⟨1⟩))) ∧
    movedPointer.answer? pointerPool [] .empty 8 = some (some (.bits 1), 8) ∧
    ∃ g', Edit.lower pointerPool { Config.nothing with constructors := true } movedPointer =
      .ok { constructors := 1 } g' ∧
      g'.answer? pointerPool [] .empty 8 = some (some (.bits 5), 8) := by
  have h : (Edit.lower pointerPool { Config.nothing with constructors := true }).result?
      movedPointer = some { constructors := 1 } := by decide +kernel
  exact ⟨(Built.empty "f").changed _, by decide +kernel, by decide, clean_of_stored (by decide),
    by decide +kernel, by decide +kernel, by decide +kernel, by decide +kernel, _,
    Edit.eq_ok_of_result? h, by decide +kernel⟩

theorem addressReadOnly_of_isStable (hc : Tracks c g) (h : g.isStable p c (.var x) = .ok true) :
    g.AddressReadOnly p x := by
  intro id hid op hop hkind hhead r hr user huser op' hop'
  have hx := mem_readers_of_reads hid hop (Operator.mem_reads_of_mem (List.mem_of_mem_head? hhead))
  exact (isStable_spec hc h).2 hx hop hkind hr huser hop'

theorem AddressReadOnly.of_sameCode (h : g₁.AddressReadOnly p x) (hcode : g.SameCode g₁) :
    g.AddressReadOnly p x := by
  unfold AddressReadOnly OnlyReadThrough at h ⊢
  rwa [hcode.attached_eq, hcode.op_eq, hcode.readers_eq] at h

/-- Up to where a run takes the address of the field of a wrapper in a stable variable for more than
to read through it, no store reaches the variable, and a step that changes it defines it. -/
theorem mem_results_of_changes (hg : g.Built) (hsnapshot : Edit.snapshot g = .ok c g₁)
    (hstable : g₁.isStable p c (.var x) = .ok true) (hclean : Clean args heap)
    (hvisits : g.Visits p (fun op s => ∀ f r w, op.TakesField s f r x w → g.OnlyReadThrough p r)
      args heap (id :: ids) s) (hop : g.op id = some op) :
    ¬op.StoresTo p s x ∧ ∀ {control t}, op.step p g s = .ok (control, t) →
      t.read (.var x) ≠ s.read (.var x) → x ∈ op.results := by
  obtain ⟨hexact, hcoherent, hcode⟩ := Edit.snapshot_spec hg.coherent hsnapshot
  have hreadOnly : g.AddressReadOnly p x :=
    (addressReadOnly_of_isStable (hexact.tracks hcoherent.linked) hstable).of_sameCode hcode
  have hconfined : g.Confined p x s := hvisits.keeps (confined_initial hclean)
    fun hid hop hfield hs ha ht => hs.step hreadOnly hid hop hfield ha ht
  have hstores := hconfined.not_storesTo (hvisits.mem_attached id List.mem_cons_self) hop
  refine ⟨hstores, fun hstep hchanges => ?_⟩
  obtain ⟨-, a, ha, ht⟩ := Operator.step_eq_ok.mp hstep
  rcases a with _ | ⟨l, v⟩
  · obtain rfl := Option.some.inj ht
    exact absurd rfl hchanges
  rw [Frame.read_perform ht] at hchanges
  obtain rfl : .var x = l := by
    by_contra hne
    exact hchanges (if_neg hne)
  exact List.mem_of_mem_head? ((Operator.result?_or_storesTo ha).resolve_right hstores)

/-- A variable is read through its address and through that of its field, and another one is
stored to. -/
def readTwice : Graph := (Graph.empty "f").changed
  [.addVar .local (.ofScalar .i32), .addVar .local ⟨14⟩, .addVar .local ⟨14⟩, .addVar .local ⟨14⟩,
    .addVar .local (.ofScalar .i32), .append ⟨0⟩ (.copy ⟨0⟩ (.const (.int (.ofScalar .i32) 1))),
    .append ⟨0⟩ (.addressOf ⟨1⟩ ⟨0⟩), .append ⟨0⟩ (.loadFieldAddress ⟨0⟩ ⟨2⟩ (.var ⟨0⟩) false),
    .append ⟨0⟩ (.addressOf ⟨3⟩ ⟨4⟩),
    .append ⟨0⟩ (.storeIndirect (.var ⟨3⟩) (.const (.int (.ofScalar .i32) 2)) false),
    .append ⟨0⟩ (.loadIndirect (.ofScalar .i32) ⟨4⟩ (.var ⟨1⟩) false),
    .append ⟨0⟩ (.loadField ⟨0⟩ ⟨4⟩ (.var ⟨2⟩) false), .append ⟨0⟩ (.ret (some (.var ⟨4⟩)))]

def readTwiceFrame : Frame :=
  ⟨#[.bits 1, .pointer (.var ⟨0⟩), .pointer (.var ⟨0⟩), .pointer (.var ⟨4⟩), .undefined], .empty⟩

theorem exists_isStable {e : Expr} (h : (do
    let c ← Edit.snapshot
    Edit.query (·.isStable p c e)).result? g = some true) :
    ∃ c g₁, Edit.snapshot g = .ok c g₁ ∧ g₁.isStable p c e = .ok true := by
  obtain ⟨c, g₁, hsnapshot, h⟩ := Edit.bind_eq_ok.mp (Edit.eq_ok_of_result? h)
  exact ⟨c, g₁, hsnapshot, (Edit.query_eq_ok.mp h).1⟩

theorem mem_results_of_changes_readTwice : ∃ c g₁ op, Edit.snapshot readTwice = .ok c g₁ ∧
    g₁.isStable wrapperPool c (.var ⟨0⟩) = .ok true ∧ readTwice.op ⟨4⟩ = some op ∧
    op.StoresTo wrapperPool readTwiceFrame ⟨4⟩ ∧ ¬op.StoresTo wrapperPool readTwiceFrame ⟨0⟩ := by
  obtain ⟨c, g₁, hsnapshot, hstable⟩ : ∃ c g₁, Edit.snapshot readTwice = .ok c g₁ ∧
    g₁.isStable wrapperPool c (.var ⟨0⟩) = .ok true := exists_isStable (by decide +kernel)
  let T (op : Operator) (s : Frame) : Prop :=
    ∀ f r w, op.TakesField s f r ⟨0⟩ w → readTwice.OnlyReadThrough wrapperPool r
  have hT : ∀ {id op s}, id ∈ readTwice.attached → readTwice.op id = some op → T op s := by
    have hstatic : ∀ id ∈ readTwice.attached, ∀ op ∈ readTwice.op id, op.kind.isFieldAddress →
      ∀ r ∈ op.result?, readTwice.OnlyReadThrough wrapperPool r := by decide +kernel
    intro id op s hid hop f r w hfield
    exact hstatic id hid op hop (by simp [hfield.kind, OpKind.isFieldAddress]) r hfield.result
  have hnext : ∀ {id ids s t} (op : Operator), readTwice.Visits wrapperPool T [] .empty (id :: ids) s →
      readTwice.op id = some op → op.step wrapperPool readTwice s = .ok (.next, t) →
      readTwice.Visits wrapperPool T [] .empty ids t := fun op h hop hstep =>
    h.next hop (hT (h.mem_attached _ List.mem_cons_self) hop) hstep
  have h₀ : readTwice.Visits wrapperPool T [] .empty _ _ := .start rfl
  have h₁ := hnext _ h₀ rfl rfl
  have h₂ := hnext _ h₁ rfl rfl
  have h₃ := hnext _ h₂ rfl rfl
  have hvisits : readTwice.Visits wrapperPool T [] .empty [⟨4⟩, ⟨5⟩, ⟨6⟩, ⟨7⟩] readTwiceFrame :=
    hnext _ h₃ rfl rfl
  obtain ⟨op, hop, hstores⟩ : ∃ op, readTwice.op ⟨4⟩ = some op ∧
    op.StoresTo wrapperPool readTwiceFrame ⟨4⟩ := ⟨_, rfl, rfl, rfl⟩
  exact ⟨c, g₁, op, hsnapshot, hstable, hop, hstores,
    (mem_results_of_changes ((Built.empty "f").changed _) hsnapshot hstable
      (clean_of_stored (by decide)) hvisits hop).1⟩

/-- A variable is read, and then stored to through the address of its field. -/
def storedBehind : Graph := (Graph.empty "f").changed
  [.addVar .local (.ofScalar .i32), .addVar .local ⟨14⟩, .addVar .local (.ofScalar .i32),
    .append ⟨0⟩ (.copy ⟨0⟩ (.const (.int (.ofScalar .i32) 1))),
    .append ⟨0⟩ (.loadFieldAddress ⟨0⟩ ⟨1⟩ (.var ⟨0⟩) false),
    .append ⟨0⟩ (.loadField ⟨0⟩ ⟨2⟩ (.var ⟨0⟩) false),
    .append ⟨0⟩ (.storeIndirect (.var ⟨1⟩) (.const (.int (.ofScalar .i32) 2)) false),
    .append ⟨0⟩ (.ret (some (.var ⟨2⟩)))]

def storedBehindFrame : Frame := ⟨#[.bits 1, .pointer (.var ⟨0⟩), .bits 1], .empty⟩

/-- The variable counts as stable, but the store changes it and does not define it. Lowering the
load changes what the graph returns. -/
theorem storedBehind_changes_stable : storedBehind.Built ∧ storedBehind.verify = .ok () ∧
    (∀ block ∈ storedBehind.blocks, block.reachable) ∧ Clean [] .empty ∧
    (∃ c g₁, Edit.snapshot storedBehind = .ok c g₁ ∧
      g₁.isStable wrapperPool c (.var ⟨0⟩) = .ok true) ∧
    storedBehind.Visits wrapperPool (fun _ _ => True) [] .empty [⟨3⟩, ⟨4⟩] storedBehindFrame ∧
    (∃ op t, storedBehind.op ⟨3⟩ = some op ∧ op.StoresTo wrapperPool storedBehindFrame ⟨0⟩ ∧
      op.step wrapperPool storedBehind storedBehindFrame = .ok (.next, t) ∧
      t.read (.var ⟨0⟩) ≠ storedBehindFrame.read (.var ⟨0⟩) ∧ ⟨0⟩ ∉ op.results) ∧
    storedBehind.answer? wrapperPool [] .empty 5 = some (some (.bits 1), 5) ∧
    ∃ g', Edit.lower wrapperPool { Config.nothing with fieldLoads := true } storedBehind =
      .ok { fieldLoads := 1, fieldAddresses := 1 } g' ∧
      g'.answer? wrapperPool [] .empty 5 = some (some (.bits 2), 5) := by
  have h : (Edit.lower wrapperPool { Config.nothing with fieldLoads := true }).result?
      storedBehind = some { fieldLoads := 1, fieldAddresses := 1 } := by decide +kernel
  have h₀ : storedBehind.Visits wrapperPool (fun _ _ => True) [] .empty _ _ := .start rfl
  have h₁ := h₀.next rfl .intro rfl
  have h₂ := h₁.next rfl .intro rfl
  have h₃ : storedBehind.Visits wrapperPool (fun _ _ => True) [] .empty [⟨3⟩, ⟨4⟩] storedBehindFrame :=
    h₂.next rfl .intro (by decide +kernel)
  exact ⟨(Built.empty "f").changed _, by decide +kernel, by decide, clean_of_stored (by decide),
    exists_isStable (by decide +kernel), h₃, ⟨_, _, rfl, ⟨rfl, rfl⟩, rfl, by decide, by decide⟩,
    by decide +kernel, _, Edit.eq_ok_of_result? h, by decide +kernel⟩

end Graph
end ScalarLowering
