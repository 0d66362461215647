import ScalarLowering.Proofs.Actions
import ScalarLowering.Proofs.Lookup

/-! Runs as a relation, without a budget, and simulation between the runs of two graphs whose
blocks hold, operator by operator, lists of operators for each other. -/

namespace ScalarLowering

def Value.isPayload : Value → Bool
  | .bits _ => true
  | _ => false

/-- How a run ends, as far as the lowering keeps it: with a result, or with a fault that an
operator carries the check for. -/
inductive Ending
  | returned (value : Option Value) (heap : Heap)
  | nullReference
  | indexOutOfRange

def Ending.isReturned : Ending → Bool
  | .returned _ _ => true
  | _ => false

/-- What the machine answers for a run of the graph that ends so. -/
def Ending.Answers (g : Graph) : Ending → Except RunError Outcome → Prop
  | .returned value heap, r => ∃ out, r = .ok out ∧ out.returned = value ∧ out.heap = heap
  | .nullReference, r => ∃ id op, r = .error (.fault id .nullReference) ∧ g.op id = some op ∧
    op.flags.checkForNull
  | .indexOutOfRange, r => ∃ id op i n, r = .error (.fault id (.indexOutOfRange i n)) ∧
    g.op id = some op ∧ op.flags.mayThrow

namespace Operator

variable {op op' : Operator} {p : Pool} {g g' : Graph} {s s' t : Frame}

/-- The operator ends the run with a fault that it carries the check for. -/
inductive Faults (op : Operator) (p : Pool) (g : Graph) (s : Frame) : Ending → Prop
  | null : op.action p g s = .error .nullReference → op.flags.checkForNull →
    Faults op p g s .nullReference
  | range {i : Int64} {n : Nat} : op.action p g s = .error (.indexOutOfRange i n) →
    op.flags.mayThrow → Faults op p g s .indexOutOfRange

theorem Faults.not_isReturned {ending : Ending} (h : op.Faults p g s ending) :
    ending.isReturned = false := by
  cases h <;> rfl

theorem Faults.mayFault {ending : Ending} (h : op.Faults p g s ending) : op.mayFault := by
  cases h <;> simp_all [Operator.mayFault]

theorem Faults.of_action {ending : Ending} (h : op.Faults p g s ending)
    (haction : op'.action p g' s' = op.action p g s) (hflags : op'.flags = op.flags) :
    op'.Faults p g' s' ending := by
  cases h with
  | null h hcheck => exact .null (haction.trans h) (hflags ▸ hcheck)
  | range h hcheck => exact .range (haction.trans h) (hflags ▸ hcheck)

theorem control_of_not_isControl (h : op.isControl = false) : op.control s = .ok .next := by
  unfold isControl OpKind.isControl at h
  unfold control
  split <;> simp_all

theorem action_of_isControl (h : op.isControl) : op.action p g s = .ok none := by
  unfold isControl OpKind.isControl at h
  unfold action
  split at h <;> simp_all

theorem safe_of_isControl (h : op.isControl) : op.Safe p g s := by
  intro huses
  unfold usesReceiver at huses
  unfold isControl OpKind.isControl at h
  split at huses <;> simp_all

theorem control_ne_next (h : op.isControl) : op.control s ≠ .ok .next := by
  unfold isControl at h
  unfold control
  cases hkind : op.kind with
  | jump b => simp
  | branch b b' =>
    intro hnext
    obtain ⟨v, -, hnext⟩ := Except.bind_eq_ok.mp hnext
    cases v <;> simp at hnext
  | ret =>
    dsimp only
    cases op.args.head? with
    | none => simp
    | some e =>
      intro hnext
      obtain ⟨v, -, hnext⟩ := Except.bind_eq_ok.mp hnext
      simp at hnext
  | _ =>
    rw [hkind] at h
    cases h

/-- A step that stays in the block writes; one that leaves it does not. -/
theorem step_eq_ok {control : Control} : op.step p g s = .ok (control, t) ↔
    op.control s = .ok control ∧ ∃ a, op.action p g s = .ok a ∧ s.perform a = some t := by
  unfold step
  rw [effect_eq_action]
  simp only [Except.bind_eq_ok, Fault.lift_eq_ok, Except.pure_eq_ok, Prod.mk.injEq]
  constructor
  · rintro ⟨c, hc, t', ⟨a, ha, ht⟩, rfl, rfl⟩
    exact ⟨hc, a, ha, ht⟩
  · rintro ⟨hc, a, ha, ht⟩
    exact ⟨control, hc, t, ⟨a, ha, ht⟩, rfl, rfl⟩

theorem arg_eq_error {n : Nat} {e : Fault} (h : s.arg op n = .error e) :
    e = .dangling ∨ ∃ cause, e = .invalidOperand cause := by
  unfold Frame.arg at h
  split at h
  · rename_i operand _
    cases hv : s.eval operand with
    | none =>
      rw [hv] at h
      exact .inl (Except.error.inj h).symm
    | some v =>
      rw [hv] at h
      cases h
  · exact .inr ⟨_, (Except.error.inj h).symm⟩

theorem control_eq_error {e : Fault} (h : op.control s = .error e) :
    e = .dangling ∨ ∃ cause, e = .invalidOperand cause := by
  unfold control at h
  split at h
  · cases h
  · obtain h | ⟨v, -, h⟩ := Except.bind_eq_error.mp h
    · exact arg_eq_error h
    · cases v <;> first | exact .inr ⟨_, (Except.error.inj h).symm⟩ | cases h
  · split at h
    · rename_i operand _
      cases hv : s.eval operand with
      | none =>
        rw [hv] at h
        exact .inl (Except.error.inj h).symm
      | some v =>
        rw [hv] at h
        cases h
    · cases h
  · cases h

/-- A fault at null or out of range is found before anything is written. -/
theorem action_of_step_error {e : Fault} (h : op.step p g s = .error e)
    (he : e = .nullReference ∨ ∃ i n, e = .indexOutOfRange i n) : op.action p g s = .error e := by
  unfold step at h
  rw [effect_eq_action] at h
  obtain h | ⟨c, -, h⟩ := Except.bind_eq_error.mp h
  · obtain rfl | ⟨cause, rfl⟩ := control_eq_error h <;> simp at he
  · obtain h | ⟨t, -, h⟩ := Except.bind_eq_error.mp h
    · obtain h | ⟨a, -, h⟩ := Except.bind_eq_error.mp h
      · exact h
      · cases ht : s.perform a with
        | none =>
          rw [ht] at h
          obtain rfl : e = .dangling := (Except.error.inj h).symm
          simp at he
        | some t =>
          rw [ht] at h
          cases h
    · cases h

theorem Mirrors.control (h : op.Mirrors op' g g' s s') : op'.control s' = op.control s := by
  unfold Operator.control
  rw [h.kind]
  cases hkind : op.kind with
  | branch b c => simp only [h.arg]
  | ret =>
    obtain ⟨f, hargs, hsame⟩ := h.args
    rw [hargs, List.head?_map]
    cases he : op.args.head? with
    | none => rfl
    | some e => simp only [Option.map_some, (hsame e (List.mem_of_mem_head? he)).1]
  | _ => rfl

end Operator

namespace Graph

/-- The graph runs from the operators `ids`, the rest of a block, to an ending, and all receivers
on the way hold values of their types. -/
inductive Runs (g : Graph) (p : Pool) : List OpId → Frame → Ending → Prop
  | next {id : OpId} {ids : List OpId} {op : Operator} {s t : Frame} {a : Option (Location × Value)}
    {ending : Ending} : g.op id = some op → op.Safe p g s → op.isControl = false →
    op.action p g s = .ok a → s.perform a = some t → Runs g p ids t ending →
    Runs g p (id :: ids) s ending
  | goto {id : OpId} {ids : List OpId} {op : Operator} {s : Frame} {b : BlockId} {block : Block}
    {ending : Ending} : g.op id = some op → op.control s = .ok (.goto b) → g.block b = some block →
    Runs g p block.ops s ending → Runs g p (id :: ids) s ending
  | done {id : OpId} {ids : List OpId} {op : Operator} {s : Frame} {value : Option Value} :
    g.op id = some op → op.control s = .ok (.done value) →
    Runs g p (id :: ids) s (.returned value s.heap)
  | fault {id : OpId} {ids : List OpId} {op : Operator} {s : Frame} {ending : Ending} :
    g.op id = some op → op.Safe p g s → op.Faults p g s ending → Runs g p (id :: ids) s ending

/-- The operators run one after the other within a block. -/
inductive Execs (g : Graph) (p : Pool) : List OpId → Frame → Frame → Prop
  | nil {s : Frame} : Execs g p [] s s
  | cons {id : OpId} {ids : List OpId} {op : Operator} {s t u : Frame}
    {a : Option (Location × Value)} : g.op id = some op → op.Safe p g s → op.isControl = false →
    op.action p g s = .ok a → s.perform a = some t → Execs g p ids t u → Execs g p (id :: ids) s u

variable {g g' : Graph} {p : Pool} {ids rest pre : List OpId} {s s' t : Frame} {ending : Ending}

theorem Execs.runs (h : g.Execs p ids s t) (hrest : g.Runs p rest t ending) :
    g.Runs p (ids ++ rest) s ending := by
  induction h with
  | nil => exact hrest
  | cons hop hsafe hcontrol ha ht _ ih => exact .next hop hsafe hcontrol ha ht (ih hrest)

def At (g : Graph) (pre rest : List OpId) : Prop :=
  ∃ b block, g.block b = some block ∧ block.ops = pre ++ rest

theorem At.next {id : OpId} (h : g.At pre (id :: rest)) : g.At (pre ++ [id]) rest := by
  obtain ⟨b, block, hb, hops⟩ := h
  exact ⟨b, block, hb, by simp [hops]⟩

theorem At.start {b : BlockId} {block : Block} (hb : g.block b = some block) : g.At [] block.ops :=
  ⟨b, block, hb, rfl⟩

/-- The second graph follows the runs of the first: the frames stay in a relation that may depend
on the operators run and to be run in the block. -/
structure Simulates (g g' : Graph) (p : Pool) (f : OpId → List OpId) (faults : Bool)
    (R : List OpId → List OpId → Frame → Frame → Prop) : Prop where
  block : ∀ {b block}, g.block b = some block →
    ∃ block', g'.block b = some block' ∧ block'.ops = block.ops.flatMap f
  next : ∀ {pre id rest op s s' t a}, g.At pre (id :: rest) → R pre (id :: rest) s s' →
    g.op id = some op → op.Safe p g s → op.isControl = false → op.action p g s = .ok a →
    s.perform a = some t → ∃ t', g'.Execs p (f id) s' t' ∧ R (pre ++ [id]) rest t t'
  exit : ∀ {pre id rest op s s'}, g.At pre (id :: rest) → R pre (id :: rest) s s' →
    g.op id = some op → op.isControl → f id = [id] ∧ s'.heap = s.heap ∧
      ∃ op', g'.op id = some op' ∧ op'.control s' = op.control s
  enter : ∀ {pre id rest op s s' b block}, g.At pre (id :: rest) → R pre (id :: rest) s s' →
    g.op id = some op → op.control s = .ok (.goto b) → g.block b = some block →
    R [] block.ops s s'
  fault : ∀ {pre id rest op s s' ending}, faults → g.At pre (id :: rest) →
    R pre (id :: rest) s s' → g.op id = some op → op.Safe p g s → op.Faults p g s ending →
    g'.Runs p ((id :: rest).flatMap f) s' ending

theorem isControl_of_control {op : Operator} {control : Control}
    (h : op.control s = .ok control) (hne : control ≠ .next) : op.isControl := by
  cases hc : op.isControl with
  | true => rfl
  | false =>
    rw [op.control_of_not_isControl hc] at h
    exact absurd (Except.ok.inj h).symm hne

theorem Simulates.runs {f : OpId → List OpId} {faults : Bool}
    {R : List OpId → List OpId → Frame → Frame → Prop} (h : g.Simulates g' p f faults R)
    (hruns : g.Runs p rest s ending) (hending : ending.isReturned ∨ faults)
    (hat : g.At pre rest) (hR : R pre rest s s') : g'.Runs p (rest.flatMap f) s' ending := by
  induction hruns generalizing pre s' with
  | next hop hsafe hcontrol ha ht _ ih =>
    obtain ⟨t', hexecs, hR'⟩ := h.next hat hR hop hsafe hcontrol ha ht
    exact hexecs.runs (ih hending hat.next hR')
  | goto hop hcontrol hblock _ ih =>
    obtain ⟨hf, -, op', hop', hsame⟩ := h.exit hat hR hop (isControl_of_control hcontrol nofun)
    obtain ⟨block', hblock', hops⟩ := h.block hblock
    rw [List.flatMap_cons, hf]
    refine .goto hop' (hsame.trans hcontrol) hblock' ?_
    rw [hops]
    exact ih hending (.start hblock) (h.enter hat hR hop hcontrol hblock)
  | done hop hcontrol =>
    obtain ⟨hf, hheap, op', hop', hsame⟩ := h.exit hat hR hop (isControl_of_control hcontrol nofun)
    rw [List.flatMap_cons, hf, ← hheap]
    exact .done hop' (hsame.trans hcontrol)
  | fault hop hsafe hfault =>
    have hfaults : faults := hending.resolve_left (by simp [hfault.not_isReturned])
    exact h.fault hfaults hat hR hop hsafe hfault

/-- Whether every variable of a scalar or a pointer type holds a value of its type. -/
def respects (g : Graph) (p : Pool) (s : Frame) : Bool :=
  g.varIds.all fun x => (g.kindOf p x).all fun k => s.vars[x.index]?.all k.admits

/-- Whether a variable holds a payload only if it is of a scalar type. -/
def holdsApart (g : Graph) (p : Pool) (s : Frame) (x : VarId) : Bool :=
  (g.kindOf p x).any (·.scalar?.isSome) || !s.vars[x.index]?.any Value.isPayload

def fieldReceivers (g : Graph) : List VarId :=
  (g.attachedWhere OpKind.isFieldAddress).filterMap fun id =>
    (g.op id).bind fun op => op.args.head?.bind Expr.var?

/-- Whether the variables whose fields are addressed hold payloads only if they are of scalar
types. -/
def fieldsApart (g : Graph) (p : Pool) (s : Frame) : Bool :=
  g.fieldReceivers.all (g.holdsApart p s)

theorem scalar_of_holdsApart {x : VarId} {w : UInt64} (h : g.holdsApart p s x)
    (hbits : s.read (.var x) = some (.bits w)) : ∃ t, g.kindOf p x = some (.scalar t) := by
  rw [holdsApart, show s.vars[x.index]? = some (.bits w) from hbits] at h
  obtain ⟨k, hk, hscalar⟩ : ∃ k, g.kindOf p x = some k ∧ k.scalar?.isSome := by
    simpa [Value.isPayload, Option.any_eq_true] using h
  cases k with
  | scalar t => exact ⟨t, hk⟩
  | _ => cases hscalar

theorem safe_of_respects {id : OpId} {op : Operator} (h : g.respects p s) (hfields : g.fieldsApart p s)
    (hid : id ∈ g.attached) (hop : g.op id = some op)
    (hknown : ∀ x ∈ op.reads, x.index < g.vars.size) : op.Safe p g s := by
  intro _ x v hx hv
  constructor
  · intro k hk
    have hread : x ∈ op.reads := List.mem_filterMap.mpr ⟨_, List.mem_of_mem_head? hx, rfl⟩
    have hadmits := List.all_eq_true.mp h x ((mem_varIds g).mpr (hknown x hread))
    rwa [hk, Option.all_some, show s.vars[x.index]? = some v from hv] at hadmits
  · rintro f w hkind rfl
    have hmem : x ∈ g.fieldReceivers := by
      refine List.mem_filterMap.mpr ⟨id, List.mem_filter.mpr ⟨hid, ?_⟩, ?_⟩
      · rw [hop, Option.any_some, hkind, OpKind.isFieldAddress]
      · rw [hop, Option.bind_some, hx, Option.bind_some, Expr.var?_var]
    exact scalar_of_holdsApart (List.all_eq_true.mp hfields x hmem) hv

/-- The frames that the operators `ids` and what comes after them meet. -/
def traceFrom (g : Graph) (p : Pool) : Nat → List OpId → Frame → List Frame
  | _, [], _ => []
  | 0, _ :: _, _ => []
  | left + 1, id :: ids, s =>
    s :: match g.op id with
      | none => []
      | some op =>
        match op.step p g s with
        | .error _ => []
        | .ok (.next, t) => g.traceFrom p left ids t
        | .ok (.goto b, t) => (g.block b).elim [] fun block => g.traceFrom p left block.ops t
        | .ok (.done _, t) => [t]

def initial (g : Graph) (args : List Value) (heap : Heap) : Frame :=
  ⟨(initialVars g.vars.toList args).toArray, heap⟩

def trace (g : Graph) (p : Pool) (args : List Value) (heap : Heap) (fuel : Nat) : List Frame :=
  (g.block g.entry).elim [] fun block => g.traceFrom p fuel block.ops (g.initial args heap)

/-- Where a run goes on after an operator of the block `b`, if it does. -/
inductive Continues (g : Graph) (b : BlockId) (rest : List OpId) :
    Control → BlockId → List OpId → Prop
  | next : Continues g b rest .next b rest
  | goto {c : BlockId} {block : Block} : g.block c = some block →
    Continues g b rest (.goto c) c block.ops

theorem Continues.attached {b b' : BlockId} {rest rest' : List OpId} {control : Control}
    (h : g.Continues b rest control b' rest') (hrest : ∀ id ∈ rest, id ∈ g.attached) :
    ∀ id ∈ rest', id ∈ g.attached := by
  cases h with
  | next => exact hrest
  | goto hblock => exact fun id hid => mem_attached.mpr ⟨_, _, hblock, hid⟩

theorem runFrom_of_continues {b b' : BlockId} {id : OpId} {op : Operator} {control : Control}
    {rest' : List OpId} (hop : g.op id = some op) (hstep : op.step p g s = .ok (control, t))
    (h : g.Continues b rest control b' rest') (fuel left : Nat) :
    g.runFrom p fuel (left + 1) b (id :: rest) s = g.runFrom p fuel left b' rest' t := by
  cases h with
  | next => simp only [runFrom, hop, hstep]
  | goto hblock => simp only [runFrom, hop, hstep, hblock]

theorem traceFrom_of_continues {b b' : BlockId} {id : OpId} {op : Operator} {control : Control}
    {rest' : List OpId} (hop : g.op id = some op) (hstep : op.step p g s = .ok (control, t))
    (h : g.Continues b rest control b' rest') (left : Nat) :
    g.traceFrom p (left + 1) (id :: rest) s = s :: g.traceFrom p left rest' t := by
  cases h with
  | next => simp only [traceFrom, hop, hstep]
  | goto hblock => simp only [traceFrom, hop, hstep, hblock, Option.elim_some]

/-- What a run that returns does first: an operator that ends it, or one after which it goes on. -/
theorem runFrom_eq_ok {fuel left : Nat} {b : BlockId} {o : Outcome}
    (h : g.runFrom p fuel left b ids s = .ok o) : ∃ left' id rest op control t, left = left' + 1 ∧
      ids = id :: rest ∧ g.op id = some op ∧ op.step p g s = .ok (control, t) ∧
      ((∃ returned, control = .done returned ∧ o = { t with returned, steps := fuel - left' }) ∨
        ∃ b' rest', g.Continues b rest control b' rest' ∧
          g.runFrom p fuel left' b' rest' t = .ok o) := by
  cases ids with
  | nil => simp [runFrom] at h
  | cons id rest =>
    cases left with
    | zero => simp [runFrom] at h
    | succ left =>
      simp only [runFrom] at h
      cases hop : g.op id with
      | none => simp [hop] at h
      | some op =>
        simp only [hop] at h
        cases hstep : op.step p g s with
        | error cause => simp [hstep] at h
        | ok result =>
          obtain ⟨control, t⟩ := result
          simp only [hstep] at h
          refine ⟨left, id, rest, op, control, t, rfl, rfl, hop, hstep, ?_⟩
          cases control with
          | next => exact .inr ⟨b, rest, .next, h⟩
          | done returned => exact .inl ⟨returned, rfl, (Except.ok.inj h).symm⟩
          | goto c =>
            cases hc : g.block c with
            | none => simp [hc] at h
            | some block => exact .inr ⟨c, block.ops, .goto hc, by simpa only [hc] using h⟩

theorem frame_of_control {op : Operator} {control : Control} {a : Option (Location × Value)}
    (h : op.control s = .ok control) (hne : control ≠ .next) (ha : op.action p g s = .ok a)
    (ht : s.perform a = some t) : s = t := by
  rw [op.action_of_isControl (isControl_of_control h hne)] at ha
  obtain rfl := Except.ok.inj ha
  exact Option.some.inj ht

theorem faults_of_answers {id : OpId} {op : Operator} {cause : Fault} (hop : g.op id = some op)
    (hstep : op.step p g s = .error cause)
    (h : ending.Answers g (.error (.fault id cause))) : op.Faults p g s ending := by
  cases ending with
  | returned value heap => simp [Ending.Answers] at h
  | nullReference =>
    obtain ⟨id', op', herror, hop', hcheck⟩ := h
    simp only [Except.error.injEq, RunError.fault.injEq] at herror
    obtain ⟨rfl, rfl⟩ := herror
    obtain rfl := Option.some.inj (hop.symm.trans hop')
    exact .null (op.action_of_step_error hstep (.inl rfl)) hcheck
  | indexOutOfRange =>
    obtain ⟨id', op', i, n, herror, hop', hcheck⟩ := h
    simp only [Except.error.injEq, RunError.fault.injEq] at herror
    obtain ⟨rfl, rfl⟩ := herror
    obtain rfl := Option.some.inj (hop.symm.trans hop')
    exact .range (op.action_of_step_error hstep (.inr ⟨i, n, rfl⟩)) hcheck

/-- What a run that ends so does first: an operator that fails, that ends it, or after which it goes
on. -/
theorem exists_first_of_answers {fuel left : Nat} {b : BlockId}
    (h : ending.Answers g (g.runFrom p fuel left b ids s)) : ∃ left' id rest op, left = left' + 1 ∧
      ids = id :: rest ∧ g.op id = some op ∧ (op.Faults p g s ending ∨
        ∃ control t, op.step p g s = .ok (control, t) ∧
          ((∃ value, control = .done value ∧ ending = .returned value t.heap) ∨
            ∃ b' rest', g.Continues b rest control b' rest' ∧
              ending.Answers g (g.runFrom p fuel left' b' rest' t))) := by
  cases ids with
  | nil => cases ending <;> simp [Ending.Answers, runFrom] at h
  | cons id rest =>
    cases left with
    | zero => cases ending <;> simp [Ending.Answers, runFrom] at h
    | succ left =>
      rw [runFrom] at h
      cases hop : g.op id with
      | none =>
        rw [hop] at h
        cases ending <;> simp [Ending.Answers] at h
      | some op =>
        refine ⟨left, id, rest, op, rfl, rfl, hop, ?_⟩
        cases hstep : op.step p g s with
        | error e =>
          simp only [hop, hstep] at h
          exact .inl (faults_of_answers hop hstep h)
        | ok result =>
          obtain ⟨control, t⟩ := result
          simp only [hop, hstep] at h
          refine .inr ⟨control, t, rfl, ?_⟩
          cases control with
          | next => exact .inr ⟨b, rest, .next, h⟩
          | goto c =>
            cases hblock : g.block c with
            | none =>
              simp only [hblock] at h
              cases ending <;> simp [Ending.Answers] at h
            | some block => exact .inr ⟨c, block.ops, .goto hblock, by simpa only [hblock] using h⟩
          | done value =>
            cases ending with
            | returned value' heap =>
              obtain ⟨out, hout, rfl, rfl⟩ := h
              cases hout
              exact .inl ⟨_, rfl, rfl⟩
            | _ => simp [Ending.Answers] at h

/-- A run of the machine whose frames respect the types is a run. -/
theorem runs_of_runFrom {fuel left : Nat} {b : BlockId}
    (hknown : ∀ {id op}, id ∈ g.attached → g.op id = some op → ∀ x ∈ op.reads, x.index < g.vars.size)
    (hids : ∀ id ∈ ids, id ∈ g.attached)
    (htyped : ∀ u ∈ g.traceFrom p left ids s, g.respects p u ∧ g.fieldsApart p u)
    (h : ending.Answers g (g.runFrom p fuel left b ids s)) : g.Runs p ids s ending := by
  induction left generalizing b ids s with
  | zero =>
    obtain ⟨_, _, _, _, hzero, -⟩ := exists_first_of_answers h
    cases hzero
  | succ left ih =>
    obtain ⟨_, id, rest, op, ⟨⟩, rfl, hop, hcase⟩ := exists_first_of_answers h
    have hid := hids id List.mem_cons_self
    obtain ⟨hrespects, hfields⟩ := htyped s (by simp [traceFrom])
    have hsafe : op.Safe p g s := safe_of_respects hrespects hfields hid hop (hknown hid hop)
    obtain hfaults | ⟨control, t, hstep, hcase⟩ := hcase
    · exact .fault hop hsafe hfaults
    obtain ⟨hcontrol, a, ha, ht⟩ := Operator.step_eq_ok.mp hstep
    obtain ⟨value, rfl, rfl⟩ | ⟨b', rest', hcontinues, h⟩ := hcase
    · obtain rfl := frame_of_control hcontrol (by simp) ha ht
      exact .done hop hcontrol
    · rw [traceFrom_of_continues hop hstep hcontinues] at htyped
      have hrest := hcontinues.attached fun x hx => hids x (List.mem_cons_of_mem id hx)
      have hruns := ih hrest (fun u hu => htyped u (List.mem_cons_of_mem s hu)) h
      cases hcontinues with
      | next =>
        have hnot : op.isControl = false :=
          Bool.eq_false_iff.mpr fun hc => op.control_ne_next hc hcontrol
        exact .next hop hsafe hnot ha ht hruns
      | goto hblock =>
        obtain rfl := frame_of_control hcontrol (by simp) ha ht
        exact .goto hop hcontrol hblock hruns

/-- With a large enough budget the machine answers as the run ends. -/
theorem Runs.runFrom (h : g.Runs p ids s ending) :
    ∃ n, ∀ fuel left b, n ≤ left → ending.Answers g (g.runFrom p fuel left b ids s) := by
  induction h with
  | @next id ids op s t a ending hop _ hcontrol ha ht _ ih =>
    obtain ⟨n, hn⟩ := ih
    refine ⟨n + 1, fun fuel left b hleft => ?_⟩
    obtain ⟨left, rfl⟩ := Nat.exists_eq_add_of_le' (Nat.le_trans (Nat.le_add_left 1 n) hleft)
    have hstep : op.step p g s = .ok (.next, t) :=
      Operator.step_eq_ok.mpr ⟨op.control_of_not_isControl hcontrol, a, ha, ht⟩
    simp only [Graph.runFrom, hop, hstep]
    exact hn fuel left b (by omega)
  | @goto id ids op s b' block ending hop hcontrol hblock _ ih =>
    obtain ⟨n, hn⟩ := ih
    refine ⟨n + 1, fun fuel left b hleft => ?_⟩
    obtain ⟨left, rfl⟩ := Nat.exists_eq_add_of_le' (Nat.le_trans (Nat.le_add_left 1 n) hleft)
    have hstep : op.step p g s = .ok (.goto b', s) := Operator.step_eq_ok.mpr
      ⟨hcontrol, none, op.action_of_isControl (isControl_of_control hcontrol nofun), rfl⟩
    simp only [Graph.runFrom, hop, hstep, hblock]
    exact hn fuel left b' (by omega)
  | @done id ids op s value hop hcontrol =>
    refine ⟨1, fun fuel left b hleft => ?_⟩
    obtain ⟨left, rfl⟩ := Nat.exists_eq_add_of_le' hleft
    have hstep : op.step p g s = .ok (.done value, s) := Operator.step_eq_ok.mpr
      ⟨hcontrol, none, op.action_of_isControl (isControl_of_control hcontrol nofun), rfl⟩
    simp only [Graph.runFrom, hop, hstep]
    exact ⟨_, rfl, rfl, rfl⟩
  | @fault id ids op s ending hop _ hfault =>
    refine ⟨1, fun fuel left b hleft => ?_⟩
    obtain ⟨left, rfl⟩ := Nat.exists_eq_add_of_le' hleft
    have hstep : ∀ {e}, op.action p g s = .error e → op.step p g s = .error e := by
      intro e he
      have hc : op.isControl = false := by
        cases hc : op.isControl with
        | false => rfl
        | true => rw [op.action_of_isControl hc] at he; cases he
      rw [Operator.step, op.control_of_not_isControl hc, Operator.effect_eq_action, he]
      rfl
    cases hfault with
    | null ha hcheck =>
      simp only [Graph.runFrom, hop, hstep ha]
      exact ⟨id, op, rfl, hop, hcheck⟩
    | range ha hcheck =>
      simp only [Graph.runFrom, hop, hstep ha]
      exact ⟨id, op, _, _, rfl, hop, hcheck⟩

/-- On these arguments and this heap the graph runs to the ending. -/
def Computes (g : Graph) (p : Pool) (args : List Value) (heap : Heap) (ending : Ending) : Prop :=
  g.arguments.length = args.length ∧ ∃ block, g.block g.entry = some block ∧
    g.Runs p block.ops (g.initial args heap) ending

variable {args : List Value} {heap : Heap}

theorem exists_entry_of_answers {fuel : Nat} (h : ending.Answers g (g.run p args heap fuel)) :
    ∃ block, g.block g.entry = some block := by
  unfold run at h
  split at h
  · cases ending <;> simp [Ending.Answers] at h
  · split at h
    · cases ending <;> simp [Ending.Answers] at h
    · exact ⟨_, ‹_›⟩

theorem computes_of_run {fuel : Nat}
    (hknown : ∀ {id op}, id ∈ g.attached → g.op id = some op → ∀ x ∈ op.reads, x.index < g.vars.size)
    (htyped : ∀ s ∈ g.trace p args heap fuel, g.respects p s ∧ g.fieldsApart p s)
    (h : ending.Answers g (g.run p args heap fuel)) : g.Computes p args heap ending := by
  unfold run at h
  split at h
  · cases ending <;> simp [Ending.Answers] at h
  · rename_i hargs
    cases hblock : g.block g.entry with
    | none =>
      rw [hblock] at h
      cases ending <;> simp [Ending.Answers] at h
    | some block =>
      simp only [hblock] at h
      simp only [trace, hblock, Option.elim_some] at htyped
      exact ⟨by simpa using hargs, block, hblock, runs_of_runFrom hknown
        (fun id hid => mem_attached.mpr ⟨_, block, hblock, hid⟩) htyped h⟩

theorem Computes.run (h : g.Computes p args heap ending) :
    ∃ n, ∀ fuel, n ≤ fuel → ending.Answers g (g.run p args heap fuel) := by
  obtain ⟨hargs, block, hblock, hruns⟩ := h
  obtain ⟨n, hn⟩ := hruns.runFrom
  refine ⟨n, fun fuel hfuel => ?_⟩
  simp only [Graph.run, hargs, hblock, ne_eq, not_true_eq_false, if_false]
  exact hn fuel fuel g.entry hfuel

end Graph
end ScalarLowering
