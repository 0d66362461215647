import ScalarLowering.Proofs.Simulation
import ScalarLowering.Proofs.WellShaped

/-! The changes that keep what a graph computes: each of them alone, under the facts about runs
that it rests on. -/

namespace ScalarLowering

namespace Graph

variable {g g' : Graph} {p : Pool} {faults : Bool} {W : VarId → Prop} {id old : OpId}
  {op op' : Operator} {s s' t : Frame} {pre rest ids : List OpId}

def SameVars (g g' : Graph) : Prop :=
  ∀ x, (g'.var x).map (fun info => (info.kind, info.type)) =
    (g.var x).map fun info => (info.kind, info.type)

theorem sameVars_of_vars_eq (h : g'.vars = g.vars) : g.SameVars g' := fun x => by simp [var, h]

theorem SameVars.typeOf (h : g.SameVars g') (e : Expr) : g'.typeOf e = g.typeOf e := by
  cases e with
  | const c => rfl
  | var x => simpa [Graph.typeOf, Function.comp_def] using congrArg (Option.map Prod.snd) (h x)

theorem kindOf_eq (x : VarId) : g.kindOf p x = (g.typeOf (.var x)).bind p.kind := by
  simp only [kindOf, typeOf, Option.bind_map]
  rfl

theorem SameVars.kindOf (h : g.SameVars g') (x : VarId) : g'.kindOf p x = g.kindOf p x := by
  rw [kindOf_eq, kindOf_eq, h.typeOf]

theorem SameVars.map_isArgument (h : g.SameVars g') :
    g'.vars.toList.map (·.isArgument) = g.vars.toList.map (·.isArgument) := by
  refine List.ext_getElem? fun i => ?_
  have hi := congrArg (Option.map fun d : VarKind × TypeId => decide (d.1 = .argument)) (h ⟨i⟩)
  simpa [var, Function.comp_def, Variable.isArgument] using hi

theorem initialVars_congr {vs vs' : List Variable}
    (h : vs'.map (·.isArgument) = vs.map (·.isArgument)) (args : List Value) :
    initialVars vs' args = initialVars vs args := by
  induction vs generalizing vs' args with
  | nil =>
    obtain rfl : vs' = [] := by simpa using h
    rfl
  | cons v vs ih =>
    obtain ⟨v', vs', rfl⟩ : ∃ v' vs'', vs' = v' :: vs'' := by
      cases vs' with
      | nil => simp at h
      | cons v' vs'' => exact ⟨v', vs'', rfl⟩
    simp only [List.map_cons, List.cons.injEq] at h
    simp only [initialVars, h.1, ih h.2]

theorem SameVars.initial (h : g.SameVars g') (args : List Value) (heap : Heap) :
    g'.initial args heap = g.initial args heap := by
  rw [Graph.initial, initialVars_congr h.map_isArgument, Graph.initial]

theorem length_arguments (g : Graph) :
    g.arguments.length = (g.vars.toList.map (·.isArgument)).count true := by
  rw [arguments, ← List.countP_eq_length_filter, List.count, List.countP_map]
  congr 1
  funext v
  simp

theorem SameVars.arguments (h : g.SameVars g') : g'.arguments.length = g.arguments.length := by
  rw [length_arguments, length_arguments, h.map_isArgument]

theorem mem_attached_of_at (h : g.At pre (id :: rest)) : id ∈ g.attached := by
  obtain ⟨b, block, hb, hops⟩ := h
  exact mem_attached.mpr ⟨b, block, hb, by simp [hops]⟩

theorem WellShaped.known (hg : g.WellShaped) (hid : id ∈ g.attached) (hop : g.op id = some op)
    {x : VarId} (hx : x ∈ op.reads) : x.index < g.vars.size := by
  obtain ⟨info, hinfo, -⟩ := (hg.fits hid hop).live x (List.mem_append_left _ hx)
  exact var_eq_some_lt hinfo

theorem WellShaped.free (hg : g.WellShaped) (hW : ∀ x, W x → g.readers x = []) (hs : g.Sane p s)
    (hid : id ∈ g.attached) (hop : g.op id = some op) {x : VarId} (hx : x ∈ op.reads) :
    ¬W x ∧ x.index < s.vars.size := by
  refine ⟨fun hw => ?_, hs.size ▸ hg.known hid hop hx⟩
  have hmem := mem_readers_of_reads hid hop hx
  simp [hW x hw] at hmem

theorem not_exposed_of_readers {x : VarId} (h : g.readers x = []) : ¬g.Exposed p x := by
  rintro ⟨id, op, hid, hop, htakes⟩
  have hmem := mem_readers_of_reads hid hop htakes.mem_reads
  simp [h] at hmem

theorem read_of_eval_pointer {e : Expr} {l : Location} (hg : g.WellShaped)
    (hW : ∀ x, W x → ¬g.Exposed p x) (hs : g.Sane p s) (hagree : Frame.Agree W s s')
    (hl : s.eval e = some (.pointer l)) : s'.read l = s.read l := by
  refine hagree.read ?_
  rintro x rfl
  obtain ⟨y, -, hy⟩ := eval_eq_pointer hl
  obtain ⟨id, op, hid, hop, htakes⟩ := hs.exposed hy
  exact ⟨fun hw => hW x hw (hs.exposed hy), hs.size ▸ hg.known hid hop htakes.mem_reads⟩

/-- An operator that reads none of the variables in which the frames may differ does the same in
both, as long as nothing points to these variables. -/
theorem mirrors_of_code (op : Operator) (hg : g.WellShaped)
    (htype : ∀ x, x.index < g.vars.size → g'.typeOf (.var x) = g.typeOf (.var x))
    (hW : ∀ x, W x → ¬g.Exposed p x) (hfree : ∀ x ∈ op.reads, ¬W x ∧ x.index < s.vars.size)
    (hcode : op'.code = op.code) (hs : g.Sane p s) (hagree : Frame.Agree W s s') :
    op.Mirrors op' g g' s s' ∧ (op.Safe p g s → op'.Safe p g' s') := by
  obtain ⟨hkind, hargs, hresults, hflags⟩ := Operator.code_eq.mp hcode
  refine ⟨⟨hkind, hresults, hflags, ⟨fun e => e, by simp [hargs], fun e he => ?_⟩, hagree.heap,
    fun _ _ _ hl => read_of_eval_pointer hg hW hs hagree hl, fun _ => by rw [hargs]⟩,
    fun hsafe huses x v hx hv => ?_⟩
  · cases e with
    | const c => exact ⟨rfl, rfl⟩
    | var x =>
      obtain ⟨hw, hlt⟩ := hfree x (Operator.mem_reads_of_mem he)
      exact ⟨hagree.var hw hlt, htype x (hs.size ▸ hlt)⟩
  · rw [hargs] at hx
    obtain ⟨hw, hlt⟩ := hfree x (Operator.mem_reads_of_mem (List.mem_of_mem_head? hx))
    rw [hkind, kindOf_eq, htype x (hs.size ▸ hlt), ← kindOf_eq]
    exact hsafe (by simpa [Operator.usesReceiver, hkind] using huses) x v hx
      (hagree.var hw hlt ▸ hv)

theorem follows_of_code {f : OpId → List OpId} (hg : g.WellShaped)
    (htype : ∀ x, x.index < g.vars.size → g'.typeOf (.var x) = g.typeOf (.var x))
    (hW : ∀ x, W x → g.readers x = []) (hid : id ∈ g.attached) (hop : g.op id = some op)
    (hf : f id = [id]) (hop' : g'.op id = some op') (hcode : op'.code = op.code)
    (hs : g.Sane p s) (hagree : Frame.Agree W s s') :
    Follows g g' p f faults W id rest op s s' := by
  obtain ⟨hm, hsafe⟩ := mirrors_of_code op hg htype (fun x hx => not_exposed_of_readers (hW x hx))
    (fun _ hx => hg.free hW hs hid hop hx) hcode hs hagree
  exact .mirrored hf hop' fun h => ⟨hm, hsafe h⟩

theorem preserves_of_sameVars (hg : g.WellShaped) (hblocks : g'.blocks = g.blocks)
    (hentry : g'.entry = g.entry) (hop : ∀ id, g'.op id = g.op id) (hvars : g.SameVars g') :
    g.Preserves g' p faults := by
  refine preserves_of_follows (W := fun _ => False) (f := fun id => [id]) (fun {b block} hb => ?_)
    hentry hvars.arguments (fun args heap => ?_) .trivial fun hat hs _ hagree hopid => ?_
  · exact ⟨block, by simpa [Graph.block, hblocks] using hb, by simp⟩
  · rw [hvars.initial]
    exact .refl _
  · exact follows_of_code hg (fun x _ => hvars.typeOf _) (fun _ => False.elim)
      (mem_attached_of_at hat) hopid rfl ((hop _).trans hopid) rfl hs hagree

theorem initialVars_append (vs : List Variable) {v : Variable} (hv : v.isArgument = false)
    (args : List Value) : initialVars (vs ++ [v]) args = initialVars vs args ++ [.undefined] := by
  induction vs generalizing args with
  | nil => simp [initialVars, hv]
  | cons w vs ih =>
    simp only [List.cons_append, initialVars]
    split <;> simp [ih]

theorem preserves_addVar (hg : g.WellShaped) (t : TypeId) :
    g.Preserves (g.addVar .temporary t).2 p faults := by
  have hinitial : ∀ args heap, (g.addVar .temporary t).2.initial args heap =
      { g.initial args heap with vars := (g.initial args heap).vars.push .undefined } := by
    intro args heap
    have hv : Variable.isArgument { kind := .temporary, type := t } = false := rfl
    simp [Graph.initial, addVar, bump, initialVars_append _ hv]
  refine preserves_of_follows (W := fun _ => False) (f := fun id => [id]) (fun {b block} hb => ?_)
    rfl ?_ (fun args heap => ?_) .trivial fun {pre id rest op s s'} hat hs _ hagree hopid => ?_
  · exact ⟨block, hb, by simp⟩
  · rw [length_arguments, length_arguments]
    simp [addVar, bump, Variable.isArgument]
  · rw [hinitial]
    refine ⟨rfl, by simp, fun {x} _ hlt => ?_⟩
    simp [Frame.read, Array.getElem?_push, Nat.ne_of_lt hlt]
  · refine follows_of_code hg (fun x hx => ?_) (fun _ => False.elim) (mem_attached_of_at hat) hopid
      rfl hopid rfl hs hagree
    simp only [typeOf, var_addVar, if_neg (Nat.ne_of_lt hx)]

theorem Spliced.block_eq_some (h : g.Spliced g' old ids) {b : BlockId} {block : Block}
    (hb : g.block b = some block) : ∃ block', g'.block b = some block' ∧
      block'.ops = block.ops.flatMap (splice old ids) := by
  rw [h.block, hb]
  exact ⟨_, rfl, rfl⟩

/-- Operators that do what one operator did can be put for it. The variables they write beside
are read by nobody. -/
theorem preserves_of_spliced {I : List OpId → List OpId → Frame → Prop} (hg : g.WellShaped)
    (h : g.Spliced g' old ids) (hW : ∀ x, W x → g.readers x = []) (hI : g.RunInvariant p I)
    (hold : g.op old = some op) (hcontrol : op.isControl = false)
    (hnext : ∀ {pre rest s s' a t}, g.At pre (old :: rest) → g.Sane p s → I pre (old :: rest) s →
      Frame.Agree W s s' → op.Safe p g s → op.action p g s = .ok a → s.perform a = some t →
      ∃ t', g'.Execs p ids s' t' ∧ Frame.Agree W t t')
    (hfault : ∀ {pre rest s s' ending}, faults → g.At pre (old :: rest) → g.Sane p s →
      I pre (old :: rest) s → Frame.Agree W s s' → op.Safe p g s → op.Faults p g s ending →
      g'.Runs p (ids ++ rest.flatMap (splice old ids)) s' ending) : g.Preserves g' p faults := by
  have hvars := sameVars_of_vars_eq h.vars
  refine preserves_of_follows (f := splice old ids) (W := W) h.block_eq_some h.entry hvars.arguments
    (fun args heap => ?_) hI fun {pre id rest op' s s'} hat hs hIs hagree hopid => ?_
  · rw [hvars.initial]
    exact .refl _
  by_cases hne : id = old
  · subst hne
    obtain rfl := Option.some.inj (hold.symm.trans hopid)
    refine .changed hcontrol (fun hsafe ha ht => ?_) fun hfaults hsafe hends => ?_
    · rw [splice_self]
      exact hnext hat hs hIs hagree hsafe ha ht
    · rw [splice_self]
      exact hfault hfaults hat hs hIs hagree hsafe hends
  · have hid := mem_attached_of_at hat
    exact follows_of_code hg (fun x _ => hvars.typeOf _) hW hid hopid (splice_of_ne ids hne)
      ((h.op (.inl hne) (hg.linked.lt_of_mem hid)).trans hopid) rfl hs hagree

theorem preserves_of_replaced {I : List OpId → List OpId → Frame → Prop} {new : Operator}
    (hg : g.WellShaped) (h : g.Spliced g' old [id]) (hI : g.RunInvariant p I)
    (hold : g.op old = some op) (hcontrol : op.isControl = false)
    (hcode : (g'.op id).map (·.code) = some new.code) (hnew : new.isControl = false)
    (hreads : ∀ x ∈ new.reads, x.index < g.vars.size)
    (hsame : ∀ {pre rest s a}, g.At pre (old :: rest) → g.Sane p s → I pre (old :: rest) s →
      op.Safe p g s → op.action p g s = .ok a → new.Safe p g s ∧ new.action p g s = .ok a)
    (hfault : ∀ {pre rest s ending}, faults → g.At pre (old :: rest) → g.Sane p s →
      I pre (old :: rest) s → op.Safe p g s → ¬op.Faults p g s ending) :
    g.Preserves g' p faults := by
  obtain ⟨op', hop', hcode⟩ := Option.map_eq_some_iff.mp hcode
  refine preserves_of_spliced (W := fun _ => False) hg h (fun _ => False.elim) hI hold hcontrol
    (fun hat hs hIs hagree hsafe ha ht => ?_)
    fun hfaults hat hs hIs _ hsafe hends => absurd hends (hfault hfaults hat hs hIs hsafe)
  obtain ⟨hnewSafe, hnewAction⟩ := hsame hat hs hIs hsafe ha
  obtain ⟨hm, hsafe'⟩ := mirrors_of_code new hg
    (fun x _ => (sameVars_of_vars_eq h.vars).typeOf _) (fun _ => False.elim)
    (fun x hx => ⟨not_false, hs.size ▸ hreads x hx⟩) hcode hs hagree
  obtain ⟨t', ht', hagree'⟩ := hagree.perform ht
  refine ⟨t', .cons hop' (hsafe' hnewSafe) ?_ (hm.action.trans hnewAction) ht' .nil, hagree'⟩
  rw [isControl_of_code hcode.symm]
  exact hnew

end Graph

def Operator.definesOnly (op : Operator) : Bool :=
  match op.kind with
  | .call _ | .storeField _ | .storeIndirect | .jump _ | .branch _ _ | .ret => false
  | _ => true

theorem Operator.action_of_definesOnly {op : Operator} {p : Pool} {g : Graph} {s : Frame}
    {a : Option (Location × Value)} (h : op.definesOnly) (ha : op.action p g s = .ok a) :
    a = none ∨ ∃ v, a = op.into v := by
  unfold action at ha
  cases hkind : op.kind <;> simp only [hkind, Except.bind_eq_ok, Except.pure_eq_ok] at ha
  case loadField f =>
    obtain ⟨_, -, v, -, rfl⟩ := ha
    exact .inr ⟨v, rfl⟩
  case loadStatic f => exact .inr ⟨_, ha.symm⟩
  case loadFieldAddress f =>
    obtain ⟨_, -, l, -, rfl⟩ := ha
    exact .inr ⟨_, rfl⟩
  case loadStaticAddress f => exact .inr ⟨_, ha.symm⟩
  case loadElement =>
    obtain ⟨_, -, _, -, _, -, v, -, rfl⟩ := ha
    exact .inr ⟨v, rfl⟩
  case loadElementAddress =>
    obtain ⟨_, -, _, -, l, -, rfl⟩ := ha
    exact .inr ⟨_, rfl⟩
  case addressOf =>
    split at ha
    · exact .inr ⟨_, (Except.pure_eq_ok.mp ha).symm⟩
    · simp at ha
  case loadIndirect t =>
    obtain ⟨_, -, _, -, v, -, rfl⟩ := ha
    exact .inr ⟨v, rfl⟩
  case copy =>
    obtain ⟨v, -, rfl⟩ := ha
    exact .inr ⟨v, rfl⟩
  case compare c =>
    obtain ⟨_, -, _, -, _, -, _, -, rfl⟩ := ha
    exact .inr ⟨_, rfl⟩
  case nop => exact .inl (Except.ok.inj ha).symm
  all_goals simp [definesOnly, hkind] at h

namespace Graph

variable {g g' : Graph} {p : Pool} {faults : Bool} {W : VarId → Prop} {id old : OpId}
  {op op' : Operator} {s s' t : Frame} {pre rest ids : List OpId}

theorem execs_nop (h : (g.op id).map (·.code) = some Operator.nop.code) (s : Frame) :
    g.Execs p [id] s s := by
  obtain ⟨nop, hnop, hcode⟩ := Option.map_eq_some_iff.mp h
  have hkind : nop.kind = .nop := (Operator.code_eq.mp hcode).1
  refine .cons hnop ?_ ?_ (a := none) ?_ rfl .nil
  · intro huses
    simp [Operator.usesReceiver, hkind] at huses
  · simp [Operator.isControl, hkind, OpKind.isControl]
  · simp [Operator.action, hkind]

theorem isControl_of_definesOnly (h : op.definesOnly) : op.isControl = false := by
  unfold Operator.definesOnly at h
  unfold Operator.isControl OpKind.isControl
  split at h <;> simp_all

theorem Agree.into {v : Value} (hagree : Frame.Agree W s s') (ht : s.perform (op.into v) = some t)
    (hW : ∀ x ∈ op.results, W x) : Frame.Agree W t s' := by
  unfold Operator.into at ht
  cases hr : op.result? with
  | none =>
    rw [hr] at ht
    obtain rfl := Option.some.inj ht
    exact hagree
  | some x =>
    rw [hr] at ht
    exact hagree.write_left (hW x (List.mem_of_mem_head? hr)) ht

theorem Agree.definesOnly (hdefines : op.definesOnly) (ha : op.action p g s = .ok a)
    (ht : s.perform a = some t) (hagree : Frame.Agree W s s') (hW : ∀ x ∈ op.results, W x) :
    Frame.Agree W t s' := by
  obtain rfl | ⟨v, rfl⟩ := op.action_of_definesOnly hdefines ha
  · obtain rfl := Option.some.inj ht
    exact hagree
  · exact Agree.into hagree ht hW

theorem preserves_of_erased {I : List OpId → List OpId → Frame → Prop}
    (hg : g.WellShaped) (h : g.Spliced g' old ids) (hI : g.RunInvariant p I)
    (hids : ids = [] ∨ ∃ id, ids = [id] ∧ (g'.op id).map (·.code) = some .nop)
    (hold : g.op old = some op) (hdefines : op.definesOnly)
    (hunread : ∀ x ∈ op.results, g.readers x = [])
    (hfault : ∀ {pre rest s s' ending}, faults → g.At pre (old :: rest) → g.Sane p s →
      I pre (old :: rest) s → Frame.Agree (· ∈ op.results) s s' → op.Safe p g s →
      op.Faults p g s ending → g'.Runs p (ids ++ rest.flatMap (splice old ids)) s' ending) :
    g.Preserves g' p faults := by
  have hexecs : ∀ s, g'.Execs p ids s s := by
    intro s
    obtain rfl | ⟨id, rfl, hcode⟩ := hids
    · exact .nil
    · exact execs_nop hcode s
  exact preserves_of_spliced (W := (· ∈ op.results)) hg h hunread hI hold
    (isControl_of_definesOnly hdefines)
    (fun {pre rest s s' a t} _ _ _ hagree _ ha ht =>
      ⟨s', hexecs s', Agree.definesOnly hdefines ha ht hagree fun _ hx => hx⟩) hfault

section Substituting

variable {v : VarId} {e : Expr} (hid : id ∈ g.attached) (hop : g.op id = some op)
  (hfixed : ∀ {id op}, id ∈ g.attached → g.op id = some op → ¬op.TakesAddress p g v)
include hid hop hfixed

theorem head?_substitute_eq (hsafe : op.Safe p g s)
    (hhead : op.kind = .addressOf ∨ ((∃ f, op.kind = .loadFieldAddress f) ∧
      ∃ w, s.arg op 0 = .ok (.bits w))) : (op.substitute v e).args.head? = op.args.head? := by
  have hne : op.args.head? ≠ some (.var v) := by
    intro hv
    refine hfixed hid hop ⟨hv, ?_⟩
    obtain hkind | ⟨⟨f, hkind⟩, w, hw⟩ := hhead
    · exact .inl hkind
    · obtain ⟨a, ha, hw⟩ := Operator.arg_eq_ok.mp hw
      have hget := hv
      rw [List.head?_eq_getElem?] at hget
      obtain rfl := Option.some.inj (ha.symm.trans hget)
      exact .inr ⟨⟨f, hkind⟩, hsafe.apart hkind hv hw⟩
  simp only [Operator.substitute, List.head?_map]
  cases ha : op.args.head? with
  | none => rfl
  | some a => rw [Option.map_some, if_neg (fun hav => hne (by rw [ha, hav]))]

/-- An operator does the same with an operand of the same type and value for a variable, unless it
takes the address of the variable. -/
theorem mirrors_substitute (hg : g.WellShaped) (hvars : g.SameVars g')
    (htype : g.typeOf e = g.typeOf (.var v)) (hs : g.Sane p s) (hagree : Frame.Agree (· = v) s s')
    (heval : v ∈ op.reads → s'.eval e = s.eval (.var v)) (hsafe : op.Safe p g s) :
    op.Mirrors (op.substitute v e) g g' s s' ∧ (op.substitute v e).Safe p g' s' := by
  have hoperand : ∀ a ∈ op.args, s'.eval (if a = .var v then e else a) = s.eval a ∧
      g'.typeOf (if a = .var v then e else a) = g.typeOf a := by
    intro a ha
    by_cases hav : a = .var v
    · subst hav
      rw [if_pos rfl, hvars.typeOf]
      exact ⟨heval (Operator.mem_reads_of_mem ha), htype⟩
    · rw [if_neg hav, hvars.typeOf]
      cases a with
      | const c => exact ⟨rfl, rfl⟩
      | var x =>
        have hx := hg.known hid hop (Operator.mem_reads_of_mem ha)
        exact ⟨hagree.var (by simpa using hav) (hs.size ▸ hx), rfl⟩
  have hexposed : ∀ x, x = v → ¬g.Exposed p x := by
    rintro x rfl ⟨taker, opt, htaker, hopt, htakes⟩
    exact hfixed htaker hopt htakes
  refine ⟨⟨rfl, rfl, rfl, ⟨_, rfl, hoperand⟩, hagree.heap,
    fun _ _ _ hl => read_of_eval_pointer hg hexposed hs hagree hl,
    head?_substitute_eq hid hop hfixed hsafe⟩, fun huses x w hx hw => ?_⟩
  obtain ⟨a, ha, hax⟩ : ∃ a, op.args.head? = some a ∧ (if a = .var v then e else a) = .var x := by
    simpa [Operator.substitute, List.head?_map] using hx
  obtain ⟨heval', htype'⟩ := hoperand a (List.mem_of_mem_head? ha)
  rw [hax] at heval' htype'
  cases a with
  | const c => simp at hax
  | var y =>
    rw [kindOf_eq, htype', ← kindOf_eq]
    exact hsafe (by simpa [Operator.usesReceiver, Operator.substitute] using huses) y w ha
      (heval'.symm.trans hw)

end Substituting

/-- Readers of a variable can read an operand of the same type that always has its value, unless
they take its address. Then the operator that defines the variable can go. -/
theorem preserves_of_forwarded {I : List OpId → List OpId → Frame → Prop} {g₁ : Graph} {v : VarId}
    {e : Expr} {load n : OpId} (hg : g.WellShaped) (h : g.Rewired g₁ ids v e)
    (hop : ∀ id ∈ g.attached, g₁.op id = (g.op id).map (·.substitute v e))
    (hs : g₁.Spliced g' load [n]) (hn : (g'.op n).map (·.code) = some Operator.nop.code)
    (hI : g.RunInvariant p I) (he : ∀ y, e = .var y → y.index < g.vars.size ∧ y ≠ v)
    (htype : g.typeOf e = g.typeOf (.var v)) (hload : g.op load = some op)
    (hdefines : op.definesOnly) (hresults : ∀ x ∈ op.results, x = v)
    (hfixed : ∀ {id op}, id ∈ g.attached → g.op id = some op → ¬op.TakesAddress p g v)
    (hsame : ∀ {pre id rest op s}, g.At pre (id :: rest) → g.Sane p s → I pre (id :: rest) s →
      g.op id = some op → v ∈ op.reads → s.eval e = s.eval (.var v))
    (hfault : ∀ {pre rest s ending}, faults → g.At pre (load :: rest) → g.Sane p s →
      I pre (load :: rest) s → op.Safe p g s → ¬op.Faults p g s ending) :
    g.Preserves g' p faults := by
  have hvars : g.SameVars g' := sameVars_of_vars_eq (hs.vars.trans h.vars)
  have hblock : ∀ {b block}, g.block b = some block → g₁.block b = some block :=
    fun hb => by simpa [Graph.block, h.blocks] using hb
  refine preserves_of_follows (W := (· = v)) (f := splice load [n])
    (fun hb => hs.block_eq_some (hblock hb)) (hs.entry.trans h.entry) hvars.arguments
    (fun args heap => ?_) hI fun {pre id rest op' s s'} hat hsane hIs hagree hopid => ?_
  · rw [hvars.initial]
    exact .refl _
  have hid := mem_attached_of_at hat
  by_cases hidload : id = load
  · subst hidload
    obtain rfl := Option.some.inj (hload.symm.trans hopid)
    refine .changed (isControl_of_definesOnly hdefines) (fun _ ha ht => ⟨s', ?_, ?_⟩)
      fun hfaults hsafe hends => absurd hends (hfault hfaults hat hsane hIs hsafe)
    · rw [splice_self]
      exact execs_nop hn s'
    · exact Agree.definesOnly hdefines ha ht hagree hresults
  have hop' : g'.op id = some (op'.substitute v e) := by
    have hid₁ : id.index < g₁.ops.size := h.size ▸ hg.linked.lt_of_mem hid
    rw [hs.op (.inl hidload) hid₁, hop id hid, hopid, Option.map_some]
  have heval : v ∈ op'.reads → s'.eval e = s.eval (.var v) := by
    intro hv
    rw [← hsame hat hsane hIs hopid hv]
    cases e with
    | const c => rfl
    | var y => exact hagree.var (he y rfl).2 (hsane.size ▸ (he y rfl).1)
  exact .mirrored (splice_of_ne _ hidload) hop'
    (mirrors_substitute hid hopid hfixed hg hvars htype hsane hagree heval)

end Graph

namespace Operator

variable {op op' : Operator} {p : Pool} {g : Graph} {s : Frame}

/-- The second action is the first one, or does without writing the result. -/
def Stripped (op : Operator) (u u' : Except Fault (Option (Location × Value))) : Prop :=
  u' = u ∨ u' = (fun _ => none) <$> u ∧ ∀ a, u = .ok a → ∃ v, a = op.into v

theorem Stripped.same (u : Except Fault (Option (Location × Value))) : op.Stripped u u := .inl rfl

theorem Stripped.into (v : Value) : op.Stripped (pure (op.into v)) (pure none) :=
  .inr ⟨rfl, fun _ ha => ⟨v, (Except.ok.inj ha).symm⟩⟩

theorem Stripped.bind {α : Type} {x : Except Fault α}
    {f f' : α → Except Fault (Option (Location × Value))} (h : ∀ a, op.Stripped (f a) (f' a)) :
    op.Stripped (x >>= f) (x >>= f') := by
  cases x with
  | error e => exact .same _
  | ok a => exact h a

theorem Stripped.error {u u' : Except Fault (Option (Location × Value))} {e : Fault}
    (h : op.Stripped u u') (he : u = .error e) : u' = .error e := by
  obtain hsame | ⟨hnone, -⟩ := h
  · exact hsame.trans he
  · rw [hnone, he]
    rfl

theorem withoutResult_of_notMem {v : VarId} (h : v ∉ op.results) : op.withoutResult v = op := by
  have hfilter : op.results.filter (· ≠ v) = op.results :=
    List.filter_eq_self.mpr fun y hy => decide_eq_true fun hyv => h (hyv ▸ hy)
  simp only [withoutResult, hfilter]

theorem stripped_callAction (hargs : op'.args = op.args) (hinto : ∀ v, op'.into v = none)
    (m : MethodId) : op.Stripped (op.callAction p m s) (op'.callAction p m s) := by
  unfold callAction
  simp only [Frame.arg, hargs, hinto]
  refine .bind fun method => .bind fun name => .bind fun kind => ?_
  cases kind with
  | none => exact .same _
  | some kind =>
    dsimp only
    cases WrapperMethod.of? method.kind name with
    | none => exact .same _
    | some called =>
      cases called with
      | ctor => exact .same _
      | equals => exact .bind fun _ => .bind fun _ => .bind fun _ => .bind fun _ => .into _
      | opEquality => exact .bind fun _ => .bind fun _ => .bind fun _ => .into _
      | opInequality => exact .bind fun _ => .bind fun _ => .bind fun _ => .into _

/-- Without its result an operator writes nothing in place of the result. -/
theorem stripped_action (hkind : op'.kind = op.kind) (hargs : op'.args = op.args)
    (hresult : op'.result? = none) : op.Stripped (op.action p g s) (op'.action p g s) := by
  have hinto : ∀ v, op'.into v = none := fun v => by rw [Operator.into, hresult, Option.map_none]
  unfold action
  simp only [hkind, hargs, hinto, Frame.arg, Pool.fieldPlace, comparedKind]
  cases op.kind with
  | call m => exact stripped_callAction hargs hinto m
  | loadField f => exact .bind fun _ => .bind fun _ => .into _
  | loadStatic f => exact .into _
  | loadFieldAddress f => exact .bind fun _ => .bind fun _ => .into _
  | loadStaticAddress f => exact .into _
  | loadElement => exact .bind fun _ => .bind fun _ => .bind fun _ => .bind fun _ => .into _
  | loadElementAddress => exact .bind fun _ => .bind fun _ => .bind fun _ => .into _
  | addressOf =>
    dsimp only
    cases op.args.head?.bind Expr.var? with
    | none => exact .same _
    | some x => exact .into _
  | loadIndirect t => exact .bind fun _ => .bind fun _ => .bind fun _ => .into _
  | copy => exact .bind fun _ => .into _
  | compare c => exact .bind fun _ => .bind fun _ => .bind fun _ => .bind fun _ => .into _
  | storeField f => exact .same _
  | storeIndirect => exact .same _
  | nop => exact .same _
  | jump _ => exact .same _
  | branch _ _ => exact .same _
  | ret => exact .same _

end Operator

namespace Graph

variable {g g' : Graph} {p : Pool} {faults : Bool} {id : OpId} {op : Operator}

theorem results_eq_singleton (h : op.Fits g) {v : VarId} (hv : v ∈ op.results) :
    op.results = [v] ∧ op.isControl = false := by
  have hmost : op.kind.resultArity.most ≤ 1 - op.isControl.toNat := by
    unfold Operator.isControl
    cases op.kind <;> simp [OpKind.resultArity, OpKind.isControl, Arity.optional, Arity.exactly]
  have hpos := List.length_pos_of_mem hv
  have hlen := h.results
  have hcontrol : op.isControl = false := by
    cases hc : op.isControl with
    | false => rfl
    | true => rw [hc, Bool.toNat_true] at hmost; omega
  obtain ⟨w, hw⟩ := List.length_eq_one_iff.mp (show op.results.length = 1 by omega)
  rw [hw] at hv ⊢
  exact ⟨by rw [List.mem_singleton.mp hv], hcontrol⟩

theorem follows_withoutResult {v : VarId} {rest : List OpId} {s s' : Frame} (hg : g.WellShaped)
    (hvars : g.SameVars g') (hv : g.readers v = []) (hid : id ∈ g.attached)
    (hop : g.op id = some op) (hop' : g'.op id = some (op.withoutResult v)) (hmem : v ∈ op.results)
    (hs : g.Sane p s) (hagree : Frame.Agree (· = v) s s') :
    Follows g g' p (fun id => [id]) faults (· = v) id rest op s s' := by
  have hW : ∀ x, x = v → g.readers x = [] := by
    rintro x rfl
    exact hv
  obtain ⟨hresults, hcontrol⟩ := results_eq_singleton (hg.fits hid hop) hmem
  have hresult : (op.withoutResult v).result? = none := by
    simp [Operator.result?, Operator.withoutResult, hresults]
  have hstripped : op.Stripped (op.action p g s) ((op.withoutResult v).action p g s) :=
    Operator.stripped_action rfl rfl hresult
  obtain ⟨hm, hsafe'⟩ := mirrors_of_code (op.withoutResult v) hg
    (fun x _ => hvars.typeOf _) (fun x hx => not_exposed_of_readers (hW x hx))
    (fun _ hread => hg.free hW hs hid hop hread) rfl hs hagree
  refine .changed hcontrol (fun {a t} hsafe ha ht => ?_) fun {ending} _ hsafe hends => ?_
  · have hexecs : ∀ {a' t'}, (op.withoutResult v).action p g s = .ok a' →
        s'.perform a' = some t' → g'.Execs p [id] s' t' := fun ha' ht' =>
      .cons hop' (hsafe' hsafe) hcontrol (hm.action.trans ha') ht' .nil
    obtain hsame | ⟨hnone, hinto⟩ := hstripped
    · obtain ⟨t', ht', hagree'⟩ := hagree.perform ht
      exact ⟨t', hexecs (hsame.trans ha) ht', hagree'⟩
    · obtain ⟨w, rfl⟩ := hinto a ha
      have ht : s.write (.var v) w = some t := by
        simpa [Operator.into, Operator.result?, hresults, Frame.perform] using ht
      rw [ha] at hnone
      exact ⟨s', hexecs hnone rfl, hagree.write_left rfl ht⟩
  · refine .fault hop' (hsafe' hsafe) ?_
    cases hends with
    | null he hcheck => exact .null (hm.action.trans (hstripped.error he)) hcheck
    | range he hcheck => exact .range (hm.action.trans (hstripped.error he)) hcheck

/-- A result that nobody reads can go. -/
theorem preserves_stripResult (hg : g.WellShaped) {v : VarId} (hv : g.readers v = []) (id : OpId) :
    g.Preserves (g.stripResult id v) p faults := by
  have hvars : g.SameVars (g.stripResult id v) := sameVars_of_vars_eq rfl
  have hblock : ∀ b, (g.stripResult id v).block b = g.block b := fun b => by simp [stripResult]
  have hW : ∀ x, x = v → g.readers x = [] := by
    rintro x rfl
    exact hv
  refine preserves_of_follows (W := (· = v)) (f := fun id => [id]) (fun {b block} hb => ?_) rfl
    hvars.arguments (fun args heap => ?_) .trivial
    fun {pre x rest op s s'} hat hs _ hagree hop => ?_
  · exact ⟨block, (hblock b).trans hb, by simp⟩
  · rw [hvars.initial]
    exact .refl _
  have hx := mem_attached_of_at hat
  have hop' : (g.stripResult id v).op x = some (if x = id then op.withoutResult v else op) := by
    simp only [stripResult, op_bump, op_modifyOp, hop]
    split <;> rfl
  by_cases hstrip : x = id ∧ v ∈ op.results
  · obtain ⟨rfl, hmem⟩ := hstrip
    rw [if_pos rfl] at hop'
    exact follows_withoutResult hg hvars hv hx hop hop' hmem hs hagree
  · have hcode : (if x = id then op.withoutResult v else op) = op := by
      split
      · rename_i hxid
        exact Operator.withoutResult_of_notMem fun h => hstrip ⟨hxid, h⟩
      · rfl
    rw [hcode] at hop'
    exact follows_of_code hg (fun x _ => hvars.typeOf _) hW hx hop rfl hop' rfl hs hagree

theorem SameVars.mirrors (h : g.SameVars g') (op : Operator) (s : Frame) :
    op.Mirrors op g g' s s :=
  ⟨rfl, rfl, rfl, ⟨fun e => e, by simp, fun e _ => ⟨rfl, h.typeOf e⟩⟩, rfl, fun _ _ _ _ => rfl,
    fun _ => rfl⟩

theorem SameVars.safe (h : g.SameVars g') {s : Frame} (hsafe : op.Safe p g s) : op.Safe p g' s := by
  intro huses x v hx hv
  rw [h.kindOf]
  exact hsafe huses x v hx hv

theorem op_updateReachability_of_reached (hg : g.Linked) {b : BlockId} {block : Block}
    (hb : g.block b = some block) (hreached : b ∉ g.unreached) (hid : id ∈ block.ops) :
    g.updateReachability.2.op id = g.op id := by
  rw [op_updateReachability, if_neg]
  intro hswept
  obtain ⟨b', hb', hblock⟩ := hg.mem_swept.mp hswept
  rw [(hg.listed hb).mp hid] at hblock
  exact hreached (Option.some.inj hblock ▸ hb')

theorem mem_targets_of_control {s : Frame} {b : BlockId} (h : op.control s = .ok (.goto b)) :
    b ∈ op.targets := by
  unfold Operator.control at h
  cases hk : op.kind <;> simp only [hk] at h <;> simp only [Operator.targets, OpKind.targets, hk]
  case jump t =>
    obtain rfl : t = b := by simpa using h
    exact List.mem_singleton.mpr rfl
  case branch t f =>
    obtain ⟨v, -, h⟩ := Except.bind_eq_ok.mp h
    cases v <;> simp at h
    rw [← h]
    split <;> simp
  case ret =>
    split at h
    · obtain ⟨v, -, h⟩ := Except.bind_eq_ok.mp h
      simp at h
    · cases h
  all_goals cases h

theorem preserves_updateReachability (hg : g.WellShaped) :
    g.Preserves g.updateReachability.2 p faults := by
  have hvars : g.SameVars g.updateReachability.2 :=
    sameVars_of_vars_eq vars_updateReachability
  have hblock : ∀ {b block}, g.block b = some block → b ∉ g.unreached →
      g.updateReachability.2.block b = some { block with reachable := true } := by
    intro b block hb hreached
    rw [block_updateReachability, hb, Option.map_some, if_neg hreached]
  have hruns : ∀ {rest s ending}, g.Runs p rest s ending → ∀ {b block pre}, g.block b = some block →
      b ∉ g.unreached → block.ops = pre ++ rest → g.updateReachability.2.Runs p rest s ending := by
    intro rest s ending h
    have hfetch : ∀ {b block pre id ids op}, g.block b = some block → b ∉ g.unreached →
        block.ops = pre ++ id :: ids → g.op id = some op →
          g.updateReachability.2.op id = some op := by
      intro b block pre id ids op hb hreached hops hop
      rw [op_updateReachability_of_reached hg.linked hb hreached (by simp [hops]), hop]
    induction h with
    | next hop hsafe hcontrol ha ht _ ih =>
      intro b block pre hb hreached hops
      exact .next (hfetch hb hreached hops hop) (hvars.safe hsafe) hcontrol
        ((hvars.mirrors _ _).action.trans ha) ht (ih hb hreached (hops.trans (List.append_cons ..)))
    | goto hop hcontrol hb' _ ih =>
      intro b block pre hb hreached hops
      have hreached' := target_notMem_unreached hreached
        (hg.mem_targetsFrom hb (by rw [hops]; simp) hop (mem_targets_of_control hcontrol))
      exact .goto (hfetch hb hreached hops hop) hcontrol (hblock hb' hreached') (ih hb' hreached' (List.nil_append _).symm)
    | done hop hcontrol =>
      intro b block pre hb hreached hops
      exact .done (hfetch hb hreached hops hop) hcontrol
    | fault hop hsafe hends =>
      intro b block pre hb hreached hops
      exact .fault (hfetch hb hreached hops hop) (hvars.safe hsafe)
        (hends.of_action (hvars.mirrors _ _).action rfl)
  rintro args heap ending - - ⟨hlength, block, hb, h⟩
  refine ⟨hvars.arguments.trans hlength, { block with reachable := true }, ?_, ?_⟩
  · rw [entry_updateReachability]
    exact hblock hb entry_notMem_unreached
  · rw [hvars.initial]
    exact hruns h hb entry_notMem_unreached (List.nil_append _).symm

end Graph
end ScalarLowering
