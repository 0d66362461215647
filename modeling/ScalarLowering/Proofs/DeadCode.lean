import ScalarLowering.Proofs.Elimination
import ScalarLowering.Proofs.Rewrites

/-! Runs and the elimination of dead variables. What is left of a graph are some of its operators,
which may have lost results that nobody reads; what is gone only computed such results. A pointer
to a variable comes from an operator that reads it, so the variables that nobody reads are out of
reach for the operators that stay, and a run of the smaller graph keeps up with any run that
returns. -/

namespace ScalarLowering

/-- The operator as it is left: it may have lost its results, if nobody reads them. -/
structure Operator.Lighter (unread : VarId → Prop) (op op' : Operator) : Prop where
  kind : op'.kind = op.kind
  args : op'.args = op.args
  flags : op'.flags = op.flags
  results : op'.results = op.results ∨ op'.results = [] ∧ ∀ v ∈ op.results, unread v

namespace Operator

variable {unread unread' : VarId → Prop} {op op' op'' : Operator}

theorem Lighter.refl (op : Operator) : op.Lighter unread op := ⟨rfl, rfl, rfl, .inl rfl⟩

theorem Lighter.trans (h : op.Lighter unread op') (h' : op'.Lighter unread' op'')
    (himp : ∀ v, unread v → unread' v) : op.Lighter unread' op'' where
  kind := h'.kind.trans h.kind
  args := h'.args.trans h.args
  flags := h'.flags.trans h.flags
  results := by
    obtain hsame | ⟨hnone, hunread⟩ := h.results
    · rw [← hsame]
      exact h'.results
    · refine .inr ⟨?_, fun v hv => himp v (hunread v hv)⟩
      obtain hsame' | ⟨hnone', -⟩ := h'.results
      · exact hsame'.trans hnone
      · exact hnone'

theorem Lighter.isPure (h : op.Lighter unread op') : op'.isPure = op.isPure := by
  simp only [Operator.isPure, Operator.mayFault, h.kind, h.flags]

theorem Lighter.unread_of_results (h : op.Lighter unread op') (himp : ∀ v, unread v → unread' v)
    (hresults : ∀ v ∈ op'.results, unread' v) : ∀ v ∈ op.results, unread' v := by
  obtain hsame | ⟨-, hunread⟩ := h.results
  · exact hsame ▸ hresults
  · exact fun v hv => himp v (hunread v hv)

theorem Lighter.control {s : Frame} (h : op.Lighter unread op') : op'.control s = op.control s := by
  unfold Operator.control
  simp only [Frame.arg, h.kind, h.args]

theorem Lighter.action {p : Pool} {g : Graph} {s : Frame} (h : op.Lighter unread op')
    (hresults : op'.results = op.results) : op'.action p g s = op.action p g s := by
  have hm : op.Mirrors op' g g s s :=
    ⟨h.kind, hresults, h.flags, ⟨fun e => e, by simp [h.args], fun _ _ => ⟨rfl, rfl⟩⟩, rfl,
      fun _ _ _ _ => rfl, fun _ => by rw [h.args]⟩
  exact hm.action

theorem definesOnly_of_isPure (h : op.isPure) : op.definesOnly := by
  unfold isPure at h
  unfold definesOnly
  split at h <;> simp_all

end Operator

namespace Graph

variable {g g' g'' : Graph} {p : Pool} {id : OpId} {op : Operator} {v x : VarId} {s s' t : Frame}

/-- The second graph is what is left of the first one without operators that only compute what
nobody reads. -/
structure Thinned (g g' : Graph) : Prop where
  sameVars : g.SameVars g'
  entry : g'.entry = g.entry
  block : ∀ {b : BlockId} {block : Block}, g.block b = some block → ∃ block',
    g'.block b = some block' ∧ block'.ops = block.ops.filter (· ∈ g'.attached)
  kept : ∀ {id : OpId}, id ∈ g'.attached → id ∈ g.attached ∧ ∃ op op', g.op id = some op ∧
    g'.op id = some op' ∧ op.Lighter (fun v => g'.readers v = []) op'
  gone : ∀ {id : OpId}, id ∈ g.attached → id ∉ g'.attached → ∃ op, g.op id = some op ∧
    op.isPure ∧ ∀ v ∈ op.results, g'.readers v = []

theorem Thinned.readers_eq_nil (h : g.Thinned g') (v : VarId) (hv : g.readers v = []) :
    g'.readers v = [] := by
  refine List.eq_nil_iff_forall_not_mem.mpr fun id hid => ?_
  obtain ⟨hid, op', hop', hreads⟩ := mem_readers.mp hid
  obtain ⟨hattached, op, op₁, hop, hop₁, hlighter⟩ := h.kept hid
  obtain rfl := Option.some.inj (hop₁.symm.trans hop')
  have hmem : id ∈ g.readers v := by
    refine mem_readers.mpr ⟨hattached, op, hop, ?_⟩
    simpa [Operator.readsVar, Operator.reads, hlighter.args] using hreads
  simp [hv] at hmem

theorem Thinned.trans (h : g.Thinned g') (h' : g'.Thinned g'') : g.Thinned g'' where
  sameVars x := (h'.sameVars x).trans (h.sameVars x)
  entry := h'.entry.trans h.entry
  block hb := by
    obtain ⟨block', hb', hops'⟩ := h.block hb
    obtain ⟨block'', hb'', hops''⟩ := h'.block hb'
    refine ⟨block'', hb'', ?_⟩
    rw [hops'', hops', List.filter_filter]
    refine List.filter_congr fun id _ => ?_
    by_cases hid : id ∈ g''.attached
    · simp [hid, (h'.kept hid).1]
    · simp [hid]
  kept hid := by
    obtain ⟨hid', op', op'', hop', hop'', hlighter'⟩ := h'.kept hid
    obtain ⟨hattached, op, op₁, hop, hop₁, hlighter⟩ := h.kept hid'
    obtain rfl := Option.some.inj (hop₁.symm.trans hop')
    exact ⟨hattached, op, op'', hop, hop'', hlighter.trans hlighter' h'.readers_eq_nil⟩
  gone {id} hid hgone := by
    by_cases hid' : id ∈ g'.attached
    · obtain ⟨op', hop', hpure, hunread⟩ := h'.gone hid' hgone
      obtain ⟨-, op, op₁, hop, hop₁, hlighter⟩ := h.kept hid'
      obtain rfl := Option.some.inj (hop₁.symm.trans hop')
      exact ⟨op, hop, hlighter.isPure ▸ hpure, hlighter.unread_of_results h'.readers_eq_nil hunread⟩
    · obtain ⟨op, hop, hpure, hunread⟩ := h.gone hid hid'
      exact ⟨op, hop, hpure, fun v hv => h'.readers_eq_nil v (hunread v hv)⟩

theorem Thinned.of_blocks_eq (hvars : g.SameVars g') (hentry : g'.entry = g.entry)
    (hblocks : g'.blocks = g.blocks)
    (hop : ∀ {id}, id ∈ g.attached → ∃ op op', g.op id = some op ∧ g'.op id = some op' ∧
      op.Lighter (fun v => g'.readers v = []) op') : g.Thinned g' := by
  have hattached : g'.attached = g.attached := by simp [attached, hblocks]
  refine ⟨hvars, hentry, fun {b block} hb => ⟨block, ?_, ?_⟩, fun {id} hid => ?_,
    fun hid hgone => absurd (hattached ▸ hid) hgone⟩
  · simpa [Graph.block, hblocks] using hb
  · refine (List.filter_eq_self.mpr fun id hid => decide_eq_true ?_).symm
    rw [hattached]
    exact mem_attached.mpr ⟨b, block, hb, hid⟩
  · rw [hattached] at hid
    exact ⟨hid, hop hid⟩

theorem thinned_erased (hg : g.Linked) (hop : g.op id = some op) (hpure : op.isPure)
    (hunread : ∀ v ∈ op.results, g.readers v = []) (h : g.Spliced g' id []) : g.Thinned g' := by
  have hmem : ∀ {x}, x ∈ g'.attached ↔ x ≠ id ∧ x ∈ g.attached := by
    intro x
    simpa using h.mem_attached (x := x)
  refine ⟨sameVars_of_vars_eq h.vars, h.entry, fun {b block} hb => ?_, fun {x} hx => ?_,
    fun {x} hx hgone => ?_⟩
  · refine ⟨{ block with ops := block.ops.flatMap (splice id []) }, by rw [h.block, hb]; rfl, ?_⟩
    rw [flatMap_splice_nil]
    refine List.filter_congr fun x hx => ?_
    have hattached : x ∈ g.attached := mem_attached.mpr ⟨b, block, hb, hx⟩
    simp [hmem, hattached]
  · obtain ⟨hne, hattached⟩ := hmem.mp hx
    obtain ⟨op', -, hop', -⟩ := hg.exists_op_of_mem hattached
    exact ⟨hattached, op', op', hop', (h.op (.inl hne) (hg.lt_of_mem hattached)).trans hop', .refl op'⟩
  · obtain rfl : x = id := by
      by_contra hne
      exact hgone (hmem.mpr ⟨hne, hx⟩)
    exact ⟨op, hop, hpure, fun v hv => Edit.readers_of_erased hg h (hunread v hv)⟩

def SingleResults (g : Graph) : Prop :=
  ∀ {id : OpId} {op : Operator}, id ∈ g.attached → g.op id = some op → op.results.length ≤ 1

theorem Thinned.singleResults (h : g.Thinned g') (hg : g.SingleResults) : g'.SingleResults := by
  intro id op' hid hop'
  obtain ⟨hattached, op, op₁, hop, hop₁, hlighter⟩ := h.kept hid
  obtain rfl := Option.some.inj (hop₁.symm.trans hop')
  obtain hsame | ⟨hnone, -⟩ := hlighter.results
  · rw [hsame]
    exact hg hattached hop
  · simp [hnone]

theorem thinned_stripResult (hg : g.Linked) (hsingle : g.SingleResults) (hv : g.readers v = []) :
    g.Thinned (g.stripResult id v) := by
  refine .of_blocks_eq (sameVars_of_vars_eq rfl) rfl rfl fun {x} hx => ?_
  obtain ⟨op, -, hop, -⟩ := hg.exists_op_of_mem hx
  rw [op_stripResult, hop]
  split
  · refine ⟨op, op.withoutResult v, rfl, rfl, rfl, rfl, rfl, ?_⟩
    have hlength := hsingle hx hop
    by_cases hmem : v ∈ op.results
    · obtain ⟨w, hw⟩ := List.length_eq_one_iff.mp
        (Nat.le_antisymm hlength (List.length_pos_of_mem hmem))
      obtain rfl : v = w := by simpa [hw] using hmem
      exact .inr ⟨by simp [Operator.withoutResult, hw],
        by simpa [hw, Edit.readers_stripResult hg] using hv⟩
    · refine .inl (List.filter_eq_self.mpr fun w hw => decide_eq_true ?_)
      rintro rfl
      exact hmem hw
  · exact ⟨op, op, rfl, rfl, .refl op⟩

theorem entry_dropUnmentioned : g.dropUnmentioned.2.entry = g.entry := by
  unfold dropUnmentioned
  dsimp only
  split <;> rfl

theorem blocks_dropUnmentioned : g.dropUnmentioned.2.blocks = g.blocks := by
  unfold dropUnmentioned
  dsimp only
  split <;> rfl

theorem sameVars_dropUnmentioned : g.SameVars g.dropUnmentioned.2 := by
  intro x
  rw [var_dropUnmentioned]
  cases g.var x with
  | none => rfl
  | some info =>
    simp only [Option.map_some]
    split <;> rfl

theorem thinned_dropUnmentioned (hg : g.Linked) : g.Thinned g.dropUnmentioned.2 := by
  refine .of_blocks_eq sameVars_dropUnmentioned entry_dropUnmentioned blocks_dropUnmentioned
    fun {id} hid => ?_
  obtain ⟨op, -, hop, -⟩ := hg.exists_op_of_mem hid
  exact ⟨op, op, hop, (op_dropUnmentioned id).trans hop, .refl op⟩

theorem SameCode.sameVars (h : g.SameCode g') : g.SameVars g' := fun x => by
  simpa [Function.comp_def] using
    congrArg (Option.map fun info : Variable => (info.kind, info.type)) (h.var x)

theorem SameCode.thinned (h : g.SameCode g') (hg' : g'.Linked) : g.Thinned g' := by
  refine .of_blocks_eq h.sameVars h.entry h.blocks fun {id} hid => ?_
  obtain ⟨op, -, hop, -⟩ := hg'.exists_op_of_mem (h.attached_eq ▸ hid)
  exact ⟨op, op, h.op_eq ▸ hop, hop, .refl op⟩

theorem deadInvariant_thinned (hsingle : g.SingleResults) : DeadInvariant (g.Thinned ·) where
  sameCode hcode hg' h := h.trans (hcode.thinned hg'.linked)
  remove hg h hop hpure hunread hs := h.trans (thinned_erased hg hop hpure hunread hs)
  strip hg h _ _ hv _ := h.trans (thinned_stripResult hg (h.singleResults hsingle) hv)
  drop hg h := h.trans (thinned_dropUnmentioned hg)

/-- Pointers to variables point to variables that are read. -/
def Contained (g : Graph) (s : Frame) : Prop :=
  ∀ l x, s.read l = some (.pointer (.var x)) → g.readers x ≠ []

theorem readers_ne_nil (hid : id ∈ g.attached) (hop : g.op id = some op) (hx : x ∈ op.reads) :
    g.readers x ≠ [] :=
  List.ne_nil_of_mem (mem_readers_of_reads hid hop hx)

theorem Contained.step {a : Option (Location × Value)} (hs : g.Contained s) (hid : id ∈ g.attached)
    (hop : g.op id = some op) (ha : op.action p g s = .ok a) (ht : s.perform a = some t) :
    g.Contained t := by
  rcases a with _ | ⟨l, v⟩
  · obtain rfl := Option.some.inj ht
    exact hs
  intro l' x hl'
  rw [Frame.read_perform ht] at hl'
  split at hl'
  · obtain rfl := Option.some.inj hl'
    obtain hact | ⟨f, r, y, w, hfield, -, heq⟩ := Operator.action_cases ha
    · cases hact with
      | plain _ hplain => exact absurd rfl (hplain x)
      | address _ htakes => exact readers_ne_nil hid hop htakes.mem_reads
      | operand _ _ hv _ =>
        obtain ⟨y, -, hy⟩ := eval_eq_pointer hv
        exact hs _ x hy
      | content _ hv _ => exact hs _ x hv
    · obtain rfl : x = y := by simpa using heq
      exact readers_ne_nil hid hop (Operator.mem_reads_of_mem (List.mem_of_mem_head? hfield.head))
  · exact hs l' x hl'

/-- The second frame is that of the smaller graph: it has the same heap and the same values of the
variables that are read. -/
structure InStep (g : Graph) (s s' : Frame) : Prop where
  agree : Frame.Agree (fun v => g.readers v = []) s s'
  size : s'.vars.size = s.vars.size
  contained : g.Contained s'

theorem InStep.read_var (h : g.InStep s s') (hx : g.readers x ≠ []) :
    s'.read (.var x) = s.read (.var x) := by
  by_cases hlt : x.index < s.vars.size
  · exact h.agree.var hx hlt
  · have hlt' : ¬ x.index < s'.vars.size := h.size ▸ hlt
    simp only [Frame.read, Array.getElem?_eq_none (Nat.le_of_not_lt hlt),
      Array.getElem?_eq_none (Nat.le_of_not_lt hlt')]

theorem InStep.mirrors (h : g'.InStep s s') (hvars : g.SameVars g') (hid : id ∈ g'.attached)
    (hop : g'.op id = some op) : op.Mirrors op g g' s s' := by
  have heval : ∀ e ∈ op.args, s'.eval e = s.eval e := by
    intro e he
    cases e with
    | const c => rfl
    | var x => exact h.read_var (readers_ne_nil hid hop (Operator.mem_reads_of_mem he))
  refine ⟨rfl, rfl, rfl, ⟨fun e => e, by simp, fun e he => ⟨heval e he, hvars.typeOf e⟩⟩,
    h.agree.heap, fun e he l hl => ?_, fun _ => rfl⟩
  cases l with
  | var x =>
    rw [← heval e he] at hl
    obtain ⟨y, -, hy⟩ := eval_eq_pointer hl
    exact h.read_var (h.contained _ x hy)
  | field o f => exact h.agree.read (by simp)
  | static f => exact h.agree.read (by simp)
  | element a i => exact h.agree.read (by simp)

/-- An operator that only computed what nobody reads makes no difference when it is gone. -/
theorem Thinned.step_gone {control : Control} (h : g.Thinned g') (hs : g'.InStep s s')
    (hid : id ∈ g.attached) (hgone : id ∉ g'.attached) (hop : g.op id = some op)
    (hstep : op.step p g s = .ok (control, t)) : control = .next ∧ g'.InStep t s' := by
  obtain ⟨op₁, hop₁, hpure, hunread⟩ := h.gone hid hgone
  obtain rfl := Option.some.inj (hop₁.symm.trans hop)
  obtain ⟨hcontrol, a, ha, ht⟩ := Operator.step_eq_ok.mp hstep
  have hdefines := Operator.definesOnly_of_isPure hpure
  rw [Operator.control_of_not_isControl (isControl_of_definesOnly hdefines)] at hcontrol
  exact ⟨(Except.ok.inj hcontrol).symm, Agree.definesOnly hdefines ha ht hs.agree hunread,
    hs.size.trans (Frame.size_perform ht).symm, hs.contained⟩

/-- An operator that is kept does what it did, but for results that nobody reads. -/
theorem Thinned.step_kept {control : Control} (h : g.Thinned g') (hs : g'.InStep s s')
    (hid : id ∈ g'.attached) (hop : g.op id = some op)
    (hstep : op.step p g s = .ok (control, t)) : ∃ op' t', g'.op id = some op' ∧
      op'.step p g' s' = .ok (control, t') ∧ g'.InStep t t' := by
  obtain ⟨-, op₁, op', hop₁, hop', hlighter⟩ := h.kept hid
  obtain rfl := Option.some.inj (hop₁.symm.trans hop)
  obtain ⟨hcontrol, a, ha, ht⟩ := Operator.step_eq_ok.mp hstep
  have hm := hs.mirrors h.sameVars hid hop'
  have hcontrol' : op'.control s' = .ok control := by
    rw [hm.control, ← hcontrol, hlighter.control]
  have hsame : op'.action p g s = .ok a → ∃ t', op'.step p g' s' = .ok (control, t') ∧
      g'.InStep t t' := by
    intro ha'
    obtain ⟨t', ht', hagree⟩ := hs.agree.perform ht
    have hact : op'.action p g' s' = .ok a := hm.action.trans ha'
    refine ⟨t', Operator.step_eq_ok.mpr ⟨hcontrol', a, hact, ht'⟩, hagree, ?_,
      Contained.step hs.contained hid hop' hact ht'⟩
    rw [Frame.size_perform ht', Frame.size_perform ht, hs.size]
  suffices hnext : ∃ t', op'.step p g' s' = .ok (control, t') ∧ g'.InStep t t' by
    obtain ⟨t', hstep', hs'⟩ := hnext
    exact ⟨op', t', hop', hstep', hs'⟩
  obtain hresults | ⟨hnone, hunread⟩ := hlighter.results
  · exact hsame ((hlighter.action hresults).trans ha)
  · have hresult : op'.result? = none := by simp [Operator.result?, hnone]
    obtain hact | ⟨hact, hinto⟩ :=
      Operator.stripped_action (p := p) (g := g) (s := s) hlighter.kind hlighter.args hresult
    · exact hsame (hact.trans ha)
    · obtain ⟨w, rfl⟩ := hinto a ha
      rw [ha] at hact
      exact ⟨s', Operator.step_eq_ok.mpr ⟨hcontrol', none, hm.action.trans hact, rfl⟩,
        Agree.into hs.agree ht hunread, hs.size.trans (Frame.size_perform ht).symm, hs.contained⟩

theorem Thinned.continues {b b' : BlockId} {rest rest' : List OpId} {control : Control}
    (h : g.Thinned g') (hcontinues : g.Continues b rest control b' rest') :
    g'.Continues b (rest.filter (· ∈ g'.attached)) control b'
      (rest'.filter (· ∈ g'.attached)) := by
  cases hcontinues with
  | next => exact .next
  | goto hblock =>
    obtain ⟨block', hblock', hops⟩ := h.block hblock
    exact hops ▸ .goto hblock'

/-- From frames in step, what is left of the operators returns if they did, with at least as many
steps to go. -/
theorem Thinned.runFrom (h : g.Thinned g') {fuel left left' : Nat} {b : BlockId} {ids : List OpId}
    {o : Outcome} (hids : ∀ id ∈ ids, id ∈ g.attached) (hs : g'.InStep s s') (hleft : left ≤ left')
    (hrun : g.runFrom p fuel left b ids s = .ok o) :
    ∃ o', g'.runFrom p fuel left' b (ids.filter (· ∈ g'.attached)) s' = .ok o' ∧
      o'.returned = o.returned ∧ o'.steps ≤ o.steps ∧ g'.InStep o.toFrame o'.toFrame := by
  induction left generalizing left' b ids s s' with
  | zero =>
    obtain ⟨_, _, _, _, _, _, hzero, -⟩ := runFrom_eq_ok hrun
    cases hzero
  | succ left ih =>
    obtain ⟨_, id, rest, op, control, t, ⟨⟩, rfl, hop, hstep, hcase⟩ := runFrom_eq_ok hrun
    have hid := hids id List.mem_cons_self
    have hrest : ∀ x ∈ rest, x ∈ g.attached := fun x hx => hids x (List.mem_cons_of_mem _ hx)
    by_cases hkept : id ∈ g'.attached
    · obtain ⟨op', t', hop', hstep', ht⟩ := h.step_kept hs hkept hop hstep
      obtain ⟨left', rfl⟩ : ∃ k, left' = k + 1 := ⟨left' - 1, by omega⟩
      rw [List.filter_cons_of_pos (by simpa using hkept)]
      obtain ⟨returned, rfl, rfl⟩ | ⟨b₁, rest₁, hcontinues, hrun₁⟩ := hcase
      · simp only [Graph.runFrom, hop', hstep']
        exact ⟨_, rfl, rfl, Nat.sub_le_sub_left (Nat.le_of_succ_le_succ hleft) fuel, ht⟩
      · rw [runFrom_of_continues hop' hstep' (h.continues hcontinues)]
        exact ih (hcontinues.attached hrest) ht (Nat.le_of_succ_le_succ hleft) hrun₁
    · obtain ⟨rfl, ht⟩ := h.step_gone hs hid hkept hop hstep
      rw [List.filter_cons_of_neg (by simpa using hkept)]
      obtain ⟨returned, hdone, -⟩ | ⟨b₁, rest₁, hcontinues, hrun₁⟩ := hcase
      · cases hdone
      · cases hcontinues
        exact ih hrest ht (Nat.le_of_succ_le hleft) hrun₁

theorem Thinned.run (h : g.Thinned g') {args : List Value} {heap : Heap} {fuel : Nat} {o : Outcome}
    (hclean : Clean args heap) (hrun : g.run p args heap fuel = .ok o) :
    ∃ o', g'.run p args heap fuel = .ok o' ∧ o'.returned = o.returned ∧ o'.steps ≤ o.steps ∧
      g'.InStep o.toFrame o'.toFrame := by
  unfold Graph.run at hrun ⊢
  split at hrun
  · cases hrun
  · rename_i hlength
    rw [if_neg (by rwa [h.sameVars.arguments]), h.entry]
    cases hb : g.block g.entry with
    | none => simp [hb] at hrun
    | some block =>
      obtain ⟨block', hb', hops⟩ := h.block hb
      have hstart : g'.InStep (g.initial args heap) (g'.initial args heap) := by
        refine ⟨?_, by rw [h.sameVars.initial], fun _ _ hl => absurd hl (read_initial_ne_pointer hclean)⟩
        rw [h.sameVars.initial]
        exact .refl _
      simp only [hb] at hrun
      simp only [hb', hops]
      exact h.runFrom (fun x hx => mem_attached.mpr ⟨g.entry, block, hb, hx⟩) hstart (Nat.le_refl _) hrun

/-- Where operators have one result at most, a run that returns is matched by a run of the graph
without its dead variables: with the same fuel it returns the same value, leaves the same heap and
takes no more steps, and every variable that is still read ends with the same value. -/
theorem run_eliminateDead {g g' : Graph} {n : Nat} (hg : g.Built)
    (hsingle : ∀ {id op}, id ∈ g.attached → g.op id = some op → op.results.length ≤ 1)
    (h : Edit.eliminateDead g = .ok n g') {p : Pool} {args : List Value} {heap : Heap} {fuel : Nat}
    {o : Outcome} (hclean : Clean args heap) (hrun : g.run p args heap fuel = .ok o) :
    ∃ o', g'.run p args heap fuel = .ok o' ∧ o'.returned = o.returned ∧ o'.heap = o.heap ∧
      o'.steps ≤ o.steps ∧ ∀ x, g'.readers x ≠ [] → o'.vars[x.index]? = o.vars[x.index]? := by
  have hself : g.Thinned g := (SameCode.refl g).thinned hg.coherent.linked
  have hthinned : g.Thinned g' :=
    (Edit.eliminateDead_induction (deadInvariant_thinned hsingle) ⟨hg.coherent, hself⟩ h).2
  obtain ⟨o', hrun', hreturned, hsteps, hstep⟩ := hthinned.run hclean hrun
  exact ⟨o', hrun', hreturned, hstep.agree.heap, hsteps, fun x hx => hstep.read_var hx⟩

/-- Copies a local that is never read, and reads an argument through its address, checked, for
nothing but the check. -/
def idleReads : Graph := (empty "f").changed
  [.addVar .argument (.ofScalar .i32), .addVar .local ⟨14⟩, .addVar .local (.ofScalar .i32),
    .addVar .local (.ofScalar .i32), .append ⟨0⟩ (.addressOf ⟨1⟩ ⟨0⟩),
    .append ⟨0⟩ (.loadIndirect (.ofScalar .i32) ⟨2⟩ (.var ⟨1⟩) true),
    .append ⟨0⟩ (.copy ⟨3⟩ (.var ⟨0⟩)), .append ⟨0⟩ (.ret (some (.var ⟨0⟩)))]

theorem run_eliminateDead_idleReads : ∃ n g', Edit.eliminateDead idleReads = .ok n g' ∧
    g'.attached = [⟨0⟩, ⟨1⟩, ⟨3⟩] ∧ g'.readers ⟨1⟩ ≠ [] ∧
    ∃ o', g'.run Pool.new [.bits 7] .empty 4 = .ok o' ∧ o'.returned = some (.bits 7) ∧
      o'.steps ≤ 4 ∧ o'.vars[1]? = some (.pointer (.var ⟨0⟩)) := by
  have hresults : ∀ op ∈ idleReads.ops, op.results.length ≤ 1 := by decide
  have hclean : Clean [.bits 7] .empty := by
    refine fun x => ⟨by simp, ?_⟩
    rintro (⟨o, f, h⟩ | ⟨f, h⟩ | ⟨a, i, h⟩)
    · simp [Heap.field, Heap.empty] at h
    · simp [Heap.static, Heap.empty, Fields.get] at h
    · simp [Heap.element, Heap.elements, Heap.empty] at h
  obtain ⟨n, h⟩ := Edit.exists_ok_of_succeeds
    (by decide +kernel : Edit.eliminateDead.succeeds idleReads)
  obtain ⟨o, hrun, hreturned, hsteps, hvar⟩ : ∃ o, idleReads.run Pool.new [.bits 7] .empty 4 = .ok o ∧
      o.returned = some (.bits 7) ∧ o.steps = 4 ∧ o.vars[1]? = some (.pointer (.var ⟨0⟩)) :=
    ⟨_, rfl, rfl, rfl, rfl⟩
  have hread : (Edit.eliminateDead.after idleReads).readers ⟨1⟩ ≠ [] := by decide +kernel
  obtain ⟨o', hrun', hreturned', -, hsteps', hvars⟩ := run_eliminateDead ((Built.empty "f").changed _)
    (fun _ hop => hresults _ (Array.mem_of_getElem? hop)) h hclean hrun
  exact ⟨n, _, h, by decide +kernel, hread, o', hrun', hreturned'.trans hreturned,
    hsteps ▸ hsteps', (hvars ⟨1⟩ hread).trans hvar⟩

end Graph
end ScalarLowering
