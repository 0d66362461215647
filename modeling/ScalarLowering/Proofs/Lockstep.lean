import ScalarLowering.Proofs.DeadCode
import ScalarLowering.Proofs.Discipline
import ScalarLowering.Proofs.Order
import ScalarLowering.Proofs.Reachability

/-! Runs under one budget. A graph keeps up with another one if for each operator of that graph it
has one that takes the same step, or none where the step makes no difference to it. It then returns
whenever the other one does, after at most as many steps, and after exactly as many if it has an
operator for each. -/

namespace ScalarLowering

namespace Graph

variable {g g' : Graph} {p : Pool} {T : Frame → Prop} {f : OpId → List OpId}
  {R : List OpId → List OpId → Frame → Frame → Prop} {pre ids : List OpId} {s s' : Frame}
  {args : List Value} {heap : Heap} {fuel : Nat} {o : Outcome}

/-- Where a run goes on after the operator `id`: what has been run of the block then, and what is
to be run. -/
inductive Resumes (g : Graph) (pre : List OpId) (id : OpId) (rest : List OpId) :
    Control → List OpId → List OpId → Prop
  | next : Resumes g pre id rest .next (pre ++ [id]) rest
  | goto {b : BlockId} {block : Block} : g.block b = some block →
    Resumes g pre id rest (.goto b) [] block.ops
  | done {returned : Option Value} : Resumes g pre id rest (.done returned) (pre ++ [id]) rest

/-- The second graph keeps up with the runs of the first one whose frames are as `T` says. The
frames of the two stay in a relation that may depend on where in a block they are. -/
structure KeepsUp (g g' : Graph) (p : Pool) (T : Frame → Prop) (f : OpId → List OpId)
    (R : List OpId → List OpId → Frame → Frame → Prop) : Prop where
  arguments : g'.arguments.length = g.arguments.length
  entry : g'.entry = g.entry
  block : ∀ {b : BlockId} {block : Block}, g.block b = some block →
    ∃ block', g'.block b = some block' ∧ block'.ops = block.ops.flatMap f
  start : ∀ {block args heap}, g.block g.entry = some block → Clean args heap →
    R [] block.ops (g.initial args heap) (g'.initial args heap)
  step : ∀ {pre id rest op s s' control t pre' rest'}, g.At pre (id :: rest) →
    R pre (id :: rest) s s' → g.op id = some op → T s → op.step p g s = .ok (control, t) →
    g.Resumes pre id rest control pre' rest' →
    (f id = [] ∧ control = .next ∧ R pre' rest' t s') ∨
      ∃ n op' t', f id = [n] ∧ g'.op n = some op' ∧ op'.step p g' s' = .ok (control, t') ∧
        R pre' rest' t t'

theorem Continues.resumes {b b' : BlockId} {id : OpId} {rest rest' : List OpId} {control : Control}
    (h : g.Continues b rest control b' rest') (hat : g.At pre (id :: rest)) :
    ∃ pre', g.Resumes pre id rest control pre' rest' ∧ g.At pre' rest' := by
  cases h with
  | next => exact ⟨_, .next, hat.next⟩
  | goto hblock => exact ⟨_, .goto hblock, .start hblock⟩

theorem KeepsUp.continues {b b' : BlockId} {rest rest' : List OpId} {control : Control}
    (h : g.KeepsUp g' p T f R) (hcontinues : g.Continues b rest control b' rest') :
    g'.Continues b (rest.flatMap f) control b' (rest'.flatMap f) := by
  cases hcontinues with
  | next => exact .next
  | goto hblock =>
    obtain ⟨block', hblock', hops⟩ := h.block hblock
    exact hops ▸ .goto hblock'

/-- Each frame of the second list belongs to one of the first. -/
def Matched (R : List OpId → List OpId → Frame → Frame → Prop) (us us' : List Frame) : Prop :=
  ∀ u' ∈ us', ∃ u ∈ us, ∃ pre rest, R pre rest u u'

theorem Matched.skip {us us' : List Frame} (h : Matched R us us') (s : Frame) :
    Matched R (s :: us) us' := by
  intro u' hu'
  obtain ⟨u, hu, hR⟩ := h u' hu'
  exact ⟨u, List.mem_cons_of_mem s hu, hR⟩

theorem Matched.cons {us us' : List Frame} (h : Matched R us us') (hR : R pre ids s s') :
    Matched R (s :: us) (s' :: us') := by
  refine List.forall_mem_cons.mpr ⟨⟨s, List.mem_cons_self, pre, ids, hR⟩, h.skip s⟩

/-- The second run returns with what is left of its budget if the first one does, and each of its
frames belongs to one of the first. -/
theorem KeepsUp.runFrom (h : g.KeepsUp g' p T f R) {left left' : Nat} {b : BlockId}
    (hat : g.At pre ids) (hR : R pre ids s s') (hleft : left ≤ left')
    (hT : ∀ u ∈ g.traceFrom p left ids s, T u) (hrun : g.runFrom p fuel left b ids s = .ok o) :
    ∃ o', g'.runFrom p fuel left' b (ids.flatMap f) s' = .ok o' ∧ o'.returned = o.returned ∧
      o'.steps ≤ o.steps ∧ (left' = left → (∀ id, f id ≠ []) → o'.steps = o.steps) ∧
      (∃ pre rest, R pre rest o.toFrame o'.toFrame) ∧
      Matched R (g.traceFrom p left ids s) (g'.traceFrom p left' (ids.flatMap f) s') := by
  induction left generalizing left' b pre ids s s' with
  | zero =>
    obtain ⟨_, _, _, _, _, _, hzero, -⟩ := runFrom_eq_ok hrun
    cases hzero
  | succ left ih =>
    obtain ⟨_, id, rest, op, control, t, ⟨⟩, rfl, hop, hstep, hcase⟩ := runFrom_eq_ok hrun
    have hs : T s := hT s (by simp [traceFrom])
    rw [List.flatMap_cons]
    obtain ⟨returned, rfl, rfl⟩ | ⟨b₁, rest₁, hcontinues, hrun₁⟩ := hcase
    · obtain ⟨-, hnext, -⟩ | ⟨n, op', t', hf, hop', hstep', hR'⟩ := h.step hat hR hop hs hstep .done
      · cases hnext
      · obtain ⟨left', rfl⟩ : ∃ k, left' = k + 1 := ⟨left' - 1, by omega⟩
        refine ⟨{ t' with returned, steps := fuel - left' }, ?_, rfl, ?_, fun heq _ => ?_,
          ⟨_, _, hR'⟩, ?_⟩
        · simp [hf, Graph.runFrom, hop', hstep']
        · exact Nat.sub_le_sub_left (Nat.le_of_succ_le_succ hleft) fuel
        · rw [Nat.succ.inj heq]
        · have hlast : Matched R [t] [t'] := Matched.cons (by simp [Matched]) hR'
          simpa [hf, traceFrom, hop, hstep, hop', hstep'] using hlast.cons hR
    · obtain ⟨pre₁, hresumes, hat₁⟩ := hcontinues.resumes hat
      rw [traceFrom_of_continues hop hstep hcontinues] at hT ⊢
      have hT₁ := fun u hu => hT u (List.mem_cons_of_mem s hu)
      obtain ⟨hf, rfl, hR'⟩ | ⟨n, op', t', hf, hop', hstep', hR'⟩ :=
        h.step hat hR hop hs hstep hresumes
      · -- the second run does without the operator, and has a step more to go
        cases hcontinues
        obtain ⟨o', hrun', hreturned, hsteps, -, hend, hframes⟩ :=
          ih hat₁ hR' (Nat.le_of_succ_le hleft) hT₁ hrun₁
        rw [hf, List.nil_append]
        exact ⟨o', hrun', hreturned, hsteps, fun _ hall => absurd hf (hall id), hend, hframes.skip s⟩
      · obtain ⟨left', rfl⟩ : ∃ k, left' = k + 1 := ⟨left' - 1, by omega⟩
        obtain ⟨o', hrun', hreturned, hsteps, hexact, hend, hframes⟩ :=
          ih hat₁ hR' (Nat.le_of_succ_le_succ hleft) hT₁ hrun₁
        have hcontinues' := h.continues hcontinues
        rw [hf, List.singleton_append, runFrom_of_continues hop' hstep' hcontinues',
          traceFrom_of_continues hop' hstep' hcontinues']
        exact ⟨o', hrun', hreturned, hsteps, fun heq => hexact (Nat.succ.inj heq), hend,
          hframes.cons hR⟩

theorem WideInvariant.resume {I : List OpId → List OpId → Frame → Prop} {id : OpId} {op : Operator}
    {rest pre' rest' : List OpId} {control : Control} {t : Frame} (hI : g.WideInvariant p I)
    (hat : g.At pre (id :: rest)) (hs : g.Sane p s) (h : I pre (id :: rest) s) (hop : g.op id = some op)
    (hapart : op.Apart p g s) (hstep : op.step p g s = .ok (control, t))
    (hresumes : g.Resumes pre id rest control pre' rest') : I pre' rest' t := by
  obtain ⟨hcontrol, a, ha, ht⟩ := Operator.step_eq_ok.mp hstep
  cases hresumes with
  | next => exact hI.next hat hs h hop hapart ha ht
  | done => exact hI.next hat hs h hop hapart ha ht
  | goto hb =>
    obtain rfl := frame_of_control hcontrol (by simp) ha ht
    exact hI.enter hat hs h hop hcontrol hb

theorem KeepsUp.run (h : g.KeepsUp g' p T f R) (hclean : Clean args heap)
    (hT : ∀ u ∈ g.trace p args heap fuel, T u) (hrun : g.run p args heap fuel = .ok o) :
    ∃ o', g'.run p args heap fuel = .ok o' ∧ o'.returned = o.returned ∧ o'.steps ≤ o.steps ∧
      ((∀ id, f id ≠ []) → o'.steps = o.steps) ∧ (∃ pre rest, R pre rest o.toFrame o'.toFrame) ∧
      Matched R (g.trace p args heap fuel) (g'.trace p args heap fuel) := by
  unfold Graph.run at hrun ⊢
  split at hrun
  · cases hrun
  · rename_i hlength
    rw [if_neg (by rwa [h.arguments]), h.entry]
    cases hb : g.block g.entry with
    | none => simp [hb] at hrun
    | some block =>
      obtain ⟨block', hb', hops⟩ := h.block hb
      simp only [trace, hb, Option.elim_some] at hT
      simp only [hb] at hrun
      simp only [hb', hops]
      obtain ⟨o', hrun', hreturned, hsteps, hexact, hend, hframes⟩ :=
        h.runFrom (.start hb) (h.start hb hclean) (Nat.le_refl fuel) hT hrun
      refine ⟨o', hrun', hreturned, hsteps, hexact rfl, hend, ?_⟩
      simpa only [trace, h.entry, hb, hb', Option.elim_some, hops] using hframes

theorem SameVars.step (h : g.SameVars g') (op : Operator) (s : Frame) :
    op.step p g' s = op.step p g s := by
  unfold Operator.step
  rw [Operator.effect_eq_action, Operator.effect_eq_action, (h.mirrors op s).action]

theorem mirrors_of_code_eq {op op' : Operator} (h : op'.code = op.code) : op.Mirrors op' g g s s := by
  obtain ⟨hkind, hargs, hresults, hflags⟩ := Operator.code_eq.mp h
  exact ⟨hkind, hresults, hflags, ⟨fun e => e, by simp [hargs], fun _ _ => ⟨rfl, rfl⟩⟩, rfl,
    fun _ _ _ _ => rfl, fun _ => by rw [hargs]⟩

theorem effect_of_code {op op' : Operator} (h : op'.code = op.code) :
    op'.effect p g s = op.effect p g s := by
  rw [Operator.effect_eq_action, Operator.effect_eq_action, (mirrors_of_code_eq h).action]

theorem step_of_code {op op' : Operator} (h : op'.code = op.code) :
    op'.step p g s = op.step p g s := by
  unfold Operator.step
  rw [effect_of_code h, (mirrors_of_code_eq (g := g) h).control]

theorem SameCode.runFrom (h : g.SameCode g') (fuel left : Nat) (b : BlockId) :
    g'.runFrom p fuel left b ids s = g.runFrom p fuel left b ids s := by
  induction left generalizing b ids s with
  | zero => cases ids <;> rfl
  | succ left ih =>
    cases ids with
    | nil => rfl
    | cons id ids => simp only [Graph.runFrom, h.op_eq, h.block_eq, h.sameVars.step, ih]

theorem SameCode.run (h : g.SameCode g') (p : Pool) (args : List Value) (heap : Heap)
    (fuel : Nat) : g'.run p args heap fuel = g.run p args heap fuel := by
  have hinitial : (initialVars g'.vars.toList args).toArray = (initialVars g.vars.toList args).toArray :=
    congrArg Frame.vars (h.sameVars.initial args heap)
  simp only [Graph.run, h.sameVars.arguments, h.entry, h.block_eq, hinitial, h.runFrom]

/-- One operator can be put for another that takes the same steps in the frames that a run can
meet. -/
theorem keepsUp_of_replaced {old n : OpId} {op new : Operator} {I : Frame → Prop} (hg : g.Linked)
    (h : g.Spliced g' old [n]) (hold : g.op old = some op)
    (hnew : (g'.op n).map (·.code) = some new.code)
    (hstart : ∀ {args heap}, Clean args heap → I (g.initial args heap))
    (hnext : ∀ {id op s t a}, id ∈ g.attached → g.op id = some op → I s →
      op.action p g s = .ok a → s.perform a = some t → I t)
    (hsame : ∀ {s control t}, I s → op.step p g s = .ok (control, t) →
      new.step p g s = .ok (control, t)) :
    g.KeepsUp g' p (fun _ => True) (splice old [n]) fun _ _ s s' => s' = s ∧ I s := by
  have hvars : g.SameVars g' := sameVars_of_vars_eq h.vars
  refine ⟨hvars.arguments, h.entry, h.block_eq_some,
    fun _ hclean => ⟨hvars.initial _ _, hstart hclean⟩, ?_⟩
  rintro pre id rest op' s s' control t pre' rest' hat ⟨rfl, hs⟩ hop _ hstep -
  have hid := mem_attached_of_at hat
  obtain ⟨-, a, ha, ht⟩ := Operator.step_eq_ok.mp hstep
  have hI := hnext hid hop hs ha ht
  refine .inr ?_
  by_cases hne : id = old
  · subst hne
    obtain rfl := Option.some.inj (hold.symm.trans hop)
    obtain ⟨new', hnew', hcode⟩ := Option.map_eq_some_iff.mp hnew
    refine ⟨n, new', t, splice_self _ _, hnew', ?_, rfl, hI⟩
    rw [hvars.step, step_of_code hcode]
    exact hsame hs hstep
  · refine ⟨id, op', t, splice_of_ne _ hne, ?_, ?_, rfl, hI⟩
    · rw [h.op (.inl hne) (hg.lt_of_mem hid), hop]
    · rw [hvars.step, hstep]

/-- Every run of the first graph that returns is a run of the second one, to the last variable. -/
def Retraces (g g' : Graph) (p : Pool) : Prop :=
  ∀ ⦃args heap fuel o⦄, Clean args heap → g.run p args heap fuel = .ok o →
    g'.run p args heap fuel = .ok o

theorem Retraces.refl (g : Graph) : g.Retraces g p := fun _ _ _ _ _ hrun => hrun

theorem Retraces.trans {g'' : Graph} (h : g.Retraces g' p) (h' : g'.Retraces g'' p) :
    g.Retraces g'' p := fun _ _ _ _ hclean hrun => h' hclean (h hclean hrun)

theorem SameCode.retraces (h : g.SameCode g') : g.Retraces g' p :=
  fun _ _ _ _ _ hrun => (h.run ..).trans hrun

theorem KeepsUp.retraces {I : Frame → Prop}
    (h : g.KeepsUp g' p (fun _ => True) f fun _ _ s s' => s' = s ∧ I s) (hf : ∀ id, f id ≠ []) :
    g.Retraces g' p := by
  intro args heap fuel o hclean hrun
  obtain ⟨⟨frame', returned', steps'⟩, hrun', hreturned, -, hsteps, ⟨-, -, hframe, -⟩, -⟩ :=
    h.run hclean (fun _ _ => .intro) hrun
  obtain ⟨frame, returned, steps⟩ := o
  obtain rfl : frame' = frame := hframe
  obtain rfl : returned' = returned := hreturned
  obtain rfl : steps' = steps := hsteps hf
  exact hrun'

/-- Whether only variables of scalar types hold payloads. -/
def keepsApart (g : Graph) (p : Pool) (s : Frame) : Bool :=
  g.varIds.all (g.holdsApart p s)

theorem apart_of_keepsApart {op : Operator} (h : g.keepsApart p s) (hs : g.Sane p s) :
    op.Apart p g s := by
  intro f x w _ _ hbits
  have hlt : x.index < s.vars.size := (Array.getElem?_eq_some_iff.mp hbits).1
  have hx := List.all_eq_true.mp h x ((mem_varIds g).mpr (hs.size ▸ hlt))
  exact scalar_of_holdsApart hx hbits

/-- Every run of the first graph that keeps payloads apart and returns is matched by one of the second
graph that keeps them apart too, returns the same and leaves the same heap. -/
def Replays (g g' : Graph) (p : Pool) : Prop :=
  ∀ ⦃args heap fuel o⦄, Clean args heap → (∀ s ∈ g.trace p args heap fuel, g.keepsApart p s) →
    g.run p args heap fuel = .ok o → (∀ s ∈ g'.trace p args heap fuel, g'.keepsApart p s) ∧
      ∃ o', g'.run p args heap fuel = .ok o' ∧ o'.returned = o.returned ∧ o'.heap = o.heap ∧
        o'.steps ≤ o.steps

theorem Replays.refl (g : Graph) : g.Replays g p :=
  fun _ _ _ o _ htyped hrun => ⟨htyped, o, hrun, rfl, rfl, Nat.le_refl _⟩

theorem Replays.trans {g'' : Graph} (h : g.Replays g' p) (h' : g'.Replays g'' p) :
    g.Replays g'' p := by
  intro args heap fuel o hclean htyped hrun
  obtain ⟨htyped', o', hrun', hreturned', hheap', hsteps'⟩ := h hclean htyped hrun
  obtain ⟨htyped'', o'', hrun'', hreturned, hheap, hsteps⟩ := h' hclean htyped' hrun'
  exact ⟨htyped'', o'', hrun'', hreturned.trans hreturned', hheap.trans hheap',
    Nat.le_trans hsteps hsteps'⟩

theorem KeepsUp.replays (h : g.KeepsUp g' p (fun s => g.keepsApart p s) f R)
    (hR : ∀ {pre rest s s'}, R pre rest s s' →
      s'.heap = s.heap ∧ (g.keepsApart p s → g'.keepsApart p s')) : g.Replays g' p := by
  intro args heap fuel o hclean htyped hrun
  obtain ⟨o', hrun', hreturned, hsteps, -, ⟨_, _, hend⟩, hframes⟩ := h.run hclean htyped hrun
  refine ⟨fun s' hs' => ?_, o', hrun', hreturned, (hR hend).1, hsteps⟩
  obtain ⟨s, hs, _, _, hRs⟩ := hframes s' hs'
  exact (hR hRs).2 (htyped s hs)

theorem SameVars.keepsApart (h : g.SameVars g') (s : Frame) :
    g'.keepsApart p s = g.keepsApart p s := by
  have hsize : g'.vars.size = g.vars.size := by simpa using congrArg List.length h.map_isArgument
  have hholds : g'.holdsApart p s = g.holdsApart p s :=
    funext fun x => by rw [holdsApart, holdsApart, h.kindOf]
  rw [Graph.keepsApart, Graph.keepsApart, varIds, varIds, hsize, hholds]

theorem SameCode.replays (h : g.SameCode g') : g.Replays g' p := by
  have hkeeps : g.KeepsUp g' p (fun s => g.keepsApart p s) (fun id => [id]) fun _ _ s s' => s' = s := by
    refine ⟨h.sameVars.arguments, h.entry, fun {b block} hb => ⟨block, h.block_eq ▸ hb, by simp⟩,
      fun _ _ => h.sameVars.initial _ _, ?_⟩
    rintro pre id rest op s s' control t pre' rest' - rfl hop - hstep -
    exact .inr ⟨id, op, t, rfl, h.op_eq ▸ hop, by rw [h.sameVars.step, hstep], rfl⟩
  refine hkeeps.replays ?_
  rintro - - s s' rfl
  exact ⟨rfl, fun hs => (h.sameVars.keepsApart s').trans hs⟩

theorem exists_entry_of_run (h : g.run p args heap fuel = .ok o) :
    ∃ block, g.block g.entry = some block := by
  have hanswers : (Ending.returned o.returned o.heap).Answers g (g.run p args heap fuel) :=
    ⟨o, h, rfl, rfl⟩
  exact exists_entry_of_answers hanswers

def answer? (g : Graph) (p : Pool) (args : List Value) (heap : Heap) (fuel : Nat) :
    Option (Option Value × Nat) :=
  match g.run p args heap fuel with
  | .ok o => some (o.returned, o.steps)
  | .error _ => none

theorem exists_run_of_answer? {v : Option Value} {n : Nat}
    (h : g.answer? p args heap fuel = some (v, n)) :
    ∃ o, g.run p args heap fuel = .ok o ∧ o.returned = v ∧ o.steps = n := by
  unfold answer? at h
  split at h
  · cases h
    exact ⟨_, ‹_›, rfl, rfl⟩
  · cases h

theorem WellShaped.controlLast (hg : g.WellShaped) : g.ControlLast := by
  intro block hblock id hid
  obtain ⟨b, hb⟩ := mem_blocks.mp hblock
  cases hop : g.op id with
  | none => rfl
  | some op =>
    rw [Option.all_some, Bool.not_eq_true']
    by_contra hcontrol
    have hlast := hg.control hb (List.dropLast_subset _ hid) hop (by simpa using hcontrol)
    obtain ⟨init, hops⟩ := List.getLast?_eq_some_iff.mp hlast
    have hnodup := hg.linked.nodup hb
    rw [hops] at hid hnodup
    simp only [List.dropLast_concat] at hid
    exact (List.nodup_append.mp hnodup).2.2 id hid id (List.mem_singleton_self id) rfl

end Graph
end ScalarLowering
