import ScalarLowering.Proofs.Aliasing

/-! Runs of a graph and of a changed one in step. The frames agree but for some variables that
nobody reads and nothing points at; every operator does in the changed graph what it did before,
or is one of those that the change is about. -/

namespace ScalarLowering

/-- The frames differ at most in some variables, and in variables that only the second has. -/
structure Frame.Agree (W : VarId → Prop) (s s' : Frame) : Prop where
  heap : s'.heap = s.heap
  size : s.vars.size ≤ s'.vars.size
  var : ∀ {x}, ¬W x → x.index < s.vars.size → s'.read (.var x) = s.read (.var x)

namespace Frame

variable {W : VarId → Prop} {s s' t : Frame} {a : Option (Location × Value)}

theorem Agree.refl (s : Frame) : Agree W s s := ⟨rfl, Nat.le_refl _, fun _ _ => rfl⟩

theorem Agree.read (h : Agree W s s') {l : Location}
    (hl : ∀ x, l = .var x → ¬W x ∧ x.index < s.vars.size) : s'.read l = s.read l := by
  cases l with
  | var x => exact h.var (hl x rfl).1 (hl x rfl).2
  | field o f => simp only [Frame.read, h.heap]
  | static f => simp only [Frame.read, h.heap]
  | element a i => simp only [Frame.read, h.heap]

theorem heap_write {l : Location} {v : Value} (h : s.write l v = some t) (hheap : s'.heap = s.heap)
    {t' : Frame} (h' : s'.write l v = some t') : t'.heap = t.heap := by
  cases l with
  | var x =>
    obtain ⟨-, rfl⟩ := setVar_eq_some.mp h
    obtain ⟨-, rfl⟩ := setVar_eq_some.mp h'
    exact hheap
  | static f =>
    obtain rfl := Option.some.inj h
    obtain rfl := Option.some.inj h'
    simp only [hheap]
  | field o f =>
    simp only [write, hheap] at h'
    obtain ⟨heap, hs, rfl⟩ := Option.map_eq_some_iff.mp h
    obtain ⟨heap', hs', rfl⟩ := Option.map_eq_some_iff.mp h'
    exact Option.some.inj (hs'.symm.trans hs)
  | element a i =>
    simp only [write, hheap] at h'
    obtain ⟨heap, hs, rfl⟩ := Option.map_eq_some_iff.mp h
    obtain ⟨heap', hs', rfl⟩ := Option.map_eq_some_iff.mp h'
    exact Option.some.inj (hs'.symm.trans hs)

/-- The same write keeps frames in agreement. -/
theorem Agree.perform (h : Agree W s s') (ht : s.perform a = some t) :
    ∃ t', s'.perform a = some t' ∧ Agree W t t' := by
  rcases a with _ | ⟨l, v⟩
  · obtain rfl := Option.some.inj ht
    exact ⟨s', rfl, h⟩
  have hwritable : ∃ t', s'.write l v = some t' := by
    cases l with
    | var x =>
      obtain ⟨hx, -⟩ := setVar_eq_some.mp ht
      exact ⟨_, setVar_eq_some.mpr ⟨Nat.lt_of_lt_of_le hx h.size, rfl⟩⟩
    | static f => exact ⟨_, rfl⟩
    | field o f =>
      obtain ⟨heap, hs, -⟩ := Option.map_eq_some_iff.mp ht
      exact ⟨_, by simp only [write, h.heap, hs, Option.map_some]; rfl⟩
    | element a i =>
      obtain ⟨heap, hs, -⟩ := Option.map_eq_some_iff.mp ht
      exact ⟨_, by simp only [write, h.heap, hs, Option.map_some]; rfl⟩
  obtain ⟨t', ht'⟩ := hwritable
  refine ⟨t', ht', heap_write ht h.heap ht', ?_, fun {x} hx hlt => ?_⟩
  · rw [size_write ht, size_write ht']
    exact h.size
  · rw [read_write ht, read_write ht', h.var hx (by rwa [size_write ht] at hlt)]

theorem Agree.write_left {x : VarId} {v : Value} (h : Agree W s s') (hx : W x)
    (ht : s.write (.var x) v = some t) : Agree W t s' := by
  refine ⟨?_, ?_, fun {y} hy hlt => ?_⟩
  · obtain ⟨-, rfl⟩ := setVar_eq_some.mp ht
    exact h.heap
  · rw [size_write ht]
    exact h.size
  · have hne : Location.var y ≠ .var x := fun heq => hy (Location.var.inj heq ▸ hx)
    rw [read_write ht, if_neg hne, h.var hy (by rwa [size_write ht] at hlt)]

theorem Agree.write_right {x : VarId} {v : Value} {t' : Frame} (h : Agree W s s') (hx : W x)
    (ht : s'.write (.var x) v = some t') : Agree W s t' := by
  refine ⟨?_, ?_, fun {y} hy hlt => ?_⟩
  · obtain ⟨-, rfl⟩ := setVar_eq_some.mp ht
    exact h.heap
  · rw [size_write ht]
    exact h.size
  · have hne : Location.var y ≠ .var x := fun heq => hy (Location.var.inj heq ▸ hx)
    rw [read_write ht, if_neg hne, h.var hy hlt]

end Frame

def Heap.Holds (h : Heap) (v : Value) : Prop :=
  (∃ o f, h.field o f = some v) ∨ (∃ f, h.static f = v) ∨ ∃ a i, h.element a i = some v

/-- No pointer to a variable comes in from outside. -/
def Clean (args : List Value) (heap : Heap) : Prop :=
  ∀ x, .pointer (.var x) ∉ args ∧ ¬heap.Holds (.pointer (.var x))

def Heap.stored (h : Heap) : List Value :=
  (h.objects.toList ++ [h.statics]).flatMap (·.entries.map (·.2)) ++ h.arrays.toList.flatMap (·.toList)

def Value.isVarPointer : Value → Bool
  | .pointer (.var _) => true
  | _ => false

theorem Fields.get_eq {fs : Fields} {f : FieldId} {v : Value} (h : fs.get f = v) :
    v = .undefined ∨ v ∈ fs.entries.map (·.2) := by
  cases hf : fs.entries.lookup f with
  | none => exact .inl (by simpa [get, hf] using h.symm)
  | some w =>
    obtain rfl : w = v := by simpa [get, hf] using h
    obtain ⟨before, after, hentries, -⟩ := List.lookup_eq_some_iff.mp hf
    exact .inr (by simp [hentries])

theorem clean_of_stored {args : List Value} {heap : Heap}
    (h : ∀ v ∈ args ++ heap.stored, v.isVarPointer = false) : Clean args heap := by
  intro x
  have hstored : ∀ fs ∈ heap.objects.toList ++ [heap.statics], ∀ f, fs.get f ≠ .pointer (.var x) := by
    intro fs hfs f hf
    obtain hv | hv := Fields.get_eq hf
    · cases hv
    · cases h _ (List.mem_append_right _ (List.mem_append_left _ (List.mem_flatMap.mpr ⟨fs, hfs, hv⟩)))
  refine ⟨fun hmem => ?_, ?_⟩
  · cases h _ (List.mem_append_left _ hmem)
  · rintro (⟨o, f, hf⟩ | ⟨f, hf⟩ | ⟨a, i, hi⟩)
    · obtain ⟨fs, hfs, hf⟩ := Option.map_eq_some_iff.mp hf
      exact hstored fs (by simp [Array.mem_of_getElem? hfs]) f hf
    · exact hstored heap.statics (by simp) f hf
    · obtain ⟨elements, ha, hi⟩ := Option.bind_eq_some_iff.mp hi
      cases h _ (List.mem_append_right _ (List.mem_append_right _ (List.mem_flatMap.mpr
        ⟨elements, by simpa using Array.mem_of_getElem? ha, by simpa using Array.mem_of_getElem? hi⟩)))

namespace Graph

variable {g g' : Graph} {p : Pool} {args : List Value} {heap : Heap}

theorem length_initialVars (vs : List Variable) (args : List Value) :
    (initialVars vs args).length = vs.length := by
  induction vs generalizing args with
  | nil => rfl
  | cons v vs ih =>
    unfold initialVars
    split <;> simp [ih]

theorem mem_initialVars {vs : List Variable} {args : List Value} {v : Value}
    (h : v ∈ initialVars vs args) : v = .undefined ∨ v ∈ args := by
  induction vs generalizing args with
  | nil => cases h
  | cons var vs ih =>
    unfold initialVars at h
    split at h
    · obtain rfl | h := List.mem_cons.mp h
      · cases args <;> simp
      · exact (ih h).imp_right List.mem_of_mem_tail
    · obtain rfl | h := List.mem_cons.mp h
      · exact .inl rfl
      · exact ih h

theorem read_initial_ne_pointer (h : Clean args heap) {l : Location} {x : VarId} :
    (g.initial args heap).read l ≠ some (.pointer (.var x)) := by
  intro hl
  obtain ⟨hargs, hheap⟩ := h x
  cases l with
  | var y =>
    have hmem : .pointer (.var x) ∈ initialVars g.vars.toList args := by
      simpa [Graph.initial] using Array.mem_of_getElem? hl
    obtain hv | hv := mem_initialVars hmem
    · cases hv
    · exact hargs hv
  | field o f => exact hheap (.inl ⟨o, f, hl⟩)
  | static f => exact hheap (.inr (.inl ⟨f, Option.some.inj hl⟩))
  | element a i => exact hheap (.inr (.inr ⟨a, i, hl⟩))

theorem sane_initial (h : Clean args heap) : g.Sane p (g.initial args heap) :=
  ⟨by simp [Graph.initial, length_initialVars], fun hl => absurd hl (read_initial_ne_pointer h),
    fun {_} _ {_} hl => absurd hl (read_initial_ne_pointer h)⟩

/-- A property of the frames of a run, which may depend on the operators run and to be run in the
block. -/
structure RunInvariant (g : Graph) (p : Pool) (I : List OpId → List OpId → Frame → Prop) : Prop where
  start : ∀ {block args heap}, g.block g.entry = some block → Clean args heap →
    I [] block.ops (g.initial args heap)
  next : ∀ {pre id rest op s t a}, g.At pre (id :: rest) → g.Sane p s → I pre (id :: rest) s →
    g.op id = some op → op.Safe p g s → op.action p g s = .ok a → s.perform a = some t →
    I (pre ++ [id]) rest t
  enter : ∀ {pre id rest op s b block}, g.At pre (id :: rest) → g.Sane p s →
    I pre (id :: rest) s → g.op id = some op → op.control s = .ok (.goto b) →
    g.block b = some block → I [] block.ops s

/-- An invariant that needs no more of the types than that payloads are in scalars only. -/
structure WideInvariant (g : Graph) (p : Pool) (I : List OpId → List OpId → Frame → Prop) : Prop where
  start : ∀ {block args heap}, g.block g.entry = some block → Clean args heap →
    I [] block.ops (g.initial args heap)
  next : ∀ {pre id rest op s t a}, g.At pre (id :: rest) → g.Sane p s → I pre (id :: rest) s →
    g.op id = some op → op.Apart p g s → op.action p g s = .ok a → s.perform a = some t →
    I (pre ++ [id]) rest t
  enter : ∀ {pre id rest op s b block}, g.At pre (id :: rest) → g.Sane p s →
    I pre (id :: rest) s → g.op id = some op → op.control s = .ok (.goto b) →
    g.block b = some block → I [] block.ops s

theorem WideInvariant.runInvariant {I : List OpId → List OpId → Frame → Prop}
    (h : g.WideInvariant p I) : g.RunInvariant p I :=
  ⟨h.start, fun hat hs hI hop hsafe ha ht => h.next hat hs hI hop hsafe.apart ha ht, h.enter⟩

theorem RunInvariant.trivial : g.RunInvariant p fun _ _ _ => True :=
  ⟨fun _ _ => .intro, fun _ _ _ _ _ _ _ => .intro, fun _ _ _ _ _ _ => .intro⟩

theorem RunInvariant.and {I J : List OpId → List OpId → Frame → Prop} (hI : g.RunInvariant p I)
    (hJ : g.RunInvariant p J) : g.RunInvariant p fun pre rest s => I pre rest s ∧ J pre rest s :=
  ⟨fun hb hclean => ⟨hI.start hb hclean, hJ.start hb hclean⟩,
    fun hat hs h hop hsafe ha ht =>
      ⟨hI.next hat hs h.1 hop hsafe ha ht, hJ.next hat hs h.2 hop hsafe ha ht⟩,
    fun hat hs h hop hgoto hb => ⟨hI.enter hat hs h.1 hop hgoto hb, hJ.enter hat hs h.2 hop hgoto hb⟩⟩

theorem RunInvariant.all {ι : Sort*} {I : ι → List OpId → List OpId → Frame → Prop}
    (hI : ∀ i, g.RunInvariant p (I i)) : g.RunInvariant p fun pre rest s => ∀ i, I i pre rest s :=
  ⟨fun hb hclean i => (hI i).start hb hclean,
    fun hat hs h hop hsafe ha ht i => (hI i).next hat hs (h i) hop hsafe ha ht,
    fun hat hs h hop hgoto hb i => (hI i).enter hat hs (h i) hop hgoto hb⟩

/-- Whatever the first graph computes, the second computes too. -/
def Preserves (g g' : Graph) (p : Pool) (faults : Bool) : Prop :=
  ∀ ⦃args heap ending⦄, Clean args heap → ending.isReturned ∨ faults →
    g.Computes p args heap ending → g'.Computes p args heap ending

theorem Preserves.refl (g : Graph) (p : Pool) (faults : Bool) : g.Preserves g p faults :=
  fun _ _ _ _ _ h => h

theorem Preserves.trans {g'' : Graph} {faults : Bool} (h : g.Preserves g' p faults)
    (h' : g'.Preserves g'' p faults) : g.Preserves g'' p faults :=
  fun _ _ _ hclean hending hc => h' hclean hending (h hclean hending hc)

/-- What the change of a graph has to provide for one operator: it does the same in the changed
graph, or the operators put for it do what it did. -/
inductive Follows (g g' : Graph) (p : Pool) (f : OpId → List OpId) (faults : Bool)
    (W : VarId → Prop) (id : OpId) (rest : List OpId) (op : Operator) (s s' : Frame) : Prop
  | mirrored {op' : Operator} : f id = [id] → g'.op id = some op' →
    (op.Safe p g s → op.Mirrors op' g g' s s' ∧ op'.Safe p g' s') →
    Follows g g' p f faults W id rest op s s'
  | changed : op.isControl = false →
    (∀ {a t}, op.Safe p g s → op.action p g s = .ok a → s.perform a = some t →
      ∃ t', g'.Execs p (f id) s' t' ∧ Frame.Agree W t t') →
    (∀ {ending}, faults → op.Safe p g s → op.Faults p g s ending →
      g'.Runs p (f id ++ rest.flatMap f) s' ending) → Follows g g' p f faults W id rest op s s'

theorem preserves_of_follows {f : OpId → List OpId} {faults : Bool} {W : VarId → Prop}
    {I : List OpId → List OpId → Frame → Prop}
    (hblock : ∀ {b block}, g.block b = some block →
      ∃ block', g'.block b = some block' ∧ block'.ops = block.ops.flatMap f)
    (hentry : g'.entry = g.entry) (hargs : g'.arguments.length = g.arguments.length)
    (hinitial : ∀ args heap, Frame.Agree W (g.initial args heap) (g'.initial args heap))
    (hI : g.RunInvariant p I)
    (hop : ∀ {pre id rest op s s'}, g.At pre (id :: rest) → g.Sane p s → I pre (id :: rest) s →
      Frame.Agree W s s' → g.op id = some op → Follows g g' p f faults W id rest op s s') :
    g.Preserves g' p faults := by
  have hmem : ∀ {pre id rest}, g.At pre (id :: rest) → id ∈ g.attached := by
    rintro pre id rest ⟨b, block, hb, hops⟩
    exact mem_attached.mpr ⟨b, block, hb, by simp [hops]⟩
  have hsim : g.Simulates g' p f faults
      fun pre rest s s' => g.Sane p s ∧ I pre rest s ∧ Frame.Agree W s s' := by
    refine ⟨hblock, ?_, ?_, ?_, ?_⟩
    · rintro pre id rest op s s' t a hat ⟨hsane, hIs, hagree⟩ hopid hsafe hcontrol ha ht
      have hsane' := hsane.step (hmem hat) hopid hsafe.apart ha ht
      have hI' := hI.next hat hsane hIs hopid hsafe ha ht
      cases hop hat hsane hIs hagree hopid with
      | mirrored hf hop' hmirrors =>
        obtain ⟨hm, hsafe'⟩ := hmirrors hsafe
        obtain ⟨t', ht', hagree'⟩ := hagree.perform ht
        refine ⟨t', ?_, hsane', hI', hagree'⟩
        rw [hf]
        refine .cons hop' hsafe' ?_ (hm.action.trans ha) ht' .nil
        simpa [Operator.isControl, hm.kind] using hcontrol
      | changed _ hnext _ =>
        obtain ⟨t', hexecs, hagree'⟩ := hnext hsafe ha ht
        exact ⟨t', hexecs, hsane', hI', hagree'⟩
    · rintro pre id rest op s s' hat ⟨hsane, hIs, hagree⟩ hopid hcontrol
      cases hop hat hsane hIs hagree hopid with
      | mirrored hf hop' hmirrors =>
        exact ⟨hf, hagree.heap, _, hop', (hmirrors (Operator.safe_of_isControl hcontrol)).1.control⟩
      | changed hnot _ _ => simp [hcontrol] at hnot
    · rintro pre id rest op s s' b block hat ⟨hsane, hIs, hagree⟩ hopid hgoto hb
      exact ⟨hsane, hI.enter hat hsane hIs hopid hgoto hb, hagree⟩
    · rintro pre id rest op s s' ending hfaults hat ⟨hsane, hIs, hagree⟩ hopid hsafe hfault
      cases hop hat hsane hIs hagree hopid with
      | mirrored hf hop' hmirrors =>
        obtain ⟨hm, hsafe'⟩ := hmirrors hsafe
        rw [List.flatMap_cons, hf]
        exact .fault hop' hsafe' (hfault.of_action hm.action hm.flags)
      | changed _ _ hends => exact hends hfaults hsafe hfault
  rintro args heap ending hclean hending ⟨hlength, block, hb, hruns⟩
  obtain ⟨block', hb', hops⟩ := hblock hb
  refine ⟨hargs.trans hlength, block', hentry ▸ hb', ?_⟩
  rw [hops]
  exact hsim.runs hruns hending (.start hb)
    ⟨sane_initial hclean, hI.start hb hclean, hinitial args heap⟩

end Graph
end ScalarLowering
