import ScalarLowering.Proofs.Folding

/-! A direct load put for the address of a field or an element and the one load through it. The
direct load takes over the checks of the address. What lies between the two cannot fail, so a fault
of the address is still met, only later. -/

namespace ScalarLowering

namespace Operator

variable {op : Operator} {p : Pool} {g g' : Graph} {s : Frame}

theorem eval_of_mem_args {e : Expr} (hknown : ∀ x ∈ op.reads, x.index < s.vars.size) (he : e ∈ op.args) :
    ∃ v, s.eval e = some v := by
  cases e with
  | const c => exact ⟨_, rfl⟩
  | var x => exact ⟨_, Array.getElem?_eq_getElem (hknown x (mem_reads_of_mem he))⟩

theorem exists_action_of_isPure (hpure : op.isPure) (hsilent : op.silent p = false)
    (hfits : op.Fits g') (hknown : ∀ x ∈ op.reads, x.index < s.vars.size) :
    ∃ a, op.action p g s = .ok a := by
  cases hkind : op.kind <;>
    simp [isPure, silent, mayFault, checkForNull, hkind] at hpure hsilent <;>
    try simp [hpure] at hsilent
  case loadStatic f => exact ⟨_, by rw [action, hkind]; rfl⟩
  case loadStaticAddress f => exact ⟨_, by rw [action, hkind]; rfl⟩
  case nop => exact ⟨_, by rw [action, hkind]⟩
  case copy =>
    obtain ⟨e, hargs⟩ := List.length_eq_one_iff.mp
      (Arity.admits_exactly.mp (hfits.args (a := .exactly 1) (by rw [hkind]; rfl)))
    obtain ⟨v, hv⟩ := eval_of_mem_args hknown (e := e) (by simp [hargs])
    refine ⟨op.into v, ?_⟩
    simp only [action, hkind, Except.bind_eq_ok, Except.pure_eq_ok, arg_eq_ok]
    exact ⟨v, ⟨e, by simp [hargs], hv⟩, rfl⟩
  case addressOf =>
    obtain ⟨e, hargs⟩ := List.length_eq_one_iff.mp
      (Arity.admits_exactly.mp (hfits.args (a := .exactly 1) (by rw [hkind]; rfl)))
    cases e with
    | const c => simp [reads, hargs, Expr.var?] at hsilent
    | var x => exact ⟨_, by simp [action, hkind, hargs, Expr.var?]; rfl⟩

theorem safe_of_isPure (hpure : op.isPure) (hsilent : op.silent p = false) : op.Safe p g s := by
  intro huses
  cases hkind : op.kind <;> simp [usesReceiver, hkind] at huses <;>
    simp [isPure, silent, mayFault, checkForNull, hkind] at hpure hsilent <;>
    simp [hpure] at hsilent

theorem exists_perform_of_definesOnly {a : Option (Location × Value)} (hdefines : op.definesOnly)
    (hfits : op.Fits g') (hsize : g'.vars.size ≤ s.vars.size) (ha : op.action p g s = .ok a) :
    ∃ t, s.perform a = some t ∧ t.heap = s.heap := by
  obtain rfl | ⟨v, rfl⟩ := action_of_definesOnly hdefines ha
  · exact ⟨s, rfl, rfl⟩
  cases hresult : op.result? with
  | none => exact ⟨s, by simp [into, hresult, Frame.perform], rfl⟩
  | some x =>
    obtain ⟨info, hinfo, -⟩ := hfits.written x (List.mem_of_mem_head? hresult)
    refine ⟨{ s with vars := s.vars.setIfInBounds x.index v }, ?_, rfl⟩
    simp only [into, hresult, Option.map_some]
    exact Frame.setVar_eq_some.mpr ⟨Nat.lt_of_lt_of_le (Graph.var_eq_some_lt hinfo) hsize, rfl⟩

theorem Safe.of_reads {t : Frame} (h : op.Safe p g s)
    (hreads : ∀ y ∈ op.reads, t.read (.var y) = s.read (.var y)) : op.Safe p g t := by
  intro huses x v hx hv
  exact h huses x v hx (hreads x (mem_reads_of_mem (List.mem_of_mem_head? hx)) ▸ hv)

end Operator

namespace Heap

variable {h : Heap} {array index : Value}

/-- Of the faults that a check can catch, that at null looks at the array alone; for the other one
both operands are defined. -/
theorem elementAt_eq_error {e : Fault} (he : h.elementAt array index = .error e) :
    (e = .nullReference → array = .null) ∧
      ∀ {i n}, e = .indexOutOfRange i n → array ≠ .undefined ∧ index ≠ .undefined := by
  cases array with
  | array a =>
    cases index with
    | bits w =>
      refine ⟨?_, fun _ => by simp⟩
      rintro rfl
      obtain hlift | ⟨elements, -, he⟩ := Except.bind_eq_error.mp he
      · cases (Operator.Fault.lift_eq_error.mp hlift).2
      · dsimp only at he
        split at he <;> cases he
    | _ =>
      obtain rfl := Except.error.inj he
      simp
  | _ =>
    obtain rfl := Except.error.inj he
    simp

end Heap

namespace Operator

variable {op read new : Operator} {p : Pool} {g g' : Graph} {s t : Frame} {kind : OpKind}
  {ending : Ending}

def KeepsDefined (op : Operator) (s t : Frame) : Prop :=
  ∀ e ∈ op.args, t.eval e = s.eval e ∨ s.eval e = some .undefined ∧ ∃ v, t.eval e = some v

theorem KeepsDefined.eval (h : op.KeepsDefined s t) {e : Expr} {v : Value} (he : e ∈ op.args)
    (hv : s.eval e = some v) (hne : v ≠ .undefined) : t.eval e = some v := by
  obtain hsame | ⟨hundefined, -⟩ := h e he
  · exact hsame.trans hv
  · exact absurd (Option.some.inj (hv.symm.trans hundefined)) hne

theorem KeepsDefined.exists_eval (h : op.KeepsDefined s t) {e : Expr} {v : Value} (he : e ∈ op.args)
    (hv : s.eval e = some v) : ∃ w, t.eval e = some w := by
  obtain hsame | ⟨-, hw⟩ := h e he
  · exact ⟨v, hsame.trans hv⟩
  · exact hw

theorem loadField_error {f : FieldId} {e : Expr} (h : op.Faults p g s ending)
    (hk : op.kind = .loadFieldAddress f) (hhead : op.args.head? = some e) (hfield : op.fieldFits p g)
    (hkeeps : op.KeepsDefined s t) {cause : Fault} (hcause : op.action p g s = .error cause) :
    (directLoad (.loadField f) op read).action p g' t = .error cause := by
  obtain ⟨hnull, -⟩ := null_of_loadFieldAddress hk hhead h
  have hnull' := hkeeps.eval (List.mem_of_mem_head? hhead) hnull (by simp)
  rw [List.head?_eq_getElem?] at hhead
  have harg : s.arg op 0 = .ok .null := arg_eq_ok.mpr ⟨e, hhead, hnull⟩
  have harg' : t.arg (directLoad (.loadField f) op read) 0 = .ok .null :=
    arg_eq_ok.mpr ⟨e, hhead, hnull'⟩
  obtain ⟨value, hvalue, -⟩ : ∃ value, p.isValueField f = some value ∧ _ := by
    simpa only [fieldFits, hk, Option.any_eq_true] using hfield
  obtain rfl : .nullReference = cause := by
    simp only [action, hk, harg] at hcause
    exact Except.error.inj hcause
  simp only [action, directLoad] at harg' ⊢
  rw [harg']
  simp only [Pool.readField, hvalue]
  rfl

theorem loadElement_error {array index : Expr} (hk : op.kind = .loadElementAddress)
    (hargs : op.args = [array, index]) (hheap : t.heap = s.heap) (hkeeps : op.KeepsDefined s t)
    {cause : Fault} (hcause : op.action p g s = .error cause)
    (hchecked : cause = .nullReference ∨ ∃ i n, cause = .indexOutOfRange i n) :
    (directLoad .loadElement op read).action p g' t = .error cause := by
  have harg : ∀ {n e v}, op.args[n]? = some e → t.eval e = some v →
      t.arg (directLoad .loadElement op read) n = .ok v := fun he hv => arg_eq_ok.mpr ⟨_, he, hv⟩
  simp only [action, hk, Except.bind_eq_error] at hcause
  obtain harg₀ | ⟨a, ha, harg₁ | ⟨i, hi, hplace | ⟨l, -, hpure⟩⟩⟩ := hcause
  · obtain rfl | ⟨_, rfl⟩ := arg_eq_error harg₀ <;> simp at hchecked
  · obtain rfl | ⟨_, rfl⟩ := arg_eq_error harg₁ <;> simp at hchecked
  · obtain ⟨_, he, ha⟩ := arg_eq_ok.mp ha
    obtain rfl : array = _ := by simpa [hargs] using he
    obtain ⟨_, he, hi⟩ := arg_eq_ok.mp hi
    obtain rfl : index = _ := by simpa [hargs] using he
    obtain ⟨hnull, hrange⟩ := Heap.elementAt_eq_error hplace
    have hdirect : ∃ i', t.eval index = some i' ∧ t.heap.elementAt a i' = .error cause ∧
        t.eval array = some a := by
      obtain rfl | ⟨j, n, rfl⟩ := hchecked
      · obtain rfl := hnull rfl
        obtain ⟨i', hi'⟩ := hkeeps.exists_eval (by simp [hargs]) hi
        exact ⟨i', hi', rfl, hkeeps.eval (by simp [hargs]) ha (by simp)⟩
      · obtain ⟨hane, hine⟩ := hrange rfl
        exact ⟨i, hkeeps.eval (by simp [hargs]) hi hine, hheap ▸ hplace,
          hkeeps.eval (by simp [hargs]) ha hane⟩
    obtain ⟨i', hi', hplace', ha'⟩ := hdirect
    simp only [action, directLoad, Except.bind_eq_error] at harg ⊢
    exact .inr ⟨a, harg (by simp [hargs]) ha', .inr ⟨i', harg (by simp [hargs]) hi', .inl hplace'⟩⟩
  · cases hpure

theorem Safe.directLoad (h : op.Safe p g s) (hkind : op.kind.directLoad? = some kind)
    (htypes : ∀ x, g'.kindOf p x = g.kindOf p x)
    (hreads : ∀ {f x}, op.kind = .loadFieldAddress f → op.args.head? = some (.var x) →
      t.read (.var x) = s.read (.var x)) : (directLoad kind op read).Safe p g' t := by
  intro huses x v hx hv
  obtain ⟨f, hk, rfl⟩ | ⟨f, -, rfl⟩ | ⟨-, rfl⟩ := OpKind.directLoad?_cases hkind
  · have hreceives := h (by simp [usesReceiver, hk]) x v hx (hreads hk hx ▸ hv)
    rw [htypes]
    refine ⟨hreceives.admits, ?_⟩
    rintro _ _ ⟨⟩
  · cases huses
  · cases huses

theorem Faults.directLoad (h : op.Faults p g s ending) (hkind : op.kind.directLoad? = some kind)
    (hfits : op.Fits g) (hfield : op.fieldFits p g) (hheap : t.heap = s.heap)
    (hkeeps : op.KeepsDefined s t) : (directLoad kind op read).Faults p g' t ending := by
  have hsame : ∀ {cause}, op.action p g s = .error cause →
      (cause = .nullReference ∨ ∃ i n, cause = .indexOutOfRange i n) →
      (Operator.directLoad kind op read).action p g' t = .error cause := by
    intro cause hcause hchecked
    obtain ⟨f, hk, rfl⟩ | ⟨f, hk, -⟩ | ⟨hk, rfl⟩ := OpKind.directLoad?_cases hkind
    · obtain ⟨e, hone⟩ := List.length_eq_one_iff.mp
        (Arity.admits_exactly.mp (hfits.args (a := .exactly 1) (by rw [hk]; rfl)))
      exact loadField_error (e := e) h hk (by simp [hone]) hfield hkeeps hcause
    · exact absurd h (not_faults_of_isFixedAddress (by simp [isFixedAddress, hk]))
    · obtain ⟨array, index, htwo⟩ := List.length_eq_two.mp
        (Arity.admits_exactly.mp (hfits.args (a := .exactly 2) (by rw [hk]; rfl)))
      exact loadElement_error hk htwo hheap hkeeps hcause hchecked
  cases h with
  | null hcause hcheck =>
    exact .null (hsame hcause (.inl rfl)) (by simp [Operator.directLoad, Flags.union, hcheck])
  | range hcause hcheck =>
    exact .range (hsame hcause (.inr ⟨_, _, rfl⟩)) (by simp [Operator.directLoad, Flags.union, hcheck])

end Operator

namespace Graph

variable {g g' : Graph} {p : Pool} {faults : Bool} {address load id : OpId} {op read : Operator}
  {q : VarId} {ids pre rest : List OpId} {s t : Frame} {direct : OpKind}

/-- Pure operators that are not silent run to their end, and write nothing but their results. -/
theorem execs_of_isPure (hids : ∀ id ∈ ids, ∃ op, g.op id = some op ∧ op.isPure ∧
      op.silent p = false ∧ op.Fits g) (hsize : g.vars.size ≤ s.vars.size) :
    ∃ t, g.Execs p ids s t ∧ t.heap = s.heap ∧ t.vars.size = s.vars.size ∧
      ∀ {x}, (∀ id ∈ ids, ∀ op ∈ g.op id, x ∉ op.results) → t.read (.var x) = s.read (.var x) := by
  induction ids generalizing s with
  | nil => exact ⟨s, .nil, rfl, rfl, fun _ => rfl⟩
  | cons id ids ih =>
    obtain ⟨op, hop, hpure, hsilent, hfits⟩ := hids id List.mem_cons_self
    have hknown : ∀ x ∈ op.reads, x.index < s.vars.size := fun x hx => by
      obtain ⟨info, hinfo, -⟩ := hfits.live x (List.mem_append_left _ hx)
      exact Nat.lt_of_lt_of_le (var_eq_some_lt hinfo) hsize
    obtain ⟨a, ha⟩ := Operator.exists_action_of_isPure (g := g) hpure hsilent hfits hknown
    have hdefines := Operator.definesOnly_of_isPure hpure
    obtain ⟨t, ht, hheap⟩ := Operator.exists_perform_of_definesOnly hdefines hfits hsize ha
    have hsize' := Frame.size_perform ht
    obtain ⟨u, hexecs, hheap', hsize'', hreads⟩ := ih (fun id' hid' => hids id' (List.mem_cons_of_mem id hid'))
      (s := t) (by omega)
    refine ⟨u, .cons hop (Operator.safe_of_isPure hpure hsilent) (isControl_of_definesOnly hdefines) ha
      ht hexecs, hheap'.trans hheap, hsize''.trans hsize', fun {x} hx => ?_⟩
    rw [hreads fun id' hid' => hx id' (List.mem_cons_of_mem id hid'),
      Operator.read_of_isPure hpure ha ht fun hresult =>
        hx id List.mem_cons_self op hop (List.mem_of_mem_head? hresult)]

/-- What the address brings about and what is kept until the load holds when the load is reached. -/
theorem runInvariant_between {P : Frame → Prop} (hop : g.op address = some op)
    (htaken : ∀ {s t a}, op.Safe p g s → op.action p g s = .ok a → s.perform a = some t → P t)
    (hkept : ∀ {id op' s t a}, g.Before address id → g.Before id load → g.Sane p s →
      g.op id = some op' → op'.Safe p g s → op'.action p g s = .ok a → s.perform a = some t →
      id ≠ address → P s → P t) :
    g.RunInvariant p fun pre rest s => address ∈ pre → load ∈ rest → P s := by
  refine ⟨fun _ _ hmem => absurd hmem List.not_mem_nil, ?_,
    fun _ _ _ _ _ _ hmem => absurd hmem List.not_mem_nil⟩
  intro pre id rest op' s t a hat hs hI hop' hsafe ha ht hmem hload
  by_cases hne : id = address
  · subst hne
    obtain rfl := Option.some.inj (hop.symm.trans hop')
    exact htaken hsafe ha ht
  · have hpre : address ∈ pre := by simpa [Ne.symm hne] using hmem
    exact hkept (before_iff.mpr ⟨pre, rest, hat, hpre⟩) (hat.before_of_mem_rest hload) hs hop' hsafe ha
      ht hne (hI hpre (List.mem_cons_of_mem id hload))

namespace LoneLoad

variable (h : g.LoneLoad address load op read q) (hg : g.WellShaped) (hplace : op.isPlace)
  (hquiet : ∀ y ∈ op.reads, g.Quiet p y)
include h hg hplace hquiet

/-- Operands that no operator between the two defines keep the address good until the load. -/
theorem runInvariant_near (hne : ∀ y ∈ op.reads, y ≠ q)
    (hnone : ∀ y ∈ op.reads, ¬g.DefinedBetween address load y) : g.RunInvariant p fun pre rest s =>
      address ∈ pre → load ∈ rest → op.Fresh p g q s ∧ op.Safe p g s := by
  have hresult := hg.result?_eq h.attached h.found (v := q) (by simp [h.results hg])
  refine runInvariant_between h.found (fun {s t a} hsafe ha ht => ?_)
    fun {id op' s t a} hfirst hsecond hs hop' hsafe ha ht hid hP => ?_
  · refine ⟨Operator.fresh_of_taken hplace hresult hne ha ht, hsafe.of_reads fun y hy => ?_⟩
    obtain ⟨l, rfl⟩ := Operator.action_of_isPlace hplace ha
    simp only [Operator.into, hresult, Option.map_some] at ht
    rw [Frame.read_perform ht, if_neg fun heq => hne y hy (Location.var.inj heq)]
  · have hread : ∀ y ∈ op.reads, t.read (.var y) = s.read (.var y) := fun y hy =>
      read_of_notMem_definers hs hfirst.mem_right hop' hsafe.apart ha ht (hquiet y hy)
        fun hd => hnone y hy ⟨id, hd, hfirst, hsecond⟩
    have hq := read_of_notMem_definers hs hfirst.mem_right hop' hsafe.apart ha ht h.quiet
      (by simpa [h.alone] using hid)
    exact ⟨hP.1.perform hplace ht hq hread, hP.2.of_reads hread⟩

/-- An operand that is defined between the two is undefined when the address is to be taken. -/
theorem runInvariant_undefined
    (hone : ∀ y ∈ op.reads, ∀ {d d'}, d ∈ g.definers y → d' ∈ g.definers y → d = d') {y : VarId}
    (hy : y ∈ op.reads) (hbetween : g.DefinedBetween address load y) : g.RunInvariant p fun pre _ s =>
      address ∉ pre ∧ s.read (.var y) = some .undefined ∧ s.read (.var q) = some .undefined := by
  obtain ⟨info, hinfo, harg⟩ := h.info hg
  obtain ⟨d, hd, hbefore, -⟩ := hbetween
  obtain ⟨hdattached, source, hsource, hdefines⟩ := mem_definers.mp hd
  obtain ⟨infoy, hinfoy, hargy⟩ := (hg.fits hdattached hsource).written y
    (by simpa [Operator.definesVar] using hdefines)
  exact (wideInvariant_unplaced hg h.found hplace h.quiet h.alone hy (hquiet y hy) hinfo harg hinfoy
    hargy fun d' hd' => hone y hy hd hd' ▸ hbefore).runInvariant

end LoneLoad

/-- The address in the variable can be relied on: it is undefined, or it is what its operands give,
and they are values of their types. -/
structure Reliable (g : Graph) (p : Pool) (op : Operator) (q : VarId) (s : Frame) : Prop where
  fresh : op.Fresh p g q s
  safe : s.read (.var q) ≠ some .undefined → op.Safe p g s
  notNull : ∃ w, s.read (.var q) = some w ∧ w ≠ .null

/-- At the load the address can be relied on. -/
theorem LoneLoad.exists_reliable (h : g.LoneLoad address load op read q) (hg : g.WellShaped)
    (hkind : op.kind.directLoad? = some direct) (hbefore : op.isPlace → g.Before address load)
    (hquiet : ∀ y ∈ op.reads, g.Quiet p y)
    (hone : ∀ y ∈ op.reads, ∀ {d d'}, d ∈ g.definers y → d' ∈ g.definers y → d = d') :
    ∃ I, g.RunInvariant p I ∧
      (∀ {pre rest s}, g.At pre (load :: rest) → I pre (load :: rest) s → g.Reliable p op q s) ∧
      ∀ {pre rest s}, I pre rest s → ∀ y ∈ op.reads, g.DefinedBetween address load y →
        s.read (.var y) = some .undefined := by
  obtain ⟨info, hinfo, harg⟩ := h.info hg
  have hne : ∀ y ∈ op.reads, y ≠ q := fun y hy => h.ne_of_mem_reads hkind hy
  obtain hplace | ⟨f, hstatic⟩ := Operator.isPlace_or_static hkind
  · have hundefined : g.RunInvariant p fun pre _ s => ∀ y ∈ op.reads,
        g.DefinedBetween address load y → address ∉ pre ∧ s.read (.var y) = some .undefined ∧
          s.read (.var q) = some .undefined :=
      .all fun y => .all fun hy => .all fun hb =>
        h.runInvariant_undefined hg hplace hquiet hone hy hb
    refine ⟨_, .and (h.wideInvariant_notNull hg (.inl hplace)).runInvariant <| .and hundefined <|
      .all fun hnone => h.runInvariant_near hg hplace hquiet hne hnone, fun hat hI => ?_,
      fun hI y hy hb => (hI.2.1 y hy hb).2.1⟩
    obtain ⟨hnull, hundefined, hnear⟩ := hI
    by_cases hbetween : ∃ y ∈ op.reads, g.DefinedBetween address load y
    · obtain ⟨y, hy, hb⟩ := hbetween
      obtain ⟨-, -, hq⟩ := hundefined y hy hb
      exact ⟨.inl hq, fun hne => absurd hq hne, hnull⟩
    · obtain ⟨hfresh, hsafe⟩ := hnear (fun y hy hb => hbetween ⟨y, hy, hb⟩)
        ((hat.mem_pre_iff hg.linked).mpr (hbefore hplace)) List.mem_cons_self
      exact ⟨hfresh, fun _ => hsafe, hnull⟩
  · have hresult := hg.result?_eq h.attached h.found (v := q) (by simp [h.results hg])
    refine ⟨_, (wideInvariant_static h.quiet hinfo harg h.alone h.found hstatic).runInvariant,
      fun _ hI => ?_, fun _ y hy => ?_⟩
    · obtain ⟨w, hw, hcase⟩ := hI
      refine ⟨?_, fun _ huses => ?_, w, hw, ?_⟩
      · obtain rfl | rfl := hcase
        · exact .inl hw
        · exact .inr ⟨_, by simp [Operator.action, hstatic, Operator.into, hresult], hw⟩
      · simp [Operator.usesReceiver, hstatic] at huses
      · rintro rfl
        simp at hcase
    · have hplace := h.isPlace_of_reads hg hkind hy
      simp [Operator.isPlace, hstatic] at hplace

theorem At.exists_between {a b : OpId} (hg : g.Linked) (h : g.At pre (a :: rest))
    (hbefore : g.Before a b) : ∃ between after, rest = between ++ b :: after := by
  obtain ⟨pre', after, hat, ha⟩ := before_iff.mp hbefore
  obtain ⟨front, between, rfl⟩ := List.append_of_mem ha
  exact ⟨between, after, (h.unique hg hat.split).2⟩

theorem LoneLoad.before (h : g.LoneLoad address load op read q) (hg : g.WellShaped)
    (hd : g.Disciplined p) (hnear : op.mayFault → g.faultMovesDown address load) (hplace : op.isPlace) :
    g.Before address load := by
  by_cases hfault : op.mayFault
  · exact (faultMovesDown_spec hg.linked (hnear hfault)).1
  · exact (hd.nearby address h.attached op h.found hplace q (by simp [h.results hg]) load
      (by simp [h.sole])).1.resolve_left hfault

/-- An operator between the two that can fail without a check comes after a store. -/
theorem LoneLoad.exists_store (h : g.LoneLoad address load op read q) (hg : g.WellShaped)
    (hp : g.Prompt p) (hplace : op.isPlace) {x : OpId} {op' : Operator} (hop' : g.op x = some op')
    (hsilent : op'.silent p) (hfirst : g.Before address x) (hsecond : g.Before x load) :
    ∃ r store, g.op r = some store ∧ store.isStore ∧ g.Before address r ∧ g.Before r x := by
  have hload : ∀ {id op}, id ∈ g.attached → g.op id = some op → q ∈ op.reads → id = load :=
    fun hid hop hread => by simpa [h.sole] using mem_readers_of_reads hid hop hread
  have hrisks : g.Risks p q x := by
    refine risks_iff.mpr ⟨hsecond.mem_left, op', hop', hsilent, ?_⟩
    by_contra htakes
    exact hsecond.ne hg.linked (hload hsecond.mem_left hop'
      (Operator.mem_reads_of_takes (by simpa using htakes)))
  obtain ⟨r, hsettles, har, hrx⟩ := passed_iff.mp (hp.passed
    (placeOf_iff.mpr ⟨h.attached, op, h.found, hplace, by simp [h.results hg]⟩)
    (h.sole ▸ List.mem_singleton_self load) hrisks hfirst hsecond)
  obtain ⟨hr, store, hstore, hderefs | hisStore⟩ := settles_iff.mp hsettles
  · obtain rfl := hload hr hstore (Operator.mem_reads_of_derefs hderefs)
    exact absurd (hrx.trans hg.linked hsecond) (Before.irrefl hg.linked)
  · exact ⟨r, store, hstore, hisStore, har, hrx⟩

theorem Disciplined.fieldFits (hd : g.Disciplined p) (hg : g.WellShaped) (hid : id ∈ g.attached)
    (hop : g.op id = some op) : op.fieldFits p g := by
  unfold Operator.fieldFits
  split
  · rename_i f hkind
    obtain ⟨e, he⟩ := List.length_eq_one_iff.mp
      (Arity.admits_exactly.mp ((hg.fits hid hop).args (a := .exactly 1) (by rw [hkind]; rfl)))
    obtain ⟨⟨value, hvalue⟩, hscalar, -⟩ := Operator.wellTyped_loadFieldAddress (e := e)
      (hd.typed id hid op hop) hkind (by simp [he])
    rw [hvalue] at hscalar ⊢
    cases value <;> simp_all
  · rfl

namespace Fused

variable (h : g.Fused g' address load op read q direct ids)
include h

/-- What lies between an address that may fail and its load runs to its end, and keeps the operands
that were defined. -/
theorem execs_between {s' : Frame} {between : List OpId} (hg : g.WellShaped) (hg' : g'.WellShaped)
    (hp : g.Prompt p) (hplace : op.isPlace)
    (hbetween : ∀ x ∈ between, g.Before address x ∧ g.Before x load)
    (hpure : ∀ {x op'}, g.Before address x → g.Before x load → g.op x = some op' → op'.isPure)
    (hs : g.Sane p s) (hagree : s.Agree (· = q) s')
    (hundefined : ∀ y ∈ op.reads, g.DefinedBetween address load y → s.read (.var y) = some .undefined) :
    ∃ t, g'.Execs p (between.flatMap (fuse address load ids)) s' t ∧ t.heap = s.heap ∧
      op.KeepsDefined s t := by
  have hne : ∀ x ∈ between, x ≠ address ∧ x ≠ load := fun x hx =>
    ⟨((hbetween x hx).1.ne hg.linked).symm, (hbetween x hx).2.ne hg.linked⟩
  have hkept : ∀ x ∈ between, g'.op x = g.op x := fun x hx =>
    h.kept (hbetween x hx).1.mem_right (hne x hx).1 (hne x hx).2
  have hids : ∀ x ∈ between, ∃ op', g'.op x = some op' ∧ op'.isPure ∧ op'.silent p = false ∧
      op'.Fits g' := by
    intro x hx
    obtain ⟨hfirst, hsecond⟩ := hbetween x hx
    obtain ⟨op', b, hop', -⟩ := hg.linked.exists_op_of_mem hfirst.mem_right
    have hop := (hkept x hx).trans hop'
    refine ⟨op', hop, hpure hfirst hsecond hop', ?_,
      hg'.fits (h.mem_attached.mpr (.inr ⟨(hne x hx).1, (hne x hx).2, hfirst.mem_right⟩)) hop⟩
    by_contra hsilent
    obtain ⟨r, store, hstore, hisStore, har, hrx⟩ := h.lone.exists_store hg hp hplace hop'
      (by simpa using hsilent) hfirst hsecond
    have hdefines := Operator.definesOnly_of_isPure (hpure har (hrx.trans hg.linked hsecond) hstore)
    simp [Operator.isStore_of_definesOnly hdefines] at hisStore
  have hflat : between.flatMap (fuse address load ids) = between := by
    rw [List.flatMap_congr fun x hx => fuse_of_ne ids (hne x hx).1 (hne x hx).2]
    exact List.flatMap_singleton' between
  have hsize' := hagree.size
  obtain ⟨t, hexecs, hheap, hsize, hreads⟩ := execs_of_isPure hids (s := s')
    (by rw [h.vars, ← hs.size]; exact hsize')
  rw [hflat]
  refine ⟨t, hexecs, hheap.trans hagree.heap, fun e he => ?_⟩
  cases e with
  | const k => exact .inl rfl
  | var y =>
    have hy := Operator.mem_reads_of_mem he
    have hlt : y.index < s.vars.size := hs.size ▸ hg.known h.lone.attached h.lone.found hy
    by_cases hdefined : g.DefinedBetween address load y
    · exact .inr ⟨hundefined y hy hdefined, _, Array.getElem?_eq_getElem (by omega)⟩
    · refine .inl ((hreads fun x hx op' hop' hresult => hdefined ⟨x, ?_, hbetween x hx⟩).trans
        (hagree.var (h.lone.ne_of_mem_reads h.place hy) hlt))
      exact mem_definers_of_results (hbetween x hx).1.mem_right ((hkept x hx).symm.trans hop') hresult

/-- The fault of an address is met at the direct load. -/
theorem runs_of_faults {s' : Frame} {ending : Ending} (hg : g.WellShaped) (hg' : g'.WellShaped)
    (hp : g.Prompt p) (hfits : op.fieldFits p g) (hnear : op.mayFault → g.faultMovesDown address load)
    (hat : g.At pre (address :: rest)) (hs : g.Sane p s) (hagree : s.Agree (· = q) s')
    (hsafe : op.Safe p g s)
    (hundefined : ∀ y ∈ op.reads, g.DefinedBetween address load y → s.read (.var y) = some .undefined)
    (hfault : op.Faults p g s ending) :
    g'.Runs p (rest.flatMap (fuse address load ids)) s' ending := by
  have hplace : op.isPlace := by
    obtain hplace | ⟨f, hstatic⟩ := Operator.isPlace_or_static h.place
    · exact hplace
    · exact absurd hfault (Operator.not_faults_of_isFixedAddress (by simp [Operator.isFixedAddress, hstatic]))
  obtain ⟨hbefore, hpure⟩ := faultMovesDown_spec hg.linked (hnear hfault.mayFault)
  obtain ⟨between, after, rfl⟩ := hat.exists_between hg.linked hbefore
  have hbetween : ∀ x ∈ between, g.Before address x ∧ g.Before x load := fun x hx => by
    refine ⟨hat.before_of_mem_rest (List.mem_append_left _ hx), ?_⟩
    obtain ⟨b, block, hb, hops⟩ := hat
    exact before_iff.mpr ⟨pre ++ address :: between, after, ⟨b, block, hb, by simp [hops]⟩, by simp [hx]⟩
  obtain ⟨t, hexecs, hheap, hkeeps⟩ :=
    h.execs_between hg hg' hp hplace hbetween hpure hs hagree hundefined
  obtain ⟨n, new, rfl, hnew, hcode⟩ := h.exists_new_of_isPlace hplace
  have hdirect : (Operator.directLoad direct op read).Faults p g' t ending :=
    hfault.directLoad h.place (hg.fits h.lone.attached h.lone.found) hfits hheap hkeeps
  have hdirectSafe : (Operator.directLoad direct op read).Safe p g' t := by
    refine hsafe.directLoad h.place (fun x => h.sameVars.kindOf x) fun {f x} hkind hhead => ?_
    obtain ⟨hnull, -⟩ := Operator.null_of_loadFieldAddress hkind hhead hfault
    exact (hkeeps.eval (List.mem_of_mem_head? hhead) hnull (by simp)).trans hnull.symm
  rw [List.flatMap_append, List.flatMap_cons, fuse_load [n] h.ne]
  refine hexecs.runs (.fault hnew ?_ (hdirect.of_action (mirrors_of_code_eq hcode).action
    (Operator.code_eq.mp hcode).2.2.2))
  rw [Operator.eq_of_code hcode]
  exact hdirectSafe

theorem follows_address {s' : Frame} (hg : g.Tame p faults) (hg' : g'.WellShaped)
    (hnear : op.mayFault → g.faultMovesDown address load) (hat : g.At pre (address :: rest))
    (hs : g.Sane p s) (hagree : s.Agree (· = q) s')
    (hundefined : ∀ y ∈ op.reads, g.DefinedBetween address load y → s.read (.var y) = some .undefined) :
    Follows g g' p (fuse address load ids) faults (· = q) address rest op s s' := by
  have hshaped := hg.shaped.toWellShaped
  refine .changed h.address_defines.2 (fun _ ha ht => ⟨s', ?_, ?_⟩) fun hf hsafe hends => ?_
  · rw [fuse_address]
    exact .nil
  · exact Agree.definesOnly h.address_defines.1 ha ht hagree (by simp [h.lone.results hshaped])
  · rw [fuse_address, List.nil_append]
    exact h.runs_of_faults hshaped hg' (hg.prompt hf)
      (hg.disciplined.fieldFits hshaped h.lone.attached h.lone.found) hnear hat hs hagree hsafe
      hundefined hends

theorem follows_load {s' : Frame} (hg : g.WellShaped) (hfits : op.fieldFits p g)
    (hreliable : g.Reliable p op q s) (hs : g.Sane p s) (hagree : s.Agree (· = q) s') :
    Follows g g' p (fuse address load ids) faults (· = q) load rest read s s' := by
  refine .changed h.load_defines.2 (fun _ ha ht => ?_)
    fun _ _ hends => absurd hends (h.lone.not_faults hg hreliable.notNull)
  rw [fuse_load ids h.ne]
  obtain ⟨rfl, hvoid, -⟩ | ⟨n, new, rfl, hnew, hcode⟩ := h.new
  · exact ⟨s', .nil, Agree.definesOnly h.load_defines.1 ha ht hagree (by simp [hvoid])⟩
  · obtain ⟨ty, hkind⟩ := h.lone.kind
    obtain ⟨l, -, hl, -, -⟩ := (Operator.loadIndirect_eq_ok hkind (h.lone.through hg)).mp ha
    have hsafe := hreliable.safe (by simp [hl])
    obtain ⟨hm, hsafe'⟩ := h.mirrors hg hs hagree hcode fun x hx =>
      ⟨h.lone.ne_of_mem_reads h.place hx, hg.known h.lone.attached h.lone.found hx⟩
    obtain ⟨t', ht', hagree'⟩ := hagree.perform ht
    have hcontrol : (Operator.directLoad direct op read).isControl = false :=
      (directLoad?_operands h.place).2.2.1
    exact ⟨t', .cons hnew (hsafe' (hsafe.directLoad h.place (fun _ => rfl) fun _ _ => rfl))
      ((isControl_of_code hcode.symm).trans hcontrol)
      (hm.action.trans (h.action_direct hg hfits hsafe.apart hreliable.fresh ha)) ht' .nil, hagree'⟩

/-- Every run is answered in the fused graph, where nothing writes the variable that held the
address. -/
theorem preserves (hg : g.Tame p faults) (hg' : g'.WellShaped)
    (hbefore : op.isPlace → g.Before address load) (hquiet : ∀ y ∈ op.reads, g.Quiet p y)
    (hone : ∀ y ∈ op.reads, ∀ {d d'}, d ∈ g.definers y → d' ∈ g.definers y → d = d')
    (hnear : op.mayFault → g.faultMovesDown address load) : g.Preserves g' p faults := by
  have hshaped := hg.shaped.toWellShaped
  have hfits := hg.disciplined.fieldFits hshaped h.lone.attached h.lone.found
  obtain ⟨I, hI, hreliable, hundefined⟩ := h.lone.exists_reliable hshaped h.place hbefore hquiet hone
  refine preserves_of_follows (f := fuse address load ids) (W := (· = q)) (fun {b block} hb => ?_)
    h.entry h.sameVars.arguments (fun args heap => ?_) hI
    fun {pre id rest op' s s'} hat hs hIs hagree hop' => ?_
  · exact ⟨_, (h.block b).trans (by rw [hb, Option.map_some]), rfl⟩
  · rw [h.sameVars.initial]
    exact .refl _
  have hid := mem_attached_of_at hat
  by_cases haddress : id = address
  · subst haddress
    obtain rfl := Option.some.inj (h.lone.found.symm.trans hop')
    exact h.follows_address hg hg' hnear hat hs hagree (hundefined hIs)
  by_cases hload : id = load
  · subst hload
    obtain rfl := Option.some.inj (h.lone.foundLoad.symm.trans hop')
    exact h.follows_load hshaped hfits (hreliable hat hIs) hs hagree
  · obtain ⟨hm, hsafe'⟩ := h.mirrors hshaped hs hagree rfl fun x hx =>
      ⟨h.ne_of_mem_reads hid hop' hload hx, hshaped.known hid hop' hx⟩
    exact .mirrored (fuse_of_ne ids haddress hload) ((h.kept hid haddress hload).trans hop')
      fun hsafe => ⟨hm, hsafe' hsafe⟩

end Fused

namespace LoneLoad

variable (h : g.LoneLoad address load op read q) (hg : g.WellShaped)
  (hkind : op.kind.directLoad? = some direct) (hbefore : op.isPlace → g.Before address load)
include h hg hkind

theorem wellTyped_directLoad (hd : g.Disciplined p) :
    (Operator.directLoad direct op read).wellTyped p g := by
  obtain ⟨f, hk, rfl⟩ | ⟨f, -, rfl⟩ | ⟨-, rfl⟩ := OpKind.directLoad?_cases hkind
  case inr.inl | inr.inr => rfl
  simp only [Operator.wellTyped, Operator.directLoad, Bool.or_eq_true, decide_eq_true_eq,
    Option.all_eq_true, List.all_eq_true]
  refine or_iff_not_imp_left.mpr fun hvalue e he x hx => or_iff_not_imp_left.mpr fun hcontent => ?_
  have hvalue : p.isValueField f = some true := by simpa using hvalue
  obtain ⟨t, hload⟩ := h.kind
  have hpointee := Operator.wellTyped_loadIndirect (hd.typed _ h.attachedLoad _ h.foundLoad) hload
    (h.through hg) hx
  obtain ⟨-, -, hresult⟩ := Operator.wellTyped_loadFieldAddress (hd.typed _ h.attached _ h.found) hk he
  obtain ⟨-, hscalar, htype⟩ := hresult q (by simp [h.results hg])
  rw [← hpointee]
  by_cases hs : g.isScalarExpr p e = some true
  · rw [contentOf_of_scalar hs, hscalar hs]
  · rw [contentOf, if_neg hs] at hcontent ⊢
    obtain ⟨u, hu⟩ := Option.ne_none_iff_exists'.mp hcontent
    exact (pointeeOf_congr (htype hvalue hu)).symm

include hbefore

theorem welcomes_directLoad (hd : g.Disciplined p) :
    g.Welcomes g p load (.directLoad direct op read) := by
  refine ⟨h.wellTyped_directLoad hg hkind hd, ?_, ?_, fun y hy {id op'} hid hop' hdef => ?_,
    fun hload x hx {id op'} hid hop' hread hescapes => ?_⟩
  · obtain ⟨f, -, rfl⟩ | ⟨f, -, rfl⟩ | ⟨-, rfl⟩ := OpKind.directLoad?_cases hkind <;> rfl
  · obtain ⟨f, -, rfl⟩ | ⟨f, -, rfl⟩ | ⟨-, rfl⟩ := OpKind.directLoad?_cases hkind <;> rfl
  · have hplace := h.isPlace_of_reads hg hkind hy
    have hescapes := hd.not_escapes_of_passes hid hop' hdef h.attached h.found hy (by
      unfold Operator.isPlace at hplace
      unfold Pool.readsThrough
      split at hplace <;> simp_all)
    refine ⟨fun hcontra => absurd hcontra (by simp [hescapes]), fun hplace' => ⟨?_, ?_⟩⟩
    · exact (hd.nearby id hid op' hop' hplace' y hdef address
        (mem_readers_of_reads h.attached h.found hy)).1.imp_right fun hb => hb.trans hg.linked (hbefore hplace)
    · obtain ⟨f, -, rfl⟩ | ⟨f, -, rfl⟩ | ⟨-, rfl⟩ := OpKind.directLoad?_cases hkind <;> rintro ⟨⟩
  · by_contra hne
    have hdefiner : load ∈ g.definers x := mem_definers_of_results h.attachedLoad h.foundLoad
      (by simpa [Operator.directLoad] using hx)
    obtain ⟨t, hloadKind⟩ := h.kind
    have hnot := hd.notLoaded id hid op' hop' hescapes hne x hread load hdefiner read h.foundLoad
    simp [Operator.isLoad, hloadKind] at hnot

theorem keepsPace_directLoad (hp : g.Prompt p) :
    g.KeepsPace p load read (.directLoad direct op read) := by
  obtain ⟨t, hload⟩ := h.kind
  refine ⟨fun hsilent => ?_, fun {a y} ha hy => .inr ?_, fun {a y} ha _ hderefs => .inr (.inr ?_)⟩
  · refine ⟨?_, by simp [Operator.isPlace, hload]⟩
    obtain ⟨f, -, rfl⟩ | ⟨f, -, rfl⟩ | ⟨-, rfl⟩ := OpKind.directLoad?_cases hkind <;>
      simp_all [Operator.silent, Operator.directLoad, Operator.checkForNull, Operator.mayFault, Flags.union]
  · have hy : y ∈ op.reads := hy
    have hplace := h.isPlace_of_reads hg hkind hy
    have hreader := mem_readers_of_reads h.attached h.found hy
    have hbefore := hbefore hplace
    have hnot := hp.not_before ha hreader
    refine ⟨fun hb => hnot (hbefore.trans hg.linked hb), fun {x} hrisks hax hxload => ?_⟩
    obtain rfl | hxa | hxa := hxload.connected hg.linked hbefore
    · -- The address itself takes the variable.
      obtain ⟨-, op', hop', -, htakes⟩ := risks_iff.mp hrisks
      obtain rfl := Option.some.inj (h.found.symm.trans hop')
      simp [Operator.takes, hplace, Operator.readsVar, hy] at htakes
    · exact hp.passed ha hreader hrisks hax hxa
    · obtain ⟨-, op', hop', hsilent, -⟩ := risks_iff.mp hrisks
      obtain ⟨r, store, hstore, hisStore, har, hrx⟩ := h.exists_store hg hp hplace hop' hsilent hxa hxload
      have hsettles : g.Settles p y r := settles_iff.mpr ⟨har.mem_right, store, hstore, .inr hisStore⟩
      refine passed_iff.mpr ⟨r, hsettles, ?_, hrx⟩
      obtain rfl | hb | hb := hax.connected hg.linked hxa
      · obtain ⟨-, op', hop', -, hdef⟩ := placeOf_iff.mp ha
        obtain rfl := Option.some.inj (h.found.symm.trans hop')
        exact absurd (by simpa [h.results hg] using hdef) (h.ne_of_mem_reads hkind hy)
      · exact hb.trans hg.linked har
      · exact absurd hb hnot
  · have hderefs := hderefs.resolve_right (by simp [Operator.isStore, hload])
    obtain rfl := h.eq_of_derefs hg hderefs
    refine ⟨fun hy => h.ne_of_mem_reads hkind hy rfl, fun user huser => by simpa [h.sole] using huser⟩

end LoneLoad
end Graph

namespace Edit

open ScalarLowering.Graph

variable {g g' : Graph} {p : Pool} {faults : Bool} {c : Chains} {id : OpId} {b : Bool}

theorem refines_foldPlace (hg : g.Tame p faults) (hc : Tracks c g)
    (h : foldPlace p c id g = .ok b g') : g.Refines g' p faults := by
  have hshaped := hg.shaped.toWellShaped
  have hd := hg.disciplined
  obtain rfl | ⟨load, op, read, q, direct, g₁, left, hlone, hkind, hstable, hnear, hremove, hcase⟩ :=
    foldPlace_spec hc h
  · exact hg.refl
  have hne := hlone.ne hkind
  obtain ⟨hvoid, hstatic, left', hload⟩ | ⟨n, hload⟩ := hcase
  · -- A static field has a fixed address.
    refine hlone.refines_void hg ?_ hne hvoid hload hremove
    obtain ⟨f, -, rfl⟩ | ⟨f, hk, -⟩ | ⟨-, rfl⟩ := OpKind.directLoad?_cases hkind
    · cases hstatic
    · simp [Operator.isFixedAddress, hk]
    · cases hstatic
  have hbefore : op.isPlace → g.Before id load := hlone.before hshaped hd hnear
  obtain ⟨hs, rfl, hcode⟩ := substitute_spec hshaped.linked hload
  have hg₁ := (hs.grows hshaped.linked).1
  obtain ⟨hs', -⟩ := remove_discard_spec hg₁ hremove
  have hshaped' := shaped_foldPlace hc hg.shaped h
  have hfresh : ∀ n ∈ [⟨g.ops.size⟩], n ∉ g.attached := fun n hn =>
    List.mem_singleton.mp hn ▸ notMem_attached_size hshaped.linked
  refine ⟨⟨hshaped', ?_, fun hf => ?_⟩, ?_⟩
  · refine (hd.spliced hshaped.linked hs (fun n hn _ => hfresh n hn) fun n hn _ => ?_).erased hg₁ hs'
    rw [List.mem_singleton.mp hn]
    exact ⟨_, hcode, hlone.welcomes_directLoad hshaped hkind hbefore hd⟩
  · refine ((hg.prompt hf).spliced hshaped.linked hg₁ hs (hfresh _ (by simp)) hlone.foundLoad hcode
      (hlone.welcomes_directLoad hshaped hkind hbefore hd).place
      (hlone.keepsPace_directLoad hshaped hkind hbefore (hg.prompt hf))).erased hg₁ hshaped'.linked hs'
      fun {a y} _ _ hsettles => ?_
    obtain ⟨-, op', hop', hcase⟩ := settles_iff.mp hsettles
    rw [hs.op (.inl hne) (hshaped.linked.lt_of_mem hlone.attached), hlone.found] at hop'
    obtain rfl := Option.some.inj hop'
    obtain ⟨f, hk, -⟩ | ⟨f, hk, -⟩ | ⟨hk, -⟩ := OpKind.directLoad?_cases hkind <;>
      simp [Operator.derefs, Operator.isStore, hk] at hcase
  · obtain ⟨new, hnew, hcode⟩ := Option.map_eq_some_iff.mp hcode
    have hfused : g.Fused g' id load op read q direct [⟨g.ops.size⟩] :=
      fused_of_spliced hshaped.linked hlone hkind hs hs' hfresh (.inr ⟨_, new, rfl, hnew, hcode⟩)
    exact hfused.preserves hg hshaped'.toWellShaped hbefore
      (fun y hy => hd.quiet_of_stable hshaped hc (hstable _ (mem_reads.mp hy)))
      (fun y hy => (isStable_spec hc (hstable _ (mem_reads.mp hy))).1) hnear

end Edit
end ScalarLowering
