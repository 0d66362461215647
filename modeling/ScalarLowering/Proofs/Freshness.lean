import ScalarLowering.Proofs.DeadCode
import ScalarLowering.Proofs.RoundTrips

/-! When the address in a variable is still the one that its operands give. It is right behind the
operator that takes it, and as long as the address is taken again before the next load whenever an
operand has been defined. A direct load from the operands then reads what a load through the variable
reads. -/

namespace ScalarLowering

/-- The variable is undefined, or holds what the operator would put into it now. -/
def Operator.Fresh (op : Operator) (p : Pool) (g : Graph) (q : VarId) (s : Frame) : Prop :=
  s.read (.var q) = some .undefined ∨ ∃ l, op.action p g s = .ok (some (.var q, .pointer l)) ∧
    s.read (.var q) = some (.pointer l)

/-- The field can be loaded whenever its address can be taken: it is known, and of a wrapper at
hand only the value is taken. -/
def Operator.fieldFits (op : Operator) (p : Pool) (g : Graph) : Bool :=
  match op.kind with
  | .loadFieldAddress f => (p.isValueField f).any fun value =>
    value || op.args.head?.all fun e => g.isScalarExpr p e ≠ some true
  | _ => true

theorem OpKind.directLoad?_cases {kind direct : OpKind} (h : kind.directLoad? = some direct) :
    (∃ f, kind = .loadFieldAddress f ∧ direct = .loadField f) ∨
      (∃ f, kind = .loadStaticAddress f ∧ direct = .loadStatic f) ∨
      kind = .loadElementAddress ∧ direct = .loadElement := by
  cases kind <;> simp [OpKind.directLoad?] at h <;> simp [h]

theorem Operator.isPlace_or_static {op : Operator} {kind : OpKind}
    (h : op.kind.directLoad? = some kind) : op.isPlace ∨ ∃ f, op.kind = .loadStaticAddress f := by
  obtain ⟨f, hk, -⟩ | ⟨f, hk, -⟩ | ⟨hk, -⟩ := OpKind.directLoad?_cases h <;> simp [isPlace, hk]

namespace Operator

variable {op : Operator} {p : Pool} {g : Graph} {q : VarId} {s t : Frame}
  {a : Option (Location × Value)}

theorem fresh_of_taken (hplace : op.isPlace) (hresult : op.result? = some q)
    (hreads : ∀ y ∈ op.reads, y ≠ q) (ha : op.action p g s = .ok a) (ht : s.perform a = some t) :
    op.Fresh p g q t := by
  obtain ⟨l, rfl⟩ := action_of_isPlace hplace ha
  simp only [into, hresult, Option.map_some] at ha ht
  have hread := Frame.read_perform ht
  refine .inr ⟨l, ?_, by rw [hread, if_pos rfl]⟩
  rw [action_perform_of_isPlace hplace ht, ha]
  intro y hy
  rw [hread, if_neg fun h => hreads y hy (Location.var.inj h)]

theorem Fresh.perform (h : op.Fresh p g q s) (hplace : op.isPlace) (ht : s.perform a = some t)
    (hq : t.read (.var q) = s.read (.var q))
    (hreads : ∀ y ∈ op.reads, t.read (.var y) = s.read (.var y)) : op.Fresh p g q t := by
  unfold Fresh at h ⊢
  rwa [hq, action_perform_of_isPlace hplace ht hreads]

theorem read_of_isPure {x : VarId} (h : op.isPure) (ha : op.action p g s = .ok a)
    (ht : s.perform a = some t) (hx : op.result? ≠ some x) : t.read (.var x) = s.read (.var x) := by
  obtain rfl | ⟨v, rfl⟩ := action_of_definesOnly (definesOnly_of_isPure h) ha
  · rw [Option.some.inj ht]
  · cases hresult : op.result? with
    | none =>
      simp only [into, hresult, Option.map_none] at ht
      rw [Option.some.inj ht]
    | some z =>
      simp only [into, hresult, Option.map_some] at ht
      rw [Frame.read_perform ht, if_neg]
      rintro ⟨⟩
      exact hx hresult

end Operator

namespace Graph

variable {g : Graph} {p : Pool} {address load : OpId} {op read : Operator} {q : VarId}
  {kind : OpKind} {pre rest : List OpId} {s : Frame}

/-- A way leads from the operators `ids`, the rest of a block, to `target` without running
`avoided`. -/
inductive Leads (g : Graph) (avoided target : OpId) : List OpId → Prop
  | here {rest : List OpId} : Leads g avoided target (target :: rest)
  | next {id : OpId} {rest : List OpId} : id ≠ avoided → Leads g avoided target rest →
    Leads g avoided target (id :: rest)
  | goto {id : OpId} {rest : List OpId} {op : Operator} {b : BlockId} {block : Block} :
    g.op id = some op → b ∈ op.targets → g.block b = some block →
    Leads g avoided target block.ops → Leads g avoided target (id :: rest)

theorem Leads.append {before : List OpId} (hbefore : address ∉ before)
    (h : g.Leads address load rest) : g.Leads address load (before ++ rest) := by
  induction before with
  | nil => exact h
  | cons id before ih =>
    simp only [List.mem_cons, not_or] at hbefore
    exact .next (Ne.symm hbefore.1) (ih hbefore.2)

theorem At.before_of_mem_rest {id : OpId} (h : g.At pre (id :: rest)) (hload : load ∈ rest) :
    g.Before id load := by
  obtain ⟨b, block, hb, hops⟩ := h
  obtain ⟨front, back, rfl⟩ := List.append_of_mem hload
  exact before_iff.mpr ⟨pre ++ id :: front, back, ⟨b, block, hb, by simp [hops]⟩, by simp⟩

/-- A definition of the variable stands between the two operators in a block. -/
def DefinedBetween (g : Graph) (first second : OpId) (y : VarId) : Prop :=
  ∃ d ∈ g.definers y, g.Before first d ∧ g.Before d second

theorem wideInvariant_fresh {info : Variable} (hop : g.op address = some op)
    (hplace : op.isPlace) (hresult : op.result? = some q) (hq : g.Quiet p q)
    (hdef : g.definers q = [address]) (hinfo : g.var q = some info) (harg : info.isArgument = false)
    (hoperands : ∀ y ∈ op.reads, g.Quiet p y ∧ y ≠ q ∧ ∀ d ∈ g.definers y, ∀ {pre rest},
      g.At pre (d :: rest) → ¬g.Leads address load rest) :
    g.WideInvariant p fun _ rest s => op.Fresh p g q s ∨ ¬g.Leads address load rest := by
  refine ⟨fun _ _ => .inl (.inl (read_initial hinfo harg)), ?_, ?_⟩
  · intro pre id rest op' s t a hat hs hI hop' hapart ha ht
    have hid := mem_attached_of_at hat
    by_cases hne : id = address
    · subst hne
      obtain rfl := Option.some.inj (hop.symm.trans hop')
      exact .inl (Operator.fresh_of_taken hplace hresult (fun y hy => (hoperands y hy).2.1) ha ht)
    · by_cases hdefines : ∃ y ∈ op.reads, id ∈ g.definers y
      · obtain ⟨y, hy, hd⟩ := hdefines
        exact .inr ((hoperands y hy).2.2 id hd hat)
      · refine hI.imp (fun hfresh => ?_) fun hleads h => hleads (.next hne h)
        exact hfresh.perform hplace ht
          (read_of_notMem_definers hs hid hop' hapart ha ht hq (by simpa [hdef] using hne))
          fun y hy => read_of_notMem_definers hs hid hop' hapart ha ht (hoperands y hy).1
            fun hd => hdefines ⟨y, hy, hd⟩
  · intro pre id rest op' s b block _ _ hI hop' hgoto hb
    exact hI.imp_right fun hleads h => hleads (.goto hop' (mem_targets_of_control hgoto) hb h)

/-- From an address to the load behind it in the block only pure operators run, and none of them
defines an operand. -/
theorem wideInvariant_near (hop : g.op address = some op) (hplace : op.isPlace)
    (hresult : op.result? = some q) (hdef : g.definers q = [address]) (hreads : ∀ y ∈ op.reads, y ≠ q)
    (hpure : ∀ {id op'}, g.Before address id → g.Before id load → g.op id = some op' → op'.isPure)
    (hnone : ∀ {id}, g.Before address id → g.Before id load → ∀ y ∈ op.reads, id ∉ g.definers y) :
    g.WideInvariant p fun pre rest s => address ∈ pre → load ∈ rest → op.Fresh p g q s := by
  refine ⟨fun _ _ hmem => absurd hmem List.not_mem_nil, ?_,
    fun _ _ _ _ _ _ hmem => absurd hmem List.not_mem_nil⟩
  intro pre id rest op' s t a hat _ hI hop' _ ha ht hmem hload
  have hid := mem_attached_of_at hat
  by_cases hne : id = address
  · subst hne
    obtain rfl := Option.some.inj (hop.symm.trans hop')
    exact Operator.fresh_of_taken hplace hresult hreads ha ht
  · have hpre : address ∈ pre := by simpa [Ne.symm hne] using hmem
    have hbefore : g.Before address id := before_iff.mpr ⟨pre, rest, hat, hpre⟩
    have hbehind : g.Before id load := hat.before_of_mem_rest hload
    have hread : ∀ {x}, id ∉ g.definers x → t.read (.var x) = s.read (.var x) := fun hx =>
      Operator.read_of_isPure (hpure hbefore hbehind hop') ha ht
        fun h => hx (mem_definers_of_result? hid hop' h)
    exact (hI hpre (List.mem_cons_of_mem id hload)).perform hplace ht
      (hread (by simpa [hdef] using hne)) fun y hy => hread (hnone hbefore hbehind y hy)

theorem LoneLoad.ne (h : g.LoneLoad address load op read q) (hkind : op.kind.directLoad? = some kind) :
    address ≠ load := by
  rintro rfl
  obtain ⟨t, hload⟩ := h.kind
  obtain rfl := Option.some.inj (h.found.symm.trans h.foundLoad)
  simp [hload, OpKind.directLoad?] at hkind

theorem LoneLoad.ne_of_mem_reads (h : g.LoneLoad address load op read q)
    (hkind : op.kind.directLoad? = some kind) {y : VarId} (hy : y ∈ op.reads) : y ≠ q := by
  rintro rfl
  have hmem := mem_readers_of_reads h.attached h.found hy
  rw [h.sole, List.mem_singleton] at hmem
  exact h.ne hkind hmem

theorem LoneLoad.not_exposed (h : g.LoneLoad address load op read q) : ¬g.Exposed p q := by
  rintro ⟨id, op', hid, hop', htakes⟩
  have hmem := mem_readers_of_reads hid hop' htakes.mem_reads
  rw [h.sole, List.mem_singleton] at hmem
  subst hmem
  obtain rfl := Option.some.inj (h.foundLoad.symm.trans hop')
  obtain ⟨t, hload⟩ := h.kind
  obtain ⟨-, hkind | ⟨⟨f, hkind⟩, -⟩⟩ := htakes <;> simp [hload] at hkind

theorem LoneLoad.quiet (h : g.LoneLoad address load op read q) : g.Quiet p q :=
  quiet_of_not_takesAddress fun hid hop htakes => h.not_exposed ⟨_, _, hid, hop, htakes⟩

/-- Whenever the load is about to run, the address that it goes through is fresh. -/
theorem LoneLoad.exists_fresh (h : g.LoneLoad address load op read q) (hg : g.WellShaped)
    (hkind : op.kind.directLoad? = some kind) (hnear : op.mayFault → g.faultMovesDown address load)
    (hquiet : ∀ y ∈ op.reads, (op.mayFault → g.DefinedBetween address load y) → g.Quiet p y)
    (hone : ∀ y ∈ op.reads, ∀ {d d'}, d ∈ g.definers y → d' ∈ g.definers y → d = d')
    (hagain : op.mayFault = false → ∀ y ∈ op.reads, ∀ d ∈ g.definers y, ∀ {pre rest},
      g.At pre (d :: rest) → ¬g.Leads address load rest) :
    ∃ I, g.WideInvariant p I ∧
      ∀ {pre rest s}, g.At pre (load :: rest) → I pre (load :: rest) s → op.Fresh p g q s := by
  obtain ⟨info, hinfo, harg⟩ := h.info hg
  have hresult := hg.result?_eq h.attached h.found (v := q) (by simp [h.results hg])
  have hne : ∀ y ∈ op.reads, y ≠ q := fun y hy => h.ne_of_mem_reads hkind hy
  obtain hplace | ⟨f, hstatic⟩ := Operator.isPlace_or_static hkind
  · cases hfault : op.mayFault with
    | false =>
      refine ⟨_, wideInvariant_fresh h.found hplace hresult h.quiet h.alone hinfo harg
        fun y hy => ⟨hquiet y hy (by simp [hfault]), hne y hy, hagain hfault y hy⟩, fun _ hI => ?_⟩
      exact hI.resolve_right (not_not.mpr .here)
    | true =>
      obtain ⟨hbefore, hpure⟩ := faultMovesDown_spec hg.linked (hnear hfault)
      by_cases hbetween : ∃ y ∈ op.reads, g.DefinedBetween address load y
      · -- The operand is undefined when the address is to be taken for the first time.
        obtain ⟨y, hy, d, hd, hbefore, hbehind⟩ := hbetween
        obtain ⟨hdattached, source, hsource, hdefines⟩ := mem_definers.mp hd
        obtain ⟨infoy, hinfoy, hargy⟩ := (hg.fits hdattached hsource).written y
          (by simpa [Operator.definesVar] using hdefines)
        refine ⟨_, wideInvariant_unplaced hg h.found hplace h.quiet h.alone hy
          (hquiet y hy fun _ => ⟨d, hd, hbefore, hbehind⟩) hinfo harg hinfoy hargy
          fun d' hd' => hone y hy hd hd' ▸ hbefore, fun _ hI => .inl hI.2.2⟩
      · refine ⟨_, wideInvariant_near h.found hplace hresult h.alone hne hpure
          fun hfirst hsecond y hy hd => hbetween ⟨y, hy, _, hd, hfirst, hsecond⟩, fun hat hI => ?_⟩
        exact hI ((hat.mem_pre_iff hg.linked).mpr hbefore) List.mem_cons_self
  · refine ⟨_, wideInvariant_static h.quiet hinfo harg h.alone h.found hstatic, fun _ hI => ?_⟩
    obtain ⟨w, hw, rfl | rfl⟩ := hI
    · exact .inl hw
    · exact .inr ⟨_, by simp [Operator.action, hstatic, Operator.into, hresult], hw⟩

end Graph

namespace Operator

variable {op read : Operator} {p : Pool} {g : Graph} {q : VarId} {kind : OpKind} {s : Frame}
  {l : Location} {w : Value}

theorem readField_of_fieldPlace {f : FieldId} {receiver : Value} (hkind : op.kind = .loadFieldAddress f)
    (hfits : op.fieldFits p g) (hapart : op.Apart p g s) (hreceiver : s.arg op 0 = .ok receiver)
    (hl : p.fieldPlace op receiver f = .ok l) (hw : s.read l = some w) :
    p.readField s receiver f = .ok w := by
  simp only [fieldFits, hkind, Option.any_eq_true, Bool.or_eq_true] at hfits
  obtain ⟨value, hvalue, hreceivers⟩ := hfits
  refine readField_eq_ok.mpr ⟨value, hvalue, ?_⟩
  obtain ⟨o, rfl, rfl⟩ | ⟨rfl, htrue⟩ | ⟨b, x, rfl, hhead, rfl⟩ := fieldPlace_eq_ok.mp hl
  · exact .inl ⟨o, rfl, hw⟩
  · exact .inr (.inl ⟨Option.some.inj (hvalue.symm.trans htrue), l, rfl, hw⟩)
  · -- a payload is only in a variable of a scalar type
    obtain ⟨e, he, hbits⟩ := arg_eq_ok.mp hreceiver
    rw [← List.head?_eq_getElem?, hhead] at he
    obtain rfl := Option.some.inj he
    have hscalar := Graph.isScalarExpr_iff_kindOf.mpr (hapart hkind hhead hbits)
    have htrue : value = true := by simpa [hhead, hscalar] using hreceivers
    exact .inr (.inr ⟨htrue, b, rfl, Option.some.inj (hbits.symm.trans hw)⟩)

/-- The direct load reads the place whose address the operator gives. -/
theorem directLoad_action (hkind : op.kind.directLoad? = some kind) (hfits : op.fieldFits p g)
    (hapart : op.Apart p g s) (ha : op.action p g s = .ok (some (.var q, .pointer l)))
    (hw : s.read l = some w) : (directLoad kind op read).action p g s = .ok (read.into w) := by
  obtain ⟨f, hk, rfl⟩ | ⟨f, hk, rfl⟩ | ⟨hk, rfl⟩ := OpKind.directLoad?_cases hkind
  · simp only [action, hk, Except.bind_eq_ok, Except.pure_eq_ok, into_eq_some] at ha
    obtain ⟨receiver, hreceiver, l', hl, x, -, -, heq⟩ := ha
    obtain rfl := Value.pointer.inj heq
    have hread := readField_of_fieldPlace hk hfits hapart hreceiver hl hw
    simp only [action, directLoad, Except.bind_eq_ok, Except.pure_eq_ok]
    exact ⟨receiver, hreceiver, w, hread, rfl⟩
  · simp only [action, hk, Except.pure_eq_ok, into_eq_some] at ha
    obtain ⟨x, -, -, heq⟩ := ha
    obtain rfl := Value.pointer.inj heq
    obtain rfl := Option.some.inj hw
    rfl
  · simp only [action, hk, Except.bind_eq_ok, Except.pure_eq_ok, into_eq_some] at ha
    obtain ⟨array, harray, index, hindex, l', hl, x, -, -, heq⟩ := ha
    obtain rfl := Value.pointer.inj heq
    simp only [action, directLoad, Except.bind_eq_ok, Except.pure_eq_ok, Fault.lift_eq_ok]
    exact ⟨array, harray, index, hindex, l', hl, w, hw, rfl⟩

end Operator
end ScalarLowering
