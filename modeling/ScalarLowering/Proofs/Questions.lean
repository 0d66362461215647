import ScalarLowering.Proofs.Decisions
import ScalarLowering.Proofs.WellShaped

/-! The questions a batch asks. A failure is a misuse if it says that a snapshot or an edit was
used against its rules. While every variable that the code mentions can be looked up, none of
the questions that the lowering asks about attached operators fails that way. -/

namespace ScalarLowering

/-- Whether the failure says that a snapshot or an edit was used against its rules. -/
def Error.isMisuse : Error → Bool
  | .chain _ | .graph (.detached _) | .graph (.removesTerminator _)
  | .graph (.membership _ _ _) => true
  | _ => false

def Proper {α : Type} (x : Except Error α) : Prop := ∀ e, x = .error e → e.isMisuse = false

section

variable {α β : Type} {x : Except Error α} {f : α → Except Error β}

theorem proper_of_eq_ok {a : α} (h : x = .ok a) : Proper x := by
  intro e he
  simp [h] at he

theorem proper_pure (a : α) : Proper (pure a) := nofun

theorem proper_throw {e : Error} (he : e.isMisuse = false) : Proper (throw e : Except Error α) := by
  rintro _ ⟨⟩
  exact he

theorem proper_lift (found : Lookup α) : Proper (liftM found) := by
  rintro e he
  cases found with
  | none =>
    cases he
    rfl
  | some a => cases he

theorem proper_bind (hx : Proper x) (hf : ∀ a, x = .ok a → Proper (f a)) : Proper (x >>= f) := by
  intro e he
  obtain he | ⟨a, ha, he⟩ := Except.bind_eq_error.mp he
  · exact hx e he
  · exact hf a ha e he

theorem proper_lift_bind {found : Lookup α} (hf : ∀ a, found = some a → Proper (f a)) :
    Proper (liftM found >>= f) :=
  proper_bind (proper_lift found) fun a ha => hf a (Error.lift_eq_ok.mp ha)

theorem proper_allM {l : List α} {test : α → Except Error Bool} (h : ∀ a ∈ l, Proper (test a)) :
    Proper (l.allM test) := by
  induction l with
  | nil => exact proper_pure true
  | cons a l ih =>
    refine proper_bind (h a List.mem_cons_self) fun b _ => ?_
    cases b with
    | false => exact proper_pure false
    | true => exact ih fun a ha => h a (List.mem_cons_of_mem _ ha)

end

namespace Graph

variable {g g' : Graph} {p : Pool} {c : Chains} {v : VarId} {id user : OpId} {op : Operator}

structure Answerable (g : Graph) (c : Chains) (v : VarId) : Prop where
  defs : ∃ ids, g.attachedDefs c v = .ok ids
  uses : ∃ ids, g.attachedUses c v = .ok ids

/-- What the steps of a batch rely on: the snapshot tracks the graph, and every variable that
the code mentions can be looked up. -/
structure Ready (c : Chains) (g : Graph) : Prop where
  linked : g.Linked
  tracks : Tracks c g
  answerable : ∀ v ∈ g.mentioned, g.Answerable c v

theorem answerable_of_isTouched (h : g.isTouched v) : g.Answerable c v :=
  ⟨⟨_, liveAnswer_eq_ok.mpr (.inl ⟨h, rfl⟩)⟩, ⟨_, liveAnswer_eq_ok.mpr (.inl ⟨h, rfl⟩)⟩⟩

/-- A variable can still be looked up after steps that keep its index. -/
theorem Answerable.of_chainIndex (h : g.Answerable c v) (hsize : g.ops.size ≤ g'.ops.size)
    (hindex : ∀ {i}, g.chainIndex v = .ok i → g'.chainIndex v = .ok i)
    (htouched : g.isTouched v → g'.isTouched v) : g'.Answerable c v := by
  by_cases hv : g'.isTouched v
  · exact answerable_of_isTouched hv
  have hv' : g'.isTouched v = false := by simpa using hv
  obtain ⟨⟨defs, hdefs⟩, ⟨uses, huses⟩⟩ := h
  obtain ⟨ht, -⟩ | ⟨-, chain, hchain, hlt, -⟩ := liveAnswer_eq_ok.mp hdefs
  · exact absurd (htouched ht) hv
  obtain ⟨ht, -⟩ | ⟨-, chain', hchain', hlt', -⟩ := liveAnswer_eq_ok.mp huses
  · exact absurd (htouched ht) hv
  obtain ⟨i, hi, hchain⟩ := chainDefs_eq_ok.mp hchain
  obtain ⟨i', hi', hchain'⟩ := chainUses_eq_ok.mp hchain'
  refine ⟨⟨_, liveAnswer_eq_ok.mpr (.inr ⟨hv', chain, ?_, ?_, rfl⟩)⟩,
    ⟨_, liveAnswer_eq_ok.mpr (.inr ⟨hv', chain', ?_, ?_, rfl⟩)⟩⟩
  · exact chainDefs_eq_ok.mpr ⟨i, hindex hi, hchain⟩
  · exact fun id hid => Nat.lt_of_lt_of_le (hlt id hid) hsize
  · exact chainUses_eq_ok.mpr ⟨i', hindex hi', hchain'⟩
  · exact fun id hid => Nat.lt_of_lt_of_le (hlt' id hid) hsize

theorem Extends.answerable (h : g.Extends g') (hv : g.Answerable c v) : g'.Answerable c v := by
  refine hv.of_chainIndex h.size_ops (fun hi => ?_) h.touched
  obtain ⟨info, hinfo, hi⟩ := chainIndex_eq_ok.mp hi
  exact chainIndex_eq_ok.mpr ⟨info, (h.var (var_eq_some_lt hinfo)).trans hinfo, hi⟩

/-- An edit touches what it makes the code mention. -/
theorem Extends.mentioned (h : g.Extends g') (hg : g.Linked) (hg' : g'.Linked)
    (hv : v ∈ g'.mentioned) : v ∈ g.mentioned ∨ g'.isTouched v := by
  obtain ⟨id, hid, op', hop', hmem⟩ := mem_mentioned.mp hv
  by_cases hlt : id.index < g.ops.size
  · refine Classical.or_iff_not_imp_right.mpr fun htouched => ?_
    obtain ⟨op, hop, -, hr, -, hreads⟩ := h.oldOp hlt hop'
    refine mem_mentioned.mpr ⟨id, ?_, op, hop, ?_⟩
    · exact hg.mem_attached.mpr (h.attached hlt (hg'.mem_attached.mp hid))
    · rw [mem_mentions] at hmem ⊢
      rwa [← hreads v (by simpa using htouched), Operator.definesVar, ← hr]
  · exact .inr (h.newOp (Nat.le_of_not_lt hlt) hop' hmem)

theorem Ready.grows (h : Ready c g) (hgrows : g.Grows g') : Ready c g' := by
  obtain ⟨hg', hext⟩ := hgrows h.linked
  refine ⟨hg', h.tracks.extends hext hg', fun v hv => ?_⟩
  obtain hv | hv := hext.mentioned h.linked hg' hv
  · exact hext.answerable (h.answerable v hv)
  · exact answerable_of_isTouched hv

theorem Exact.answerable (hg : g.Linked) (hc : Exact c g)
    (hv : ∃ info, g.var v = some info ∧ info.dropped = false) : g.Answerable c v := by
  obtain ⟨info, hinfo, hlive⟩ := hv
  refine ⟨⟨_, liveAnswer_eq_ok.mpr (.inr ⟨hc.untouched v, _, hc.defs hinfo hlive, ?_, rfl⟩)⟩,
    ⟨_, liveAnswer_eq_ok.mpr (.inr ⟨hc.untouched v, _, hc.uses hinfo hlive, ?_, rfl⟩)⟩⟩
  · exact fun id hid => hg.lt_of_mem (mem_definers.mp hid).1
  · exact fun id hid => hg.lt_of_mem (mem_readers.mp hid).1

def Mentions (g : Graph) (e : Expr) : Prop := ∀ v, e = .var v → v ∈ g.mentioned

theorem mem_mentioned_of_result (hid : id ∈ g.attached) (hop : g.op id = some op)
    (hv : v ∈ op.results) : v ∈ g.mentioned :=
  mem_mentioned.mpr ⟨id, hid, op, hop, List.mem_append_right _ hv⟩

theorem mem_mentioned_of_result? (hid : id ∈ g.attached) (hop : g.op id = some op)
    (hv : op.result? = some v) : v ∈ g.mentioned :=
  mem_mentioned_of_result hid hop (List.mem_of_mem_head? hv)

theorem mentions_of_arg (hid : id ∈ g.attached) (hop : g.op id = some op) {e : Expr}
    (he : e ∈ op.args) : g.Mentions e := by
  rintro v rfl
  exact mem_mentioned.mpr ⟨id, hid, op, hop, List.mem_append_left _ (mem_reads.mpr he)⟩

namespace Ready

variable (h : Ready c g)
include h

theorem proper_attachedUses (hv : v ∈ g.mentioned) : Proper (g.attachedUses c v) :=
  proper_of_eq_ok (h.answerable v hv).uses.choose_spec

theorem proper_attachedDefs (hv : v ∈ g.mentioned) : Proper (g.attachedDefs c v) :=
  proper_of_eq_ok (h.answerable v hv).defs.choose_spec

theorem proper_defCount (hv : v ∈ g.mentioned) : Proper (g.defCount c v) :=
  proper_bind (h.proper_attachedDefs hv) fun _ _ => proper_pure _

theorem proper_definesAlone (hv : v ∈ g.mentioned) : Proper (g.definesAlone c id v) :=
  proper_bind (h.proper_defCount hv) fun _ _ => proper_pure _

theorem proper_isReadOnly (hv : v ∈ g.mentioned) : Proper (g.isReadOnly p c v) :=
  proper_bind (h.proper_attachedUses hv) fun _ _ => proper_allM fun _ _ =>
    proper_lift_bind fun _ _ => proper_lift _

theorem mem_attached_of_uses {ids : List OpId} (hids : g.attachedUses c v = .ok ids)
    (hid : id ∈ ids) : id ∈ g.attached := by
  rw [h.tracks.attachedUses hids] at hid
  exact (mem_readers.mp hid).1

theorem mem_attached_of_one (hv : g.defCount c v = .ok (.one id)) : id ∈ g.attached :=
  (mem_definers.mp (h.tracks.definers_eq hv ▸ List.mem_singleton.mpr rfl)).1

theorem proper_isStable {e : Expr} (he : g.Mentions e) : Proper (g.isStable p c e) := by
  cases e with
  | const k => exact proper_pure true
  | var v =>
    have hv := he v rfl
    refine proper_bind (h.proper_defCount hv) fun m _ => ?_
    split
    · exact proper_pure false
    · refine proper_bind (h.proper_attachedUses hv) fun ids hids => proper_allM fun id hid => ?_
      refine proper_lift_bind fun op hop => ?_
      split
      · rename_i pointer _ hresult
        exact h.proper_isReadOnly
          (mem_mentioned_of_result? (h.mem_attached_of_uses hids hid) hop hresult)
      · exact proper_pure true

theorem proper_allStable {es : List Expr} (hes : ∀ e ∈ es, g.Mentions e) :
    Proper (g.allStable p c es) := by
  induction es with
  | nil => exact proper_pure true
  | cons e es ih =>
    refine proper_bind (h.proper_isStable (hes e List.mem_cons_self)) fun _ _ => ?_
    exact proper_bind (ih fun e he => hes e (List.mem_cons_of_mem _ he)) fun _ _ => proper_pure _

theorem proper_addressedBy (hv : v ∈ g.mentioned) : Proper (g.addressedBy c user v) := by
  refine proper_bind (h.proper_defCount hv) fun m _ => ?_
  cases m with
  | none => exact proper_throw rfl
  | many n => exact proper_pure none
  | one d =>
    refine proper_lift_bind fun op _ => ?_
    split
    · exact proper_pure _
    · exact proper_pure none

theorem proper_sourceOf (hv : v ∈ g.mentioned) : Proper (g.sourceOf p c user v) := by
  refine proper_lift_bind fun info _ => proper_lift_bind fun scalar _ => ?_
  split
  · exact proper_pure _
  refine proper_lift_bind fun pointee _ => ?_
  cases pointee with
  | none => exact proper_lift_bind fun _ _ => proper_throw rfl
  | some t =>
    dsimp only
    split
    · exact proper_pure _
    · refine proper_bind (h.proper_addressedBy hv) fun addressed _ => ?_
      cases addressed <;> exact proper_pure _

theorem mentions_of_sourceOf {source : Source} (hv : v ∈ g.mentioned)
    (hsource : g.sourceOf p c user v = .ok source) : g.Mentions source.operand := by
  have hself : g.Mentions (.var v) := by
    rintro w ⟨⟩
    exact hv
  obtain ⟨info, -, ⟨-, rfl⟩ | ⟨t, -, -, ⟨e, -, haddressed, rfl⟩ | rfl⟩⟩ := sourceOf_spec hsource
  · exact hself
  · obtain ⟨d, op, hd, hop, -, hargs⟩ := addressedBy_spec haddressed
    exact mentions_of_arg (h.mem_attached_of_one hd) hop (by simp [hargs, Source.operand])
  · exact hself

theorem proper_seenByAll (hv : v ∈ g.mentioned) (ids : List OpId) (start : Nat) (writes : List Nat) :
    Proper (do
      (← g.attachedUses c v).allM fun reader => do
        let op ← g.op reader
        if op.kind = .addressOf then return false
        match ids.idxOf? reader with
        | none => return false
        | some stop => return start < stop && !writes.any fun w => start < w && w < stop) := by
  refine proper_bind (h.proper_attachedUses hv) fun users _ => proper_allM fun reader _ => ?_
  refine proper_lift_bind fun op _ => ?_
  split
  · exact proper_pure _
  · split <;> exact proper_pure _

theorem proper_seenByReaders {value : Expr} (hv : v ∈ g.mentioned) (hvalue : g.Mentions value) :
    Proper (g.seenByReaders c id v value) := by
  refine proper_lift_bind fun op _ => ?_
  split
  case h_2 => exact proper_pure _
  refine proper_lift_bind fun block _ => ?_
  dsimp only
  split
  case h_2 => exact proper_pure _
  cases value with
  | const k => exact h.proper_seenByAll hv block.ops _ _
  | var w =>
    refine proper_bind (h.proper_attachedDefs (hvalue w rfl)) fun defs _ => ?_
    exact h.proper_seenByAll hv block.ops _ _

theorem proper_constructorCopy (hid : id ∈ g.attached) : Proper (g.constructorCopy p c id) := by
  refine proper_lift_bind fun op hop => ?_
  split
  case h_2 => exact proper_pure _
  refine proper_lift_bind fun m _ => ?_
  split
  · exact proper_pure _
  refine proper_lift_bind fun scalar _ => ?_
  split
  · exact proper_pure _
  split
  case h_2 => exact proper_throw rfl
  rename_i this value hargs
  split
  · exact proper_pure _
  refine proper_lift_bind fun t _ => proper_lift_bind fun accepts _ => ?_
  split
  · exact proper_pure _
  split
  case h_2 => exact proper_pure _
  rename_i this
  refine proper_lift_bind fun info _ => ?_
  split
  · exact proper_pure _
  have hthis : this ∈ g.mentioned := mentions_of_arg hid hop (by simp [hargs]) this rfl
  refine proper_bind (h.proper_defCount hthis) fun m _ => ?_
  split
  case h_2 => exact proper_pure _
  refine proper_lift_bind fun source _ => ?_
  split
  · exact proper_pure _
  split
  case h_2 => exact proper_pure _
  refine proper_lift_bind fun info _ => ?_
  split <;> exact proper_pure _

omit h in
theorem proper_staticOperands : Proper (g.staticOperands p id op) := by
  unfold staticOperands
  split
  case h_2 => exact proper_throw rfl
  refine proper_lift_bind fun left _ => ?_
  split
  · exact proper_pure _
  refine proper_lift_bind fun right _ => ?_
  split <;> exact proper_pure _

theorem proper_instanceOperands {owner : TypeId} (hid : id ∈ g.attached) (hop : g.op id = some op) :
    Proper (g.instanceOperands p c id op owner) := by
  unfold instanceOperands
  split
  case h_2 => exact proper_throw rfl
  rename_i this right hargs
  refine proper_lift_bind fun scalar _ => ?_
  split
  · exact proper_pure _
  refine proper_lift_bind fun kind _ => ?_
  split
  · exact proper_pure _
  split
  case h_2 => exact proper_pure _
  rename_i this
  exact proper_bind (h.proper_sourceOf (mentions_of_arg hid hop (by simp [hargs]) this rfl))
    fun _ _ => proper_pure _

theorem proper_equalityComparison (hid : id ∈ g.attached) :
    Proper (g.equalityComparison p c id) := by
  refine proper_lift_bind fun op hop => ?_
  split
  case h_2 => exact proper_pure _
  refine proper_lift_bind fun m _ => proper_lift_bind fun scalar _ => ?_
  split
  · exact proper_pure _
  refine proper_lift_bind fun condition _ => ?_
  split
  case h_2 => exact proper_pure _
  split
  case h_2 => exact proper_pure _
  dsimp only
  split
  · exact proper_bind proper_staticOperands fun _ _ => proper_pure _
  · exact proper_bind (h.proper_instanceOperands hid hop) fun _ _ => proper_pure _

theorem proper_fieldRead (hid : id ∈ g.attached) : Proper (g.fieldRead p c id) := by
  refine proper_lift_bind fun op hop => ?_
  split
  case h_2 => exact proper_pure _
  refine proper_lift_bind fun isValue _ => ?_
  split
  · exact proper_pure _
  split
  case h_2 => exact proper_throw rfl
  rename_i receiver hargs
  split
  case h_2 => exact proper_pure _
  rename_i receiver
  split
  case h_2 => exact proper_pure _
  rename_i result hresult
  have hreceiver : receiver ∈ g.mentioned := mentions_of_arg hid hop (by simp [hargs]) receiver rfl
  refine proper_lift_bind fun info _ => proper_lift_bind fun scalar _ => ?_
  refine proper_lift_bind fun pointee _ => ?_
  split
  · exact proper_pure _
  refine proper_bind (h.proper_definesAlone (mem_mentioned_of_result? hid hop hresult)) fun _ _ => ?_
  split
  · exact proper_pure _
  exact proper_bind (h.proper_sourceOf hreceiver) fun _ _ => proper_pure _

theorem proper_fieldAddress (hid : id ∈ g.attached) : Proper (g.fieldAddress p c id) := by
  refine proper_lift_bind fun op hop => ?_
  split
  case h_2 => exact proper_pure _
  refine proper_lift_bind fun isValue _ => ?_
  split
  · exact proper_pure _
  split
  case h_2 => exact proper_throw rfl
  rename_i receiver hargs
  split
  case h_2 => exact proper_pure _
  rename_i result hresult
  refine proper_bind (h.proper_definesAlone (mem_mentioned_of_result? hid hop hresult)) fun _ _ => ?_
  split
  · exact proper_pure _
  refine proper_lift_bind fun t _ => proper_lift_bind fun scalar _ => ?_
  split
  · exact proper_pure _
  refine proper_lift_bind fun pointee _ => ?_
  split
  · exact proper_pure _
  exact proper_bind (h.proper_isStable (mentions_of_arg hid hop (by simp [hargs])))
    fun _ _ => proper_pure _

theorem proper_loneLoad (hid : id ∈ g.attached) : Proper (g.loneLoad c id) := by
  refine proper_lift_bind fun op hop => ?_
  split
  case h_2 => exact proper_pure _
  rename_i pointer hpointer
  have hmem := mem_mentioned_of_result? hid hop hpointer
  refine proper_bind (h.proper_definesAlone hmem) fun _ _ => ?_
  split
  · exact proper_pure _
  refine proper_bind (h.proper_attachedUses hmem) fun ids _ => ?_
  split
  case h_2 => exact proper_pure _
  refine proper_lift_bind fun read _ => ?_
  split <;> exact proper_pure _

theorem mem_attached_of_loneLoad {load : OpId} (hload : g.loneLoad c id = .ok (some load)) :
    load ∈ g.attached := by
  obtain ⟨_, _, _, _, -, -, -, huses, -⟩ := loneLoad_spec hload
  exact h.mem_attached_of_uses huses (List.mem_singleton.mpr rfl)

theorem proper_localFold (hid : id ∈ g.attached) : Proper (g.localFold p c id) := by
  refine proper_lift_bind fun op hop => ?_
  split
  case h_2 => exact proper_pure _
  rename_i pointer hpointer
  refine proper_bind (h.proper_attachedUses (mem_mentioned_of_result? hid hop hpointer)) fun _ _ => ?_
  split
  · exact proper_pure _
  refine proper_bind (h.proper_loneLoad hid) fun found hfound => ?_
  split
  case h_2 => exact proper_pure _
  rename_i load
  split
  case h_2 => exact proper_pure _
  rename_i addressed hargs
  refine proper_lift_bind fun read hread => ?_
  split
  · exact proper_pure _
  rename_i loaded hloaded
  have hmem := mem_mentioned_of_result? (h.mem_attached_of_loneLoad hfound) hread hloaded
  refine proper_bind (h.proper_definesAlone hmem) fun _ _ => ?_
  split
  · exact proper_pure _
  exact proper_bind (h.proper_isStable (mentions_of_arg hid hop (by simp [hargs])))
    fun _ _ => proper_pure _

theorem proper_directLoad (hid : id ∈ g.attached) : Proper (g.directLoad p c id) := by
  refine proper_bind (h.proper_loneLoad hid) fun found _ => ?_
  split
  case h_2 => exact proper_pure _
  refine proper_lift_bind fun op hop => ?_
  split
  case h_2 => exact proper_pure _
  refine proper_bind (h.proper_allStable fun e he => mentions_of_arg hid hop he) fun _ _ => ?_
  split
  · exact proper_pure _
  refine proper_lift_bind fun read _ => ?_
  split <;> exact proper_pure _

end Ready
end Graph
end ScalarLowering
