import ScalarLowering.Proofs.Questions
import ScalarLowering.Proofs.Verification

/-! The discipline of the batches. A batch works on a frozen list of operators and a frozen
snapshot while it edits the graph. Its edit at one operator detaches that operator and loads
through a pointer, and makes the code mention live variables only. So the operators that are
left on the list stay attached, and every variable that is looked up is indexed or touched. -/

namespace ScalarLowering
namespace Edit

/-- The edit does not fail by misuse, and if it succeeds the result is as stated. -/
structure Obeys {α : Type} (e : Edit α) (g : Graph) (Q : α → Graph → Prop) : Prop where
  ok : ∀ {a g'}, e g = .ok a g' → Q a g'
  error : ∀ {err g'}, e g = .error err g' → err.isMisuse = false

variable {α β : Type} {g g' : Graph} {P Q : α → Graph → Prop} {S : β → Graph → Prop}

theorem obeys_pure {a : α} (h : Q a g) : (pure a : Edit α).Obeys g Q where
  ok h' := by
    obtain ⟨rfl, rfl⟩ := pure_eq_ok.mp h'
    exact h
  error := nofun

theorem obeys_bind {x : Edit α} {f : α → Edit β} (hx : x.Obeys g P)
    (hf : ∀ a g', P a g' → (f a).Obeys g' S) : (x >>= f).Obeys g S where
  ok h := by
    obtain ⟨a, g', ha, h⟩ := bind_eq_ok.mp h
    exact (hf a g' (hx.ok ha)).ok h
  error h := by
    obtain h | ⟨a, g', ha, h⟩ := bind_eq_error h
    · exact hx.error h
    · exact (hf a g' (hx.ok ha)).error h

theorem Obeys.mono {x : Edit α} (hx : x.Obeys g P) (h : ∀ a g', P a g' → Q a g') : x.Obeys g Q :=
  ⟨fun ha => h _ _ (hx.ok ha), hx.error⟩

theorem Obeys.self {x : Edit α} (hx : x.Obeys g P) : x.Obeys g fun a g' => x g = .ok a g' :=
  ⟨fun h => h, hx.error⟩

theorem obeys_query_bind {f : Graph → Except Error α} {k : α → Edit β} (hf : Proper (f g))
    (hk : ∀ a, f g = .ok a → (k a).Obeys g S) : (query f >>= k).Obeys g S := by
  refine obeys_bind (P := fun a g' => f g = .ok a ∧ g' = g) ⟨query_eq_ok.mp, fun h => ?_⟩ ?_
  · exact hf _ (query_eq_error.mp h).1
  · rintro a _ ⟨ha, rfl⟩
    exact hk a ha

theorem obeys_modify {f : Graph → Graph} {Q : Unit → Graph → Prop} (h : Q () (f g)) :
    (modify f : Edit Unit).Obeys g Q where
  ok h' := by
    obtain rfl := modify_eq_ok.mp h'
    exact h
  error := nofun

theorem obeys_modifyGet {f : Graph → α × Graph} (h : Q (f g).1 (f g).2) :
    (modifyGet f : Edit α).Obeys g Q where
  ok h' := by
    obtain ⟨rfl, rfl⟩ := Prod.ext_iff.mp (modifyGet_eq_ok.mp h')
    exact h
  error := nofun

/-- A sweep over a list, with what is left of the list in the invariant. -/
theorem obeys_sweep {edit : α → Edit Bool} {R : List α → Graph → Prop}
    (h : ∀ {a as g}, R (a :: as) g → (edit a).Obeys g fun _ g' => R as g') {as : List α}
    (hg : R as g) : (sweep edit as).Obeys g fun _ g' => R [] g' := by
  induction as generalizing g with
  | nil => exact obeys_pure hg
  | cons a as ih =>
    refine obeys_bind (h hg) fun _ g₁ hg₁ => ?_
    exact obeys_bind (ih hg₁) fun _ g₂ hg₂ => obeys_pure hg₂

end Edit

namespace Graph

variable {g g' g'' : Graph} {p : Pool} {c : Chains} {id old load : OpId} {ids : List OpId}
  {op new : Operator} {v : VarId}

def LiveVar (g : Graph) (v : VarId) : Prop := ∃ info, g.var v = some info ∧ info.dropped = false

def Live (g : Graph) : Prop := ∀ v ∈ g.mentioned, g.LiveVar v

/-- What the edit at one operator of a batch does to the graph. -/
structure Tidies (id : OpId) (g g' : Graph) : Prop where
  grows : g.Grows g'
  live : g.Live → g'.Live
  /-- Only the operator itself and loads through pointers are detached. -/
  spares : ∀ {x : OpId} {op : Operator}, x ∈ g.attached → g.op x = some op → x ≠ id →
    (∀ t, op.kind ≠ .loadIndirect t) → x ∈ g'.attached

theorem Grows.exists_op (h : g.Grows g') (hg : g.Linked) (hop : g.op id = some op) :
    ∃ op', g'.op id = some op' ∧ op'.kind = op.kind := by
  obtain ⟨-, hext⟩ := h hg
  have hlt := op_eq_some_lt hop
  obtain ⟨op', hop'⟩ := Graph.exists_op (Nat.lt_of_lt_of_le hlt hext.size_ops)
  obtain ⟨op₀, hop₀, hkind, -⟩ := hext.oldOp hlt hop'
  exact ⟨op', hop', Option.some.inj (hop₀.symm.trans hop) ▸ hkind⟩

theorem Tidies.refl (id : OpId) (g : Graph) : Tidies id g g :=
  ⟨Std.Refl.refl g, fun h => h, fun hx _ _ _ => hx⟩

theorem Tidies.trans (hg : g.Linked) (h : Tidies id g g') (h' : Tidies id g' g'') :
    Tidies id g g'' where
  grows := IsTrans.trans _ _ _ h.grows h'.grows
  live hlive := h'.live (h.live hlive)
  spares hx hop hne hkind := by
    obtain ⟨op', hop', heq⟩ := h.grows.exists_op hg hop
    exact h'.spares (h.spares hx hop hne hkind) hop' hne (heq ▸ hkind)

theorem Tidies.of_load {t : TypeId} (hop : g.op load = some op) (hkind : op.kind = .loadIndirect t)
    (h : Tidies load g g') (id : OpId) : Tidies id g g' where
  grows := h.grows
  live := h.live
  spares hx hopx _ hkindx := by
    refine h.spares hx hopx ?_ hkindx
    rintro rfl
    rw [Option.some.inj (hopx.symm.trans hop)] at hkindx
    exact hkindx t hkind

theorem LiveVar.extends (h : g.Extends g') (hv : g.LiveVar v) : g'.LiveVar v := by
  obtain ⟨info, hinfo, hd⟩ := hv
  exact ⟨info, (h.var (var_eq_some_lt hinfo)).trans hinfo, hd⟩

theorem tidies_spliced (hg : g.Linked) (h : g.Spliced g' old ids) (hold : old = id ∨ old ∈ ids)
    (hnew : ∀ x ∈ ids, x = old ∨ ∀ op, g'.op x = some op → ∀ v ∈ op.mentions,
      v ∈ g.mentioned ∨ g.LiveVar v) : Tidies id g g' where
  grows := h.grows
  live hlive := by
    have hkeep : ∀ {x op v}, x ∈ g.attached → x ≠ old ∨ old ∈ ids → g'.op x = some op →
        v ∈ op.mentions → g.LiveVar v := by
      intro x op v hx hcase hop hv
      rw [h.op hcase (hg.lt_of_mem hx)] at hop
      exact hlive v (mem_mentioned.mpr ⟨x, hx, op, hop, hv⟩)
    intro v hv
    obtain ⟨x, hx, op, hop, hv⟩ := mem_mentioned.mp hv
    refine LiveVar.extends (h.grows hg).2 ?_
    obtain hx | ⟨hne, hx⟩ := h.mem_attached.mp hx
    · obtain rfl | hfresh := hnew x hx
      · exact hkeep h.attached (.inr hx) hop hv
      · exact (hfresh op hop v hv).elim (hlive v) fun h => h
    · exact hkeep hx (.inl hne) hop hv
  spares {x op} hx _ hne _ := by
    refine h.mem_attached.mpr ?_
    by_cases hxold : x = old
    · obtain rfl | hmem := hold
      · exact absurd hxold hne
      · exact .inl (hxold ▸ hmem)
    · exact .inr ⟨hxold, hx⟩

theorem tidies_rewired (hg : g.Linked) {e : Expr} (h : g.Rewired g' ids v e) (he : g.Mentions e)
    (id : OpId) : Tidies id g g' where
  grows := h.grows
  live hlive := by
    intro w hw
    obtain ⟨x, hx, op', hop', hw⟩ := mem_mentioned.mp hw
    have hx : x ∈ g.attached := h.attached_eq ▸ hx
    refine LiveVar.extends (h.grows hg).2 (hlive w ?_)
    obtain ⟨op, -, hop, -⟩ := hg.exists_op_of_mem hx
    rw [h.op, hop] at hop'
    split at hop'
    · obtain rfl : op.substitute v e = op' := Option.some.inj hop'
      obtain hw | hw := List.mem_append.mp hw
      · simp only [mem_reads, Operator.substitute, List.mem_map] at hw
        obtain ⟨a, ha, hw⟩ := hw
        split at hw
        · exact he w hw
        · exact mentions_of_arg hx hop (hw ▸ ha) w rfl
      · exact mem_mentioned_of_result hx hop hw
    · obtain rfl : op = op' := Option.some.inj hop'
      exact mem_mentioned.mpr ⟨x, hx, op, hop, hw⟩
  spares hx _ _ _ := h.attached_eq ▸ hx

theorem tidies_addVar (kind : VarKind) (t : TypeId) (id : OpId) :
    Tidies id g (g.addVar kind t).2 where
  grows := grows_addVar kind t
  live hlive := by
    intro v hv
    obtain ⟨info, hinfo, hd⟩ := hlive v hv
    refine ⟨info, ?_, hd⟩
    rw [var_addVar, if_neg (Nat.ne_of_lt (var_eq_some_lt hinfo)), hinfo]
  spares hx _ _ _ := hx

end Graph

namespace Edit

open ScalarLowering.Graph

variable {g g' : Graph} {p : Pool} {c : Chains} {id old load : OpId} {op new : Operator} {v : VarId}

theorem proper_placeOf (hg : g.Linked) (hid : id ∈ g.attached) : Proper (g.placeOf id) := by
  obtain ⟨place, hplace⟩ := hg.exists_placeOf (hg.mem_attached.mp hid)
  exact proper_of_eq_ok hplace

theorem obeys_substitute (hg : g.Linked) (hid : id ∈ g.attached)
    (hnew : ∀ v ∈ new.mentions, v ∈ g.mentioned) (policy : Policy) :
    (substitute id new policy).Obeys g fun _ g' => Tidies id g g' := by
  have hproper : (substitute id new policy).Obeys g fun _ _ => True := by
    refine obeys_query_bind (proper_placeOf hg hid) fun place _ => ?_
    refine obeys_query_bind (proper_lift_bind fun _ _ => proper_pure _) fun prior _ => ?_
    cases policy with
    | keep => exact obeys_modifyGet trivial
    | discard => exact obeys_modifyGet trivial
  refine hproper.self.mono fun x g' h => ?_
  obtain ⟨hs, -, hcode⟩ := substitute_spec hg h
  refine tidies_spliced hg hs (.inl rfl) fun x hx => .inr fun op hop v hv => .inl (hnew v ?_)
  rw [List.mem_singleton.mp hx] at hop
  obtain ⟨op', hop', hcode⟩ := exists_of_code hcode
  obtain rfl : op' = op := Option.some.inj (hop'.symm.trans hop)
  obtain ⟨-, hargs, hresults, -⟩ := Operator.code_eq.mp hcode
  simpa [Operator.mentions, Operator.reads, hargs, hresults] using hv

theorem obeys_remove (hg : g.Linked) (hid : id ∈ g.attached)
    (hop : ∃ op, g.op id = some op ∧ op.isControl = false) (policy : Policy) :
    (remove id policy).Obeys g fun _ g' => Tidies id g g' := by
  obtain ⟨op, hop, hcontrol⟩ := hop
  refine obeys_query_bind (proper_lift _) fun op' hop' => ?_
  obtain rfl : op = op' := Option.some.inj (hop.symm.trans (Error.lift_eq_ok.mp hop'))
  simp only [hcontrol, Bool.false_eq_true, if_false]
  cases policy with
  | keep =>
    have hnop : ∀ v ∈ Operator.nop.mentions, v ∈ g.mentioned := nofun
    exact obeys_bind (obeys_substitute hg hid hnop .keep) fun _ _ h => obeys_pure h
  | discard =>
    refine obeys_query_bind (proper_placeOf hg hid) fun place hplace => ?_
    refine obeys_bind (obeys_modify (Q := fun _ g' => Tidies id g g') ?_) fun _ _ h => obeys_pure h
    exact tidies_spliced hg (spliced_eraseAt hg hplace) (.inl rfl) nofun

theorem obeys_insertBefore (hg : g.Linked) (hid : id ∈ g.attached) :
    (insertBefore id new).Obeys g fun _ _ => True :=
  obeys_query_bind (proper_placeOf hg hid) fun _ _ => obeys_modifyGet trivial

theorem obeys_redirect {e : Expr} (hg : g.Linked) (hid : id ∈ g.attached) :
    (redirect id v e).Obeys g fun _ _ => True := by
  refine obeys_query_bind (proper_lift _) fun op hop => ?_
  have hop : g.op id = some op := Error.lift_eq_ok.mp hop
  have hatt : op.isAttached := by simpa [isAttached, hop] using hg.mem_attached.mp hid
  simp only [hatt, Bool.not_true, Bool.false_eq_true, if_false]
  split
  · exact obeys_bind (obeys_modify (Q := fun _ _ => True) trivial) fun _ _ _ => obeys_pure trivial
  · exact obeys_pure trivial

theorem obeys_redirectEach {e : Expr} {ids : List OpId} (hg : g.Linked)
    (hids : ∀ id ∈ ids, id ∈ g.attached) : (redirectEach v e ids).Obeys g fun _ _ => True := by
  induction ids generalizing g with
  | nil => exact obeys_pure trivial
  | cons id ids ih =>
    refine obeys_bind (obeys_redirect hg (hids id List.mem_cons_self)).self fun n g₁ h => ?_
    have hr := redirect_spec h
    refine obeys_bind (ih (hr.grows hg).1 fun x hx => ?_) fun _ _ _ => obeys_pure trivial
    exact hr.attached_eq ▸ hids x (List.mem_cons_of_mem _ hx)

theorem obeys_redirectAll {e : Expr} (h : Ready c g) (hv : v ∈ g.mentioned) :
    (redirectAll c v e).Obeys g fun _ g' => g.Rewired g' (g.readers v) v e := by
  have hproper : (redirectAll c v e).Obeys g fun _ _ => True :=
    obeys_query_bind (h.proper_attachedUses hv) fun ids hids =>
      obeys_redirectEach h.linked fun id hid => h.mem_attached_of_uses hids hid
  exact hproper.self.mono fun n g' hr => (redirectAll_spec h.linked h.tracks hr).1

theorem mentions_copy {x : VarId} {value : Expr} (hx : x ∈ g.mentioned) (hvalue : g.Mentions value) :
    ∀ v ∈ (Operator.copy x value).mentions, v ∈ g.mentioned := by
  intro v hv
  obtain hv | hv := List.mem_append.mp hv
  · exact hvalue v (List.mem_singleton.mp (mem_reads.mp hv)).symm
  · exact List.mem_singleton.mp hv ▸ hx

theorem obeys_forward {result : VarId} {value : Expr} {stable : Bool} (h : Ready c g)
    (hid : id ∈ g.attached) (hop : ∃ op, g.op id = some op ∧ op.isControl = false)
    (hresult : result ∈ g.mentioned) (hvalue : g.Mentions value) :
    (forward c id result value stable).Obeys g fun _ g' => Tidies id g g' := by
  have hrest : ∀ redirects : Bool, (if redirects then do
      let _ ← redirectAll c result value
      let _ ← remove id .keep
      return redirects
    else do
      let _ ← substitute id (.copy result value) .keep
      return redirects : Edit Bool).Obeys g fun _ g' => Tidies id g g' := by
    intro redirects
    split
    · refine obeys_bind (obeys_redirectAll h hresult) fun _ g₁ hr => ?_
      have hg₁ := (hr.grows h.linked).1
      have hattached := hr.attached_eq
      obtain ⟨op, hop, hcontrol⟩ := hop
      obtain ⟨op₁, hop₁, hkind⟩ := hr.grows.exists_op h.linked hop
      have hcontrol₁ : op₁.isControl = false := by rwa [Operator.isControl, hkind]
      refine obeys_bind (obeys_remove hg₁ (hattached ▸ hid) ⟨op₁, hop₁, hcontrol₁⟩ .keep)
        fun _ g₂ ht => obeys_pure ?_
      exact (tidies_rewired h.linked hr hvalue id).trans h.linked ht
    · exact obeys_bind (obeys_substitute h.linked hid (mentions_copy hresult hvalue) .keep)
        fun _ _ ht => obeys_pure ht
  unfold forward
  dsimp only
  split
  · exact obeys_query_bind (h.proper_seenByReaders hresult hvalue) fun redirects _ => hrest redirects
  · exact obeys_bind (P := fun _ g' => g' = g) (obeys_pure rfl) fun redirects _ hg => hg ▸ hrest redirects

theorem obeys_fetch {check : Bool} {source : Source} (hg : g.Linked) (hid : id ∈ g.attached)
    (hsource : g.Mentions source.operand) :
    (fetch id check source).Obeys g fun e g' => Tidies id g g' ∧ id ∈ g'.attached ∧
      g'.op id = g.op id ∧ g'.Mentions e := by
  cases source with
  | value e => exact obeys_pure ⟨.refl id g, hid, rfl, hsource⟩
  | behind pointer t =>
    have hproper : (fetch id check (.behind pointer t)).Obeys g fun _ _ => True := by
      refine obeys_query_bind (proper_lift_bind fun _ _ => proper_pure _) fun position _ => ?_
      refine obeys_bind (obeys_modifyGet (Q := fun _ g' => g'.Linked ∧ id ∈ g'.attached) ?_)
        fun temp g₁ ⟨hg₁, hid₁⟩ => ?_
      · exact ⟨hg.addVar .temporary t, hid⟩
      · exact obeys_bind (obeys_insertBefore hg₁ hid₁) fun _ _ _ => obeys_pure trivial
    refine hproper.self.mono fun e g' hfetch => ?_
    obtain ⟨rfl, load, op, hcode, hinsert⟩ := fetch_behind_spec hfetch
    have hg₁ := hg.addVar .temporary t
    obtain ⟨hs, rfl, hnew⟩ := insertBefore_spec hg₁ hinsert
    obtain ⟨op', hop', hcode'⟩ := exists_of_code hnew
    obtain ⟨-, hargs, hresults, -⟩ := Operator.code_eq.mp (hcode'.trans hcode)
    have hlinked := (hs.grows hg₁).1
    have htemp : (g.addVar .temporary t).2.LiveVar ⟨g.vars.size⟩ :=
      ⟨_, by rw [var_addVar, if_pos rfl], rfl⟩
    have htidies : Tidies id (g.addVar .temporary t).2 g' := by
      refine tidies_spliced hg₁ hs (.inr (by simp)) fun x hx => ?_
      obtain rfl | hx := List.mem_cons.mp hx
      · refine .inr fun op hop v hv => ?_
        obtain rfl : op' = op := Option.some.inj (hop'.symm.trans hop)
        obtain hv | hv := List.mem_append.mp hv
        · rw [mem_reads, hargs] at hv
          exact .inl (hsource v (List.mem_singleton.mp hv).symm)
        · rw [hresults] at hv
          exact .inr (List.mem_singleton.mp hv ▸ htemp)
      · exact .inl (List.mem_singleton.mp hx)
    refine ⟨(tidies_addVar .temporary t id).trans hg htidies, ?_, ?_, ?_⟩
    · exact hs.mem_attached.mpr (.inl (by simp))
    · exact hs.op (.inr (by simp)) (hg.lt_of_mem hid)
    · rintro v ⟨⟩
      refine mem_mentioned_of_result (hs.mem_attached.mpr (.inl (by simp))) hop' ?_
      simp [hresults, Operator.loadIndirect]

theorem obeys_lowerConstructor (h : Ready c g) (hid : id ∈ g.attached) :
    (lowerConstructor p c id).Obeys g fun _ g' => Tidies id g g' := by
  refine obeys_query_bind (h.proper_constructorCopy hid) fun found hfound => ?_
  cases found with
  | none => exact obeys_pure (.refl id g)
  | some copy =>
    obtain ⟨op, m, method, this, value, d, source, x, infoThis, info, hop, -, -, -, -, hargs, -, -, -,
      -, hd, hsource, -, hx, -, -, -, rfl⟩ := constructorCopy_spec hfound
    have hx := mentions_of_arg (h.mem_attached_of_one hd) hsource (List.mem_of_mem_head? hx) x rfl
    have hvalue : g.Mentions value := mentions_of_arg hid hop (by simp [hargs])
    exact obeys_bind (obeys_substitute h.linked hid (mentions_copy hx hvalue) .keep)
      fun _ _ ht => obeys_pure ht

theorem operands_mentioned {cmp : Comparison} (h : Ready c g) (hid : id ∈ g.attached)
    (hop : g.op id = some op) (hfound : g.equalityComparison p c id = .ok (some cmp)) :
    cmp.result ∈ op.results ∧ cmp.right ∈ op.args ∧ g.Mentions cmp.left.operand := by
  obtain ⟨op', m, method, hop', -, -, -, -, hresult, hoperands⟩ := equalityComparison_spec hfound
  obtain rfl : op = op' := Option.some.inj (hop.symm.trans hop')
  refine ⟨List.mem_of_mem_head? hresult, ?_⟩
  obtain ⟨-, hstatic⟩ | ⟨-, hinstance⟩ := hoperands
  · obtain ⟨unused, e, hargs, hleft, -, -⟩ := staticOperands_spec hstatic
    exact ⟨by simp [hargs], mentions_of_arg hid hop (by simp [hargs, hleft, Source.operand])⟩
  · obtain ⟨this, kind, hargs, -, -, -, hsource⟩ := instanceOperands_spec hinstance
    exact ⟨by simp [hargs], h.mentions_of_sourceOf
      (mentions_of_arg hid hop (by simp [hargs]) this rfl) hsource⟩

theorem obeys_lowerEquality (h : Ready c g) (hid : id ∈ g.attached) :
    (lowerEquality p c id).Obeys g fun _ g' => Tidies id g g' := by
  refine obeys_query_bind (h.proper_equalityComparison hid) fun found hfound => ?_
  cases found with
  | none => exact obeys_pure (.refl id g)
  | some cmp =>
    obtain ⟨op, b, hop, -⟩ := h.linked.exists_op_of_mem hid
    obtain ⟨hresult, hright, hleft⟩ := operands_mentioned h hid hop hfound
    refine obeys_query_bind (proper_lift_bind fun _ _ => proper_pure _) fun check _ => ?_
    refine obeys_bind (obeys_fetch h.linked hid hleft) fun left g₁ ⟨ht, hid₁, hop₁, hleft₁⟩ => ?_
    rw [hop] at hop₁
    have hg₁ := (ht.grows h.linked).1
    refine obeys_bind (obeys_substitute hg₁ hid₁ ?_ .keep) fun _ g₂ ht₂ =>
      obeys_pure (ht.trans h.linked ht₂)
    intro v hv
    obtain hv | hv := List.mem_append.mp hv
    · simp only [mem_reads, Operator.compare, List.mem_cons, List.not_mem_nil, or_false] at hv
      obtain hv | hv := hv
      · exact hleft₁ v hv.symm
      · exact mentions_of_arg hid₁ hop₁ hright v hv.symm
    · exact List.mem_singleton.mp hv ▸ mem_mentioned_of_result hid₁ hop₁ hresult

theorem obeys_lowerFieldLoad (h : Ready c g) (hid : id ∈ g.attached) :
    (lowerFieldLoad p c id).Obeys g fun _ g' => Tidies id g g' := by
  refine obeys_query_bind (h.proper_fieldRead hid) fun found hfound => ?_
  cases found with
  | none => exact obeys_pure (.refl id g)
  | some read =>
    obtain ⟨op, f, receiver, info, hop, hkind, -, hargs, hresult, -, -, hsource⟩ :=
      fieldRead_spec hfound
    have hcontrol : op.isControl = false := by simp [Operator.isControl, hkind, OpKind.isControl]
    have hoperand := h.mentions_of_sourceOf
      (mentions_of_arg hid hop (by simp [hargs]) receiver rfl) hsource
    refine obeys_query_bind (proper_lift_bind fun _ _ => proper_pure _) fun check _ => ?_
    have hforward : ∀ {value : Expr} {stable : Bool} {g₁ : Graph}, Tidies id g g₁ →
        id ∈ g₁.attached → g₁.op id = some op → g₁.Mentions value →
        (forward c id read.result value stable >>= fun _ => pure true : Edit Bool).Obeys g₁
          fun _ g' => Tidies id g g' := by
      intro value stable g₁ ht hid₁ hop₁ hvalue
      have hresult₁ := mem_mentioned_of_result? hid₁ hop₁ hresult
      refine obeys_bind (obeys_forward (h.grows ht.grows) hid₁ ⟨op, hop₁, hcontrol⟩ hresult₁ hvalue)
        fun _ g₂ ht₂ => obeys_pure (ht.trans h.linked ht₂)
    obtain ⟨result, source⟩ := read
    cases source with
    | value e =>
      refine obeys_query_bind (h.proper_isStable hoperand) fun stable _ => ?_
      exact hforward (.refl id g) hid hop hoperand
    | behind pointer t =>
      refine obeys_bind (obeys_fetch h.linked hid hoperand) fun value g₁ hfetched => ?_
      obtain ⟨ht, hid₁, hop₁, hvalue⟩ := hfetched
      exact hforward ht hid₁ (hop₁.trans hop) hvalue

theorem obeys_lowerFieldAddress (h : Ready c g) (hid : id ∈ g.attached) :
    (lowerFieldAddress p c id).Obeys g fun _ g' => Tidies id g g' := by
  refine obeys_query_bind (h.proper_fieldAddress hid) fun found hfound => ?_
  cases found with
  | none => exact obeys_pure (.refl id g)
  | some found =>
    obtain ⟨op, f, receiver, result, t, hop, hkind, -, hargs, hresult, -, -, hcase⟩ :=
      fieldAddress_spec hfound
    have hcontrol : op.isControl = false := by simp [Operator.isControl, hkind, OpKind.isControl]
    have hresult := mem_mentioned_of_result? hid hop hresult
    have hreceiver : g.Mentions receiver := mentions_of_arg hid hop (by simp [hargs])
    obtain ⟨x, -, rfl, rfl⟩ | ⟨u, stable, -, -, -, rfl⟩ := hcase
    · have hnew : ∀ v ∈ (Operator.addressOf result x).mentions, v ∈ g.mentioned :=
        mentions_copy hresult hreceiver
      exact obeys_bind (obeys_substitute h.linked hid hnew .keep) fun _ _ ht => obeys_pure ht
    · exact obeys_bind (obeys_forward h hid ⟨op, hop, hcontrol⟩ hresult hreceiver)
        fun _ _ ht => obeys_pure ht

theorem obeys_remove_address {read : Operator} {t : TypeId} {g₁ : Graph} (h : Ready c g)
    (hid : id ∈ g.attached) (hop : g.op id = some op) (hcontrol : op.isControl = false)
    (haddress : ∀ t, op.kind ≠ .loadIndirect t) (hread : g.op load = some read)
    (hkind : read.kind = .loadIndirect t) (ht : Tidies load g g₁) :
    (remove id .discard >>= fun _ => pure true : Edit Bool).Obeys g₁ fun _ g' => Tidies id g g' := by
  have hne : id ≠ load := by
    rintro rfl
    rw [Option.some.inj (hop.symm.trans hread)] at haddress
    exact haddress t hkind
  obtain ⟨op₁, hop₁, heq⟩ := ht.grows.exists_op h.linked hop
  have hcontrol₁ : op₁.isControl = false := by rwa [Operator.isControl, heq]
  refine obeys_bind (obeys_remove (ht.grows h.linked).1 (ht.spares hid hop hne haddress)
    ⟨op₁, hop₁, hcontrol₁⟩ .discard) fun _ g₂ ht₂ => obeys_pure ?_
  exact (ht.of_load hread hkind id).trans h.linked ht₂

theorem obeys_foldLocal (h : Ready c g) (hid : id ∈ g.attached)
    (haddress : ∀ op, g.op id = some op → op.kind = .addressOf) :
    (foldLocal p c id).Obeys g fun _ g' => Tidies id g g' := by
  refine obeys_query_bind (h.proper_localFold hid) fun found hfound => ?_
  rcases found with _ | fold
  · exact obeys_pure (.refl id g)
  obtain ⟨op, pointer, hop, -, hcase⟩ := localFold_spec hfound
  have hkind := haddress op hop
  have hcontrol : op.isControl = false := by simp [Operator.isControl, hkind, OpKind.isControl]
  obtain ⟨-, rfl⟩ | ⟨load, addressed, read, hload, hargs, hread, hcase⟩ := hcase
  · exact obeys_bind (obeys_remove h.linked hid ⟨op, hop, hcontrol⟩ .discard) fun _ _ ht => obeys_pure ht
  have hidload := h.mem_attached_of_loneLoad hload
  obtain ⟨-, -, read', t, -, -, -, -, hread', hkindLoad⟩ := loneLoad_spec hload
  obtain rfl : read' = read := Option.some.inj (hread'.symm.trans hread)
  have hcontrolLoad : read'.isControl = false := by
    simp [Operator.isControl, hkindLoad, OpKind.isControl]
  have hrest := fun {g₁} (ht : Tidies load g g₁) =>
    obeys_remove_address h hid hop hcontrol (by simp [hkind]) hread hkindLoad ht
  obtain ⟨-, rfl⟩ | ⟨loaded, stable, hresult, -, -, rfl⟩ := hcase
  · exact obeys_bind (obeys_remove h.linked hidload ⟨_, hread, hcontrolLoad⟩ .discard)
      fun _ _ ht => hrest ht
  · have hloaded := mem_mentioned_of_result? hidload hread hresult
    have hvalue : g.Mentions addressed := mentions_of_arg hid hop (by simp [hargs])
    exact obeys_bind (obeys_forward h hidload ⟨_, hread, hcontrolLoad⟩ hloaded hvalue)
      fun _ _ ht => hrest ht

theorem obeys_foldPlace (h : Ready c g) (hid : id ∈ g.attached) :
    (foldPlace p c id).Obeys g fun _ g' => Tidies id g g' := by
  refine obeys_query_bind (h.proper_directLoad hid) fun found hfound => ?_
  rcases found with _ | ⟨load, operator⟩
  · exact obeys_pure (.refl id g)
  obtain ⟨op, read, kind, hload, hop, hkind, -, -, hread, hcase⟩ := directLoad_spec hfound
  have hidload := h.mem_attached_of_loneLoad hload
  obtain ⟨-, -, read', t, -, -, -, -, hread', hkindLoad⟩ := loneLoad_spec hload
  obtain rfl : read' = read := Option.some.inj (hread'.symm.trans hread)
  have haddress : op.isControl = false ∧ ∀ t, op.kind ≠ .loadIndirect t := by
    unfold Operator.isControl
    cases hk : op.kind <;> simp [hk, OpKind.directLoad?] at hkind <;> simp [OpKind.isControl]
  have hrest := fun {g₁} (ht : Tidies load g g₁) =>
    obeys_remove_address h hid hop haddress.1 haddress.2 hread hkindLoad ht
  obtain ⟨-, -, rfl⟩ | ⟨-, rfl⟩ := hcase
  · have hcontrolLoad : read'.isControl = false := by
      simp [Operator.isControl, hkindLoad, OpKind.isControl]
    exact obeys_bind (obeys_remove h.linked hidload ⟨_, hread, hcontrolLoad⟩ .discard)
      fun _ _ ht => hrest ht
  · refine obeys_bind (obeys_substitute h.linked hidload ?_ .keep) fun _ _ ht => hrest ht
    intro v hv
    obtain hv | hv := List.mem_append.mp hv
    · exact mentions_of_arg hid hop (mem_reads.mp hv) v rfl
    · exact mem_mentioned_of_result hidload hread hv

end Edit

namespace Graph

variable {g g' start : Graph} {c : Chains} {test : OpKind → Bool} {id : OpId} {ids : List OpId}
  {v : VarId}

structure Batchable (g : Graph) : Prop where
  coherent : g.Coherent
  live : g.Live

theorem SameCode.mentioned (h : g.SameCode g') : g'.mentioned = g.mentioned := by
  simp only [Graph.mentioned, h.attached_eq, h.op_eq]

theorem Batchable.of_sameCode (hg : g.Batchable) (h : g.SameCode g') (hg' : g'.Coherent) :
    g'.Batchable := by
  refine ⟨hg', fun v hv => ?_⟩
  obtain ⟨info, hinfo, hd⟩ := hg.live v (h.mentioned ▸ hv)
  obtain ⟨info', hinfo', -, -, hdropped⟩ := h.var_eq_some hinfo
  exact ⟨info', hinfo', hdropped.trans hd⟩

theorem Batchable.ready (hg : g.Batchable) (hc : Exact c g) : Ready c g :=
  ⟨hg.coherent.linked, hc.tracks hg.coherent.linked, fun v hv =>
    hc.answerable hg.coherent.linked (hg.live v hv)⟩

/-- The state of a batch that has some operators of its list still to do. -/
structure Running (c : Chains) (test : OpKind → Bool) (start : Graph) (ids : List OpId)
    (g : Graph) : Prop where
  grows : start.Grows g
  ready : Ready c g
  live : g.Live
  nodup : ids.Nodup
  listed : ∀ id ∈ ids, id ∈ g.attached ∧ ∃ op, g.op id = some op ∧ test op.kind

theorem Running.next (htest : ∀ t, test (.loadIndirect t) = false)
    (h : Running c test start (id :: ids) g) (ht : Tidies id g g') :
    Running c test start ids g' := by
  obtain ⟨hnotMem, hnodup⟩ := List.nodup_cons.mp h.nodup
  refine ⟨IsTrans.trans _ _ _ h.grows ht.grows, h.ready.grows ht.grows, ht.live h.live, hnodup,
    fun x hx => ?_⟩
  obtain ⟨hattached, op, hop, htestx⟩ := h.listed x (List.mem_cons_of_mem _ hx)
  obtain ⟨op', hop', hkind⟩ := ht.grows.exists_op h.ready.linked hop
  refine ⟨ht.spares hattached hop ?_ fun t hload => ?_, op', hop', hkind ▸ htestx⟩
  · rintro rfl
    exact hnotMem hx
  · rw [hload, htest] at htestx
    cases htestx

theorem running_start (hg : g.Batchable) (hc : Exact c g) :
    Running c test g (g.attachedWhere test) g where
  grows := Std.Refl.refl g
  ready := hg.ready hc
  live := hg.live
  nodup := hg.coherent.linked.nodup_attached.filter _
  listed id hid := by
    obtain ⟨hattached, htest⟩ := List.mem_filter.mp hid
    exact ⟨hattached, (Option.any_eq_true _ _).mp htest⟩

theorem Running.batchable (h : Running c test start ids g) (hstart : start.Batchable) :
    g.Batchable := ⟨h.grows.steady hstart.coherent, h.live⟩

/-- No edit of a batch refreshes the chains. -/
theorem Running.checkCheckpoint (h : Running c test start ids g) (hstart : start.Batchable)
    (hcheckpoint : start.cache.checkpoint = some start.cache.refreshes) :
    g.checkCheckpoint = .ok () := by
  obtain ⟨-, hext⟩ := h.grows hstart.coherent.linked
  unfold Graph.checkCheckpoint
  rw [hext.checkpoint, hcheckpoint, hext.refreshes]
  exact if_pos rfl

end Graph

namespace Edit

open ScalarLowering.Graph

variable {g g' : Graph} {p : Pool} {c : Chains} {id : OpId} {op : Operator} {v : VarId}

theorem obeys_snapshot (hg : g.Batchable) :
    snapshot.Obeys g fun c g' => Exact c g' ∧ g'.Batchable where
  ok h := by
    obtain ⟨hexact, hg', hcode⟩ := snapshot_spec hg.coherent h
    exact ⟨hexact, hg.of_sameCode hcode hg'⟩
  error h := by
    unfold snapshot at h
    split at h
    · cases h
    · split at h <;> cases h
      rfl

/-- A batch of edits at the operators of some kinds, none of which is a load through a pointer. -/
theorem obeys_batch {edit : Chains → OpId → Edit Bool} {test : OpKind → Bool}
    (htest : ∀ t, test (.loadIndirect t) = false)
    (hedit : ∀ {g c id op}, Ready c g → id ∈ g.attached → g.op id = some op → test op.kind →
      (edit c id).Obeys g fun _ g' => Tidies id g g') (hg : g.Batchable) :
    (batch fun c => do sweep (edit c) (← query fun g => .ok (g.attachedWhere test))).Obeys g
      fun _ g' => g'.Batchable := by
  refine obeys_bind (obeys_snapshot hg) fun c g₁ ⟨hexact, hg₁⟩ => ?_
  refine obeys_bind (obeys_modify (Q := fun _ g' => Exact c g' ∧ g'.Batchable ∧
    g'.cache.checkpoint = some g'.cache.refreshes) ?_) fun _ g₂ ⟨hexact, hg₂, hcheckpoint⟩ => ?_
  · exact ⟨hexact.of_sameScans ⟨rfl, rfl, rfl, rfl⟩,
      hg₁.of_sameCode ⟨rfl, rfl, rfl, fun _ => rfl⟩ (Move.checkpoint.steady hg₁.coherent), rfl⟩
  have hsweep : (do sweep (edit c) (← query fun g => .ok (g.attachedWhere test))).Obeys g₂
      fun _ g' => Running c test g₂ [] g' := by
    refine obeys_query_bind (proper_pure _) fun ids hids => ?_
    obtain rfl := Except.ok.inj hids
    refine obeys_sweep (R := Running c test g₂) (fun {id ids g} h => ?_) (running_start hg₂ hexact)
    obtain ⟨hid, op, hop, htestop⟩ := h.listed id List.mem_cons_self
    exact (hedit h.ready hid hop htestop).mono fun _ g' ht => h.next htest ht
  refine obeys_bind hsweep fun count g₃ h => ?_
  exact obeys_query_bind (proper_of_eq_ok (h.checkCheckpoint hg₂ hcheckpoint)) fun _ _ =>
    obeys_pure (h.batchable hg₂)

end Edit

namespace Graph

variable {g g' : Graph} {c : Chains} {id : OpId} {v : VarId}

/-- The state of a round of elimination: every live variable can be looked up. -/
structure Round (c : Chains) (g : Graph) : Prop extends Batchable g where
  answerable : ∀ v, g.LiveVar v → g.Answerable c v

theorem Round.erased (h : Round c g) (hs : g.Spliced g' id []) (ht : Tidies id g g') :
    Round c g' := by
  have hvar : ∀ v, g'.var v = g.var v := fun v => by simp [var, hs.vars]
  refine ⟨⟨ht.grows.steady h.coherent, ht.live h.live⟩, fun v hv => ?_⟩
  obtain ⟨info, hinfo, hd⟩ := hv
  exact (ht.grows h.coherent.linked).2.answerable (h.answerable v ⟨info, hvar v ▸ hinfo, hd⟩)

theorem Round.stripResult (h : Round c g) (id : OpId) (v : VarId) : Round c (g.stripResult id v) := by
  refine ⟨⟨steady_stripResult id v h.coherent, fun w hw => ?_⟩, fun w hw => ?_⟩
  · obtain ⟨x, hx, op', hop', hw⟩ := mem_mentioned.mp hw
    have hx : x ∈ g.attached := hx
    obtain ⟨op, -, hop, -⟩ := h.coherent.linked.exists_op_of_mem hx
    refine h.live w (mem_mentioned.mpr ⟨x, hx, op, hop, ?_⟩)
    simp only [Graph.stripResult, op_bump, op_modifyOp, hop] at hop'
    split at hop'
    · obtain rfl : op.withoutResult v = op' := Option.some.inj hop'
      obtain hw | hw := List.mem_append.mp hw
      · exact List.mem_append_left _ hw
      · exact List.mem_append_right _ (List.mem_filter.mp hw).1
    · exact Option.some.inj hop' ▸ hw
  · exact (h.answerable w hw).of_chainIndex (by simp [Graph.stripResult]) (fun hi => hi) fun ht => ht

theorem Round.proper_allUnread (h : Round c g) {vs : List VarId} (hvs : ∀ v ∈ vs, g.LiveVar v) :
    Proper (g.allUnread c vs) := by
  induction vs with
  | nil => exact proper_pure true
  | cons v vs ih =>
    refine proper_bind (proper_of_eq_ok (h.answerable v (hvs v List.mem_cons_self)).uses.choose_spec)
      fun uses _ => ?_
    split
    · exact ih fun w hw => hvs w (List.mem_cons_of_mem _ hw)
    · exact proper_pure false

end Graph

namespace Edit

open ScalarLowering.Graph

variable {g g' : Graph} {p : Pool} {c : Chains} {id : OpId} {op : Operator} {v : VarId}

theorem obeys_dropDefinition (h : Round c g) :
    (dropDefinition c v id).Obeys g fun _ g' => Round c g' := by
  refine obeys_query_bind (proper_lift _) fun op hop => ?_
  have hop : g.op id = some op := Error.lift_eq_ok.mp hop
  have hlinked := h.coherent.linked
  have hrest : ∀ unread : Bool, id ∈ g.attached → (unread → op.isPure) → (if unread then do
      let _ ← remove id .discard
      return true
    else do
      modify (·.stripResult id v)
      return true : Edit Bool).Obeys g fun _ g' => Round c g' := by
    intro unread hid hpure
    split
    · rename_i hunread
      have hremove := obeys_remove hlinked hid ⟨op, hop, isControl_of_isPure (hpure hunread)⟩ .discard
      refine obeys_bind hremove.self fun left g₁ hok => obeys_pure ?_
      exact h.erased (remove_discard_spec hlinked hok).1 (hremove.ok hok)
    · refine obeys_bind (obeys_modify (Q := fun _ g' => Round c g') (h.stripResult id v)) ?_
      exact fun _ _ h => obeys_pure h
  dsimp only
  split
  · exact obeys_pure h
  · rename_i hatt
    have hid : id ∈ g.attached := hlinked.mem_attached.mpr (by simpa [isAttached, hop] using hatt)
    split
    · rename_i hpure
      refine obeys_query_bind (h.proper_allUnread fun w hw => ?_) fun unread _ =>
        hrest unread hid fun _ => hpure
      exact h.live w (mem_mentioned_of_result hid hop hw)
    · refine obeys_bind (P := fun b g' => b = false ∧ g' = g) (obeys_pure ⟨rfl, rfl⟩) ?_
      rintro _ _ ⟨rfl, rfl⟩
      exact hrest false hid (by simp)

theorem obeys_dropDefinitions (h : Round c g) :
    (dropDefinitions c v).Obeys g fun _ g' => Round c g' := by
  refine obeys_query_bind (proper_lift _) fun info hinfo => ?_
  have hinfo : g.var v = some info := Error.lift_eq_ok.mp hinfo
  split
  · exact obeys_pure h
  rename_i hcond
  have hlive : info.dropped = false := by
    simp only [Bool.or_eq_true, not_or, Bool.not_eq_true] at hcond
    exact hcond.2
  obtain ⟨⟨defs, hdefs⟩, ⟨uses, huses⟩⟩ := h.answerable v ⟨info, hinfo, hlive⟩
  refine obeys_query_bind (proper_of_eq_ok huses) fun uses _ => ?_
  split
  · exact obeys_pure h
  refine obeys_query_bind (proper_of_eq_ok hdefs) fun defs _ => ?_
  refine obeys_bind (obeys_sweep (R := fun _ g' => Round c g') (fun h => obeys_dropDefinition h) h) ?_
  exact fun _ _ h => obeys_pure h

theorem obeys_deadRounds {n : Nat} (hg : g.Batchable) :
    (deadRounds n).Obeys g fun _ g' => g'.Batchable := by
  induction n generalizing g with
  | zero => exact obeys_pure hg
  | succ n ih =>
    refine obeys_bind (obeys_snapshot hg) fun c g₁ ⟨hexact, hg₁⟩ => ?_
    refine obeys_query_bind (proper_pure _) fun vars _ => ?_
    have hround : Round c g₁ := ⟨hg₁, fun v hv => hexact.answerable hg₁.coherent.linked hv⟩
    refine obeys_bind (obeys_sweep (R := fun _ g' => Round c g')
      (fun h => obeys_dropDefinitions h) hround) fun count g₂ h => ?_
    split
    · exact ih h.toBatchable
    · exact obeys_pure h.toBatchable

theorem obeys_eliminateDead (hg : g.Batchable) :
    eliminateDead.Obeys g fun _ g' => g'.Coherent := by
  refine obeys_query_bind (proper_pure _) fun n _ => ?_
  exact obeys_bind (obeys_deadRounds hg) fun _ _ hg₁ =>
    obeys_modifyGet (steady_dropUnmentioned hg₁.coherent)

end Edit

namespace Graph

variable {g : Graph} {id : OpId} {op : Operator}

theorem proper_forM {α : Type} {l : List α} {f : α → Except Error Unit}
    (h : ∀ a ∈ l, Proper (f a)) : Proper (l.forM f) := by
  intro e he
  obtain ⟨a, ha, he⟩ := forM_eq_error he
  exact h a ha e he

theorem proper_checkArity {kind : OpKind} {side : Side} {n : Nat} {a : Arity} :
    Proper (checkArity id kind side n a) := by
  unfold checkArity
  split
  · exact proper_pure ()
  · exact proper_throw rfl

theorem proper_checkOperator : Proper (g.checkOperator id op) := by
  have hrest : Proper (do
      checkArity id op.kind .results op.results.length op.kind.resultArity
      op.targets.forM fun b =>
        if b.index < g.blocks.size then .ok () else throw (.graph (.unknownTarget id b))
      op.mentions.forM fun v => do
        if (← g.var v).dropped then throw (.graph (.droppedVariable id v))
      op.results.forM fun v => do
        if (← g.var v).isArgument then throw (.graph (.definesArgument id v))) := by
    refine proper_bind proper_checkArity fun _ _ => proper_bind (proper_forM fun b _ => ?_) fun _ _ =>
      proper_bind (proper_forM fun v _ => proper_lift_bind fun info _ => ?_) fun _ _ =>
        proper_forM fun v _ => proper_lift_bind fun info _ => ?_
    · split
      · exact proper_pure ()
      · exact proper_throw rfl
    · split
      · exact proper_throw rfl
      · exact proper_pure ()
    · split
      · exact proper_throw rfl
      · exact proper_pure ()
  unfold checkOperator
  dsimp only
  split
  · exact proper_bind proper_checkArity fun _ _ => hrest
  · exact hrest

/-- What verification finds wrong in a graph with consistent membership is no misuse. -/
theorem proper_verify (hg : g.Linked) : Proper g.verify := by
  refine proper_forM fun b _ => proper_lift_bind fun block hb => ?_
  split
  case isFalse => exact proper_pure ()
  unfold checkBlock
  split
  case h_2 => exact proper_throw rfl
  refine proper_bind (proper_forM fun id hid => ?_) fun _ _ => proper_lift_bind fun op _ => ?_
  · refine proper_lift_bind fun op hop => ?_
    obtain ⟨op', hop', hblock⟩ := blockOf_eq_some.mp ((hg.listed hb).mp hid)
    obtain rfl : op' = op := Option.some.inj (hop'.symm.trans hop)
    simp only [hblock, ne_eq, not_true, if_false]
    split
    · exact proper_bind (proper_throw rfl) fun _ _ => proper_checkOperator
    · exact proper_checkOperator
  · split
    · exact proper_throw rfl
    · exact proper_pure ()

/-- A graph that verifies and has no code out of reach mentions live variables only. -/
theorem live_of_verify (hverify : g.verify = .ok ())
    (hunreachable : ∀ {b block}, g.block b = some block → block.reachable = false →
      block.ops = []) : g.Live := by
  intro v hv
  obtain ⟨id, hid, op, hop, hv⟩ := mem_mentioned.mp hv
  obtain ⟨b, block, hb, hid⟩ := mem_attached.mp hid
  have hr : block.reachable := by
    by_contra hr
    rw [hunreachable hb (by simpa using hr)] at hid
    cases hid
  obtain ⟨last, -, -, hlisted, -⟩ := checkBlock_eq_ok.mp (verify_eq_ok.mp hverify b block hb hr)
  obtain ⟨op', hop', -, -, hcheck⟩ := checkListed_eq_ok.mp (hlisted id hid)
  obtain rfl : op' = op := Option.some.inj (hop'.symm.trans hop)
  obtain ⟨-, -, -, hlive, -⟩ := checkOperator_eq_ok.mp hcheck
  exact hlive v hv

theorem Batchable.updateReachability (hg : g.Batchable) : g.updateReachability.2.Batchable := by
  refine ⟨grows_updateReachability.steady hg.coherent, fun v hv => ?_⟩
  obtain ⟨x, hx, op', hop', hv⟩ := mem_mentioned.mp hv
  rw [hg.coherent.linked.attached_updateReachability] at hx
  obtain ⟨hx, hkept⟩ := List.mem_filter.mp hx
  rw [op_updateReachability, if_neg (by simpa using hkept)] at hop'
  obtain ⟨info, hinfo, hd⟩ := hg.live v (mem_mentioned.mpr ⟨x, hx, op', hop', hv⟩)
  exact ⟨info, by simpa [var] using hinfo, hd⟩

end Graph

namespace Edit

open ScalarLowering.Graph

variable {g : Graph} {p : Pool} {config : Config}

theorem obeys_onlyIf {enabled : Bool} {step : Edit Nat} {Q : Graph → Prop} (hg : Q g)
    (h : step.Obeys g fun _ g' => Q g') : (onlyIf enabled step).Obeys g fun _ g' => Q g' := by
  unfold onlyIf
  split
  · exact h
  · exact obeys_pure hg

theorem obeys_lowerWrappers (hg : g.Batchable) :
    (lowerWrappers p config).Obeys g fun _ g' => g'.Batchable := by
  refine obeys_bind (obeys_onlyIf hg (obeys_batch (fun _ => rfl)
    (fun h hid _ _ => obeys_lowerConstructor h hid) hg)) fun _ g₁ hg₁ => ?_
  refine obeys_bind (obeys_onlyIf hg₁ (obeys_batch (fun _ => rfl)
    (fun h hid _ _ => obeys_lowerEquality h hid) hg₁)) fun _ g₂ hg₂ => ?_
  refine obeys_bind (obeys_onlyIf hg₂ (obeys_batch (fun _ => rfl)
    (fun h hid _ _ => obeys_lowerFieldLoad h hid) hg₂)) fun _ g₃ hg₃ => ?_
  exact obeys_bind (obeys_onlyIf hg₃ (obeys_batch (fun _ => rfl)
    (fun h hid _ _ => obeys_lowerFieldAddress h hid) hg₃)) fun _ g₄ hg₄ => obeys_pure hg₄

theorem obeys_foldRoundTrips (hg : g.Batchable) :
    (foldRoundTrips p).Obeys g fun _ g' => g'.Batchable := by
  refine obeys_bind (obeys_batch (fun _ => rfl) (fun h hid hop hkind =>
    obeys_foldLocal h hid fun op' hop' => ?_) hg) fun _ g₁ hg₁ => ?_
  · rw [← Option.some.inj (hop.symm.trans hop')]
    exact of_decide_eq_true hkind
  refine obeys_bind (obeys_batch (fun _ => rfl) (fun h hid _ _ => obeys_foldPlace h hid) hg₁)
    fun _ g₂ hg₂ => ?_
  exact obeys_bind (obeys_batch (fun _ => rfl) (fun h hid _ _ => obeys_foldPlace h hid) hg₂)
    fun _ g₃ hg₃ => obeys_pure hg₃

theorem obeys_cleanUp {stats : Stats} (hg : g.Batchable) :
    (cleanUp p config stats).Obeys g fun _ g' => g'.Coherent := by
  refine obeys_bind (obeys_modifyGet (Q := fun _ g' => g'.Batchable) hg.updateReachability)
    fun _ g₁ hg₁ => ?_
  refine obeys_bind (obeys_onlyIf hg₁ (obeys_foldRoundTrips hg₁)) fun _ g₂ hg₂ => ?_
  exact obeys_bind (obeys_onlyIf hg₂.coherent (obeys_eliminateDead hg₂)) fun _ g₃ hg₃ => obeys_pure hg₃

theorem obeys_lower (hg : g.Batchable) : (lower p config).Obeys g fun _ g' => g'.Coherent := by
  refine obeys_bind (obeys_lowerWrappers hg) fun stats g₁ hg₁ => ?_
  have hrest : ∀ (stats : Stats) (g₂ : Graph), g₂.Coherent → (if config.verify then do
      query (·.verify)
      return stats
    else return stats : Edit Stats).Obeys g₂ fun _ g' => g'.Coherent := by
    intro stats g₂ hg₂
    split
    · exact obeys_query_bind (proper_verify hg₂.linked) fun _ _ => obeys_pure hg₂
    · exact obeys_pure hg₂
  dsimp only
  split
  · exact obeys_bind (obeys_cleanUp hg₁) hrest
  · exact obeys_bind (obeys_pure hg₁.coherent) hrest

end Edit

/-- The lowering of a graph that verifies and has no code out of reach never uses a snapshot or
an edit against its rules. -/
theorem batches_disciplined {g : Graph} (p : Pool) (config : Config) (hg : g.Built)
    (hverify : g.verify = .ok ())
    (hunreachable : ∀ {b block}, g.block b = some block → block.reachable = false →
      block.ops = []) :
    (∀ e g', Edit.lower p config g ≠ .error (.chain e) g') ∧
    (∀ id g', Edit.lower p config g ≠ .error (.graph (.detached id)) g') ∧
    (∀ id g', Edit.lower p config g ≠ .error (.graph (.removesTerminator id)) g') ∧
    (∀ id b recorded g', Edit.lower p config g ≠ .error (.graph (.membership id b recorded)) g') := by
  have hobeys : (Edit.lower p config).Obeys g fun _ g' => g'.Coherent :=
    Edit.obeys_lower ⟨hg.coherent, Graph.live_of_verify hverify hunreachable⟩
  refine ⟨fun e g' h => ?_, fun id g' h => ?_, fun id g' h => ?_, fun id b recorded g' h => ?_⟩
  · cases hobeys.error h
  · cases hobeys.error h
  · cases hobeys.error h
  · cases hobeys.error h

theorem batches_disciplined_staticRead :
    (∀ e g', Edit.lower poolWithStatic {} (staticRead ⟨3⟩) ≠ .error (.chain e) g') ∧
    ∀ id g', Edit.lower poolWithStatic {} (staticRead ⟨3⟩) ≠ .error (.graph (.detached id)) g' := by
  have hreachable : ∀ block ∈ (staticRead ⟨3⟩).blocks, block.reachable := by decide
  obtain ⟨hchain, hdetached, -⟩ := batches_disciplined poolWithStatic {} (built_staticRead ⟨3⟩)
    (by decide) fun hb hr => absurd (hreachable _ (Array.mem_of_getElem? hb)) (by simp [hr])
  exact ⟨hchain, hdetached⟩

end ScalarLowering
