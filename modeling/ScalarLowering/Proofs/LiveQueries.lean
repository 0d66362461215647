import ScalarLowering.Proofs.Coherent

/-! Live queries on a stale snapshot. However a graph was built, and whatever changes are
made after a snapshot of it was taken, the live queries give what a plain scan gives. -/

namespace ScalarLowering

inductive Change
  | addVar (kind : VarKind) (type : TypeId)
  | addBlock
  | append (block : BlockId) (op : Operator)
  | substitute (old : OpId) (new : Operator) (policy : Policy)
  | redirect (id : OpId) (v : VarId) (e : Expr)
  | remove (id : OpId) (policy : Policy)
  | insertBefore (anchor : OpId) (new : Operator)
  | redirectAll (c : Chains) (v : VarId) (e : Expr)
  | updateReachability

/-- The graph after a change, failed or not. -/
def Change.apply : Change → Graph → Graph
  | .addVar kind t, g => (g.addVar kind t).2
  | .addBlock, g => g.addBlock.2
  | .append b op, g => (g.append b op).elim g (·.2)
  | .substitute old new policy, g => (Edit.substitute old new policy).after g
  | .redirect id v e, g => (Edit.redirect id v e).after g
  | .remove id policy, g => (Edit.remove id policy).after g
  | .insertBefore anchor new, g => (Edit.insertBefore anchor new).after g
  | .redirectAll c v e, g => (Edit.redirectAll c v e).after g
  | .updateReachability, g => g.updateReachability.2

def Multiplicity.Counts : Multiplicity → List OpId → Prop
  | .none, ids => ids = []
  | .one id, ids => ids = [id]
  | .many n, ids => ids.length = n ∧ 2 ≤ n

theorem Multiplicity.counts_ofList (ids : List OpId) : (ofList ids).Counts ids := by
  match ids with
  | [] => rfl
  | [_] => rfl
  | _ :: _ :: _ => simp [ofList, Counts]

namespace Graph

variable {g g' : Graph} {c : Chains} {v : VarId}

def changed (g : Graph) (changes : List Change) : Graph := changes.foldl (fun g c => c.apply g) g

/-- The graphs that the operations on graphs can build. -/
inductive Built : Graph → Prop
  | empty (name : String) : Built (empty name)
  | change {g : Graph} (change : Change) : Built g → Built (change.apply g)
  | snapshot {g : Graph} : Built g → Built (Edit.snapshot.after g)
  | setCheckpoint {g : Graph} : Built g → Built (Edit.setCheckpoint.after g)
  | eliminateDead {g : Graph} : Built g → Built (Edit.eliminateDead.after g)
  | lower {g : Graph} (p : Pool) (config : Config) : Built g → Built ((Edit.lower p config).after g)

theorem grows_apply (change : Change) (g : Graph) : g.Grows (change.apply g) := by
  cases change with
  | addVar kind t => exact grows_addVar kind t
  | addBlock => exact grows_addBlock
  | append b op =>
    cases h : g.append b op with
    | none =>
      simp only [Change.apply, h, Option.elim_none]
      exact Std.Refl.refl g
    | some r =>
      simp only [Change.apply, h, Option.elim_some]
      exact grows_append h
  | substitute old new policy => exact Edit.grows_substitute old new policy g
  | redirect id v e => exact Edit.grows_redirect id v e g
  | remove id policy => exact Edit.grows_remove id policy g
  | insertBefore anchor new => exact Edit.grows_insertBefore anchor new g
  | redirectAll c v e => exact Edit.grows_redirectAll c v e g
  | updateReachability => exact grows_updateReachability

theorem grows_changed (g : Graph) (changes : List Change) : g.Grows (g.changed changes) := by
  induction changes generalizing g with
  | nil => exact Std.Refl.refl g
  | cons change changes ih => exact IsTrans.trans _ _ _ (grows_apply change g) (ih _)

theorem Built.moves (hg : g.Built) : ∃ name, (Graph.empty name).Moves g := by
  induction hg with
  | empty name => exact ⟨name, Std.Refl.refl _⟩
  | change change _ ih => exact ih.imp fun _ h => h.trans (grows_apply change _).moves
  | snapshot _ ih => exact ih.imp fun _ h => h.trans (Edit.moves_snapshot _)
  | setCheckpoint _ ih => exact ih.imp fun _ h => h.trans (Edit.moves_setCheckpoint _)
  | eliminateDead _ ih => exact ih.imp fun _ h => h.trans (Edit.moves_eliminateDead _)
  | lower p config _ ih => exact ih.imp fun _ h => h.trans (Edit.moves_lower p config _)

theorem Built.coherent (hg : g.Built) : g.Coherent := by
  obtain ⟨name, h⟩ := hg.moves
  exact h.steady (coherent_empty name)

theorem Built.changed {g : Graph} (hg : g.Built) (changes : List Change) : (g.changed changes).Built := by
  induction changes generalizing g with
  | nil => exact hg
  | cons change changes ih => exact ih (hg.change change)

/-- Only variables that are mentioned before or after get touched. -/
def TouchesMentioned (g g' : Graph) : Prop :=
  g.Linked → ∀ v, g'.isTouched v → g.isTouched v ∨ v ∈ g.mentioned ∨ v ∈ g'.mentioned

instance : Std.Refl TouchesMentioned := ⟨fun _ _ _ h => .inl h⟩

theorem touchesMentioned_of_eq (h : ∀ v, g'.isTouched v = g.isTouched v) : TouchesMentioned g g' :=
  fun _ v hv => .inl (h v ▸ hv)

theorem touchesMentioned_of_new {op : Operator} {b : BlockId} {id : OpId} (hg' : g.Linked → g'.Linked)
    (hop : g'.op id = some { op with block := some b })
    (htouched : ∀ v, g'.isTouched v = (decide (v ∈ op.mentions) || g.isTouched v)) :
    TouchesMentioned g g' := by
  intro hg v hv
  rw [htouched, Bool.or_eq_true, decide_eq_true_iff] at hv
  refine hv.symm.imp_right fun hmem => .inr ?_
  have hatt : g'.isAttached id := by simp [isAttached, hop, Operator.isAttached]
  exact mem_mentioned.mpr ⟨id, (hg' hg).mem_attached.mpr hatt, _, hop, hmem⟩

theorem touchesMentioned_replaceAt {place : Place} {old : OpId} (new : Operator)
    (hp : g.placeOf old = .ok place) : TouchesMentioned g (g.replaceAt place old new).2 :=
  touchesMentioned_of_new (fun hg => hg.replaceAt new hp)
    (by rw [op_replaceAt new (lt_of_placeOf hp) ⟨g.ops.size⟩, if_pos rfl])
    fun v => by simp [replaceAt, detach]

theorem touchesMentioned_insertAt {place : Place} {anchor : OpId} {new : Operator}
    (hp : g.placeOf anchor = .ok place) : TouchesMentioned g (g.insertAt place new).2 :=
  touchesMentioned_of_new (fun hg => hg.insertAt new hp)
    (by rw [op_insertAt new ⟨g.ops.size⟩, if_pos rfl]) fun v => by simp [insertAt]

theorem touchesMentioned_substitute (old : OpId) (new : Operator) (policy : Policy) :
    (Edit.substitute old new policy).Keeps TouchesMentioned := by
  refine Edit.keeps_query_bind fun g place hp => ?_
  rw [Edit.after_query_bind]
  split
  · cases policy with
    | keep => exact touchesMentioned_replaceAt _ hp
    | discard =>
      intro hg
      have hmentioned : (g.clearPosition old).mentioned = g.mentioned := by
        refine List.flatMap_congr fun id _ => ?_
        rw [op_clearPosition]
        split <;> cases g.op id <;> rfl
      have h := touchesMentioned_replaceAt new (placeOf_clearPosition old hp)
        (hg.clearPosition old)
      rw [hmentioned] at h
      exact h
  · exact Std.Refl.refl g

theorem touchesMentioned_remove (id : OpId) (policy : Policy) :
    (Edit.remove id policy).Keeps TouchesMentioned := by
  refine Edit.keeps_query_bind fun g op _ => ?_
  by_cases hc : op.isControl
  · simp only [hc, if_true]
    exact Std.Refl.refl g
  · simp only [hc]
    cases policy with
    | keep => exact Edit.keeps_map (f := some) (touchesMentioned_substitute id .nop .keep) g
    | discard =>
      refine Edit.keeps_query_bind (fun g place _ => ?_) g
      exact touchesMentioned_of_eq fun v => by rfl

/-- Redirections put the expression for the variable at operators that read it. -/
structure Redirected (v : VarId) (e : Expr) (g g' : Graph) : Prop where
  linked : g'.Linked
  touched : ∀ w, g'.isTouched w → g.isTouched w ∨ w = v ∧ v ∈ g.mentioned ∨
    e = .var w ∧ w ∈ g'.mentioned
  before : v ∈ g'.mentioned → v ∈ g.mentioned
  after : ∀ w, e = .var w → w ∈ g.mentioned → w ∈ g'.mentioned

def Redirects (v : VarId) (e : Expr) (g g' : Graph) : Prop := g.Linked → Redirected v e g g'

instance (v : VarId) (e : Expr) : Std.Refl (Redirects v e) :=
  ⟨fun _ hg => ⟨hg, fun _ h => .inl h, fun h => h, fun _ _ h => h⟩⟩

instance (v : VarId) (e : Expr) : IsTrans Graph (Redirects v e) := by
  refine ⟨fun a b d hab hbd ha => ?_⟩
  have h₁ := hab ha
  have h₂ := hbd h₁.linked
  refine ⟨h₂.linked, fun w hw => ?_, fun h => h₁.before (h₂.before h),
    fun w hw h => h₂.after w hw (h₁.after w hw h)⟩
  obtain hw | ⟨rfl, hw⟩ | hw := h₂.touched w hw
  · obtain hw | hw | ⟨he, hw⟩ := h₁.touched w hw
    · exact .inl hw
    · exact .inr (.inl hw)
    · exact .inr (.inr ⟨he, h₂.after w he hw⟩)
  · exact .inr (.inl ⟨rfl, h₁.before hw⟩)
  · exact .inr (.inr hw)

theorem redirects_redirectAt {id : OpId} {op : Operator} {e : Expr} (hop : g.op id = some op)
    (hatt : op.isAttached) (hreads : 0 < op.occurrences v) :
    Redirects v e g (g.redirectAt id v e) := by
  intro hg
  have harg : Expr.var v ∈ op.args := List.count_pos_iff.mp hreads
  have hid : id ∈ g.attached := hg.mem_attached.mpr (by simpa [isAttached, hop] using hatt)
  have hbefore : v ∈ g.mentioned := by
    refine mem_mentioned.mpr ⟨id, hid, op, hop, ?_⟩
    simp [Operator.mentions, Operator.reads, Expr.var?_eq_some, harg]
  have hafter : ∀ w, e = .var w → w ∈ (g.redirectAt id v e).mentioned := by
    rintro w rfl
    have hattached : (g.redirectAt id v (.var w)).attached = g.attached := by
      simp [redirectAt, Expr.var?]
    refine mem_mentioned.mpr ⟨id, hattached ▸ hid, op.substitute v (.var w), ?_, ?_⟩
    · rw [op_redirectAt, if_pos rfl, hop, Option.map_some]
    · simp only [Operator.mentions, Operator.reads, Operator.substitute, List.mem_append,
        List.mem_filterMap, List.mem_map]
      exact .inl ⟨.var w, ⟨_, harg, if_pos rfl⟩, rfl⟩
  refine ⟨hg.redirectAt id v e, fun w hw => ?_, fun _ => hbefore, fun w hw _ => hafter w hw⟩
  simp only [isTouched_redirectAt, Bool.or_eq_true, decide_eq_true_iff] at hw
  obtain (hw | rfl) | hw := hw
  · exact .inr (.inr ⟨hw, hafter w hw⟩)
  · exact .inr (.inl ⟨rfl, hbefore⟩)
  · exact .inl hw

theorem redirects_redirect (id : OpId) (v : VarId) (e : Expr) :
    (Edit.redirect id v e).Keeps (Redirects v e) := by
  refine Edit.keeps_query_bind fun g op hop => ?_
  have hop : g.op id = some op := by simpa using hop
  by_cases hatt : op.isAttached
  · by_cases hreads : 0 < op.occurrences v
    · simp only [hatt, hreads, Bool.not_true, Bool.false_eq_true, if_false, if_true]
      exact redirects_redirectAt hop hatt hreads
    · simp only [hatt, hreads, Bool.not_true, Bool.false_eq_true, if_false]
      exact Std.Refl.refl g
  · simp only [hatt, Bool.not_false, if_true]
    exact Std.Refl.refl g

theorem redirects_redirectEach (v : VarId) (e : Expr) (ids : List OpId) :
    (Edit.redirectEach v e ids).Keeps (Redirects v e) := by
  induction ids with
  | nil => exact Edit.keeps_pure 0
  | cons id ids ih =>
    exact Edit.keeps_bind (redirects_redirect id v e) fun _ =>
      Edit.keeps_bind ih fun _ => Edit.keeps_pure _

theorem Redirects.touchesMentioned {e : Expr} (h : Redirects v e g g') : TouchesMentioned g g' := by
  intro hg w hw
  obtain hw | ⟨rfl, hw⟩ | ⟨-, hw⟩ := (h hg).touched w hw
  · exact .inl hw
  · exact .inr (.inl hw)
  · exact .inr (.inr hw)

theorem touchesMentioned_apply (change : Change) (g : Graph) :
    TouchesMentioned g (change.apply g) := by
  cases change with
  | addVar kind t => exact touchesMentioned_of_eq fun _ => rfl
  | addBlock => exact touchesMentioned_of_eq fun _ => rfl
  | append b op =>
    cases h : g.append b op with
    | none =>
      simp only [Change.apply, h, Option.elim_none]
      exact Std.Refl.refl g
    | some r =>
      simp only [Change.apply, h, Option.elim_some]
      have hop : r.2.op ⟨g.ops.size⟩ = some _ := (op_append h _).trans (if_pos rfl)
      refine touchesMentioned_of_new (fun hg => hg.append h) hop fun v => ?_
      obtain ⟨-, -, hr⟩ := append_eq_some.mp h
      simp [hr]
  | substitute old new policy => exact touchesMentioned_substitute old new policy g
  | redirect id v e => exact (redirects_redirect id v e g).touchesMentioned
  | remove id policy => exact touchesMentioned_remove id policy g
  | insertBefore anchor new =>
    exact Edit.keeps_query_bind (fun _ _ hp => touchesMentioned_insertAt hp) g
  | redirectAll c v e =>
    have h : (Edit.redirectAll c v e).Keeps (Redirects v e) :=
      Edit.keeps_bind (Edit.keeps_query _) fun ids => redirects_redirectEach v e ids
    exact (h g).touchesMentioned
  | updateReachability => exact touchesMentioned_of_eq fun v => by simp [isTouched, Change.apply]

/-- A variable that no operator mentions along the way is not touched. -/
theorem isTouched_changed (hg : g.Linked) (changes : List Change)
    (hv : ∀ k, v ∉ (g.changed (changes.take k)).mentioned) (h : g.isTouched v = false) :
    (g.changed changes).isTouched v = false := by
  induction changes generalizing g with
  | nil => exact h
  | cons change changes ih =>
    refine ih (grows_apply change g hg).1 (fun k => hv (k + 1)) ?_
    by_contra htouched
    obtain ht | ht | ht := touchesMentioned_apply change g hg v (by simpa using htouched)
    · simp [h] at ht
    · exact hv 0 ht
    · exact hv 1 ht

/-- The list holds the attached operators that pass a test, in block order and each once. -/
structure Lists (g : Graph) (ids : List OpId) (test : Operator → Prop) : Prop where
  mem : ∀ id, id ∈ ids ↔ g.isAttached id ∧ ∃ op, g.op id = some op ∧ test op
  ordered : ids.Sublist g.attached
  nodup : ids.Nodup

/-- The answers of the live queries about a variable. -/
structure Answers (g : Graph) (c : Chains) (v : VarId) : Prop where
  defs : ∃ ids m, g.attachedDefs c v = .ok ids ∧ g.Lists ids (v ∈ ·.results) ∧
    g.defCount c v = .ok m ∧ m.Counts ids
  uses : ∃ ids m, g.attachedUses c v = .ok ids ∧ g.Lists ids (.var v ∈ ·.args) ∧
    g.useCount c v = .ok m ∧ m.Counts ids

/-- The live queries say that the snapshot does not know the variable. -/
structure Unindexed (g : Graph) (c : Chains) (v : VarId) : Prop where
  defs : g.attachedDefs c v = .error (.chain (.unindexed v))
  uses : g.attachedUses c v = .error (.chain (.unindexed v))
  defCount : g.defCount c v = .error (.chain (.unindexed v))
  useCount : g.useCount c v = .error (.chain (.unindexed v))

theorem Linked.lists_definers (hg : g.Linked) (v : VarId) :
    g.Lists (g.definers v) (v ∈ ·.results) where
  mem id := by simp [mem_definers, hg.mem_attached, Operator.definesVar]
  ordered := List.filter_sublist
  nodup := hg.nodup_attached.filter _

theorem Linked.lists_readers (hg : g.Linked) (v : VarId) :
    g.Lists (g.readers v) (.var v ∈ ·.args) where
  mem id := by
    simp [mem_readers, hg.mem_attached, Operator.readsVar, Operator.reads, Expr.var?_eq_some]
  ordered := List.filter_sublist
  nodup := hg.nodup_attached.filter _

theorem Tracks.answers (hc : Tracks c g) (hg : g.Linked) (defs uses : List OpId)
    (hdefs : g.isTouched v = false → g.chainDefs c v = .ok defs)
    (huses : g.isTouched v = false → g.chainUses c v = .ok uses) : g.Answers c v where
  defs := by
    have h : g.attachedDefs c v = .ok (g.definers v) := liveAnswer_eq_scan hc.defs hdefs
    exact ⟨_, _, h, hg.lists_definers v, by rw [Graph.defCount, h]; rfl, Multiplicity.counts_ofList _⟩
  uses := by
    have h : g.attachedUses c v = .ok (g.readers v) := liveAnswer_eq_scan hc.uses huses
    exact ⟨_, _, h, hg.lists_readers v, by rw [Graph.useCount, h]; rfl, Multiplicity.counts_ofList _⟩

theorem unindexed_of_index {info : Variable} (hv : g.var v = some info) (hindex : info.index = none)
    (htouched : g.isTouched v = false) : g.Unindexed c v := by
  have hchain : g.chainIndex v = .error (.chain (.unindexed v)) := by
    simp only [chainIndex, hv, Error.lift_some_bind, hindex]
    rfl
  have hdefs : g.attachedDefs c v = .error (.chain (.unindexed v)) :=
    liveAnswer_eq_error htouched (by rw [Graph.chainDefs, hchain]; rfl)
  have huses : g.attachedUses c v = .error (.chain (.unindexed v)) :=
    liveAnswer_eq_error htouched (by rw [Graph.chainUses, hchain]; rfl)
  exact ⟨hdefs, huses, by rw [Graph.defCount, hdefs]; rfl, by rw [Graph.useCount, huses]; rfl⟩

/-- What mentions a variable that is new was touched for it. -/
theorem Extends.isTouched_of_mentioned (h : g.Extends g') (hg : g.Linked) (hg' : g'.Linked)
    (hknown : g.mentionsKnown) (hv : g.vars.size ≤ v.index) (hmem : v ∈ g'.mentioned) :
    g'.isTouched v := by
  obtain ⟨id, hid, op', hop', hmem⟩ := mem_mentioned.mp hmem
  by_cases hlt : id.index < g.ops.size
  · by_contra htouched
    obtain ⟨op, hop, -, hr, -, hreads⟩ := h.oldOp hlt hop'
    have hmem : v ∈ op.mentions := by
      rw [mem_mentions] at hmem ⊢
      rwa [← hreads v (by simpa using htouched), Operator.definesVar, ← hr]
    have hatt : id ∈ g.attached := hg.mem_attached.mpr (h.attached hlt (hg'.mem_attached.mp hid))
    have hall := List.all_eq_true.mp hknown id hatt
    rw [hop, Option.any_some] at hall
    have := of_decide_eq_true (List.all_eq_true.mp hall v hmem)
    omega
  · exact h.newOp (Nat.le_of_not_lt hlt) hop' hmem

/-- Live queries on a snapshot are exact after any changes that take no other. -/
theorem live_queries_exact {g : Graph} (hg : g.Built) (hknown : g.mentionsKnown) :
    ∃ c g₁, Edit.snapshot g = .ok c g₁ ∧ g.SameCode g₁ ∧
      ∀ (changes : List Change) (v : VarId) (info : Variable),
        (g₁.changed changes).var v = some info → info.dropped = false →
        (v.index < g₁.vars.size ∨ v ∈ (g₁.changed changes).mentioned →
          (g₁.changed changes).Answers c v) ∧
        (g₁.vars.size ≤ v.index → (∀ k, v ∉ (g₁.changed (changes.take k)).mentioned) →
          (g₁.changed changes).Unindexed c v) := by
  obtain ⟨c, g₁, hsnapshot⟩ := Edit.exists_snapshot hknown
  obtain ⟨hexact, hg₁, hcode⟩ := Edit.snapshot_spec hg.coherent hsnapshot
  refine ⟨c, g₁, hsnapshot, hcode, fun changes v info hv hlive => ?_⟩
  obtain ⟨hlinked, hext⟩ := grows_changed g₁ changes hg₁.linked
  have htracks := (hexact.tracks hg₁.linked).extends hext hlinked
  refine ⟨fun hcase => ?_, fun hnew hnever => ?_⟩
  · by_cases hold : v.index < g₁.vars.size
    · have hv₁ : g₁.var v = some info := hext.var hold ▸ hv
      have hindex : (g₁.changed changes).chainIndex v = g₁.chainIndex v := by
        simp only [chainIndex, hv, hv₁]
      refine htracks.answers hlinked (g₁.definers v) (g₁.readers v) (fun _ => ?_) fun _ => ?_
      · rw [chainDefs, hindex]
        exact hexact.defs hv₁ hlive
      · rw [chainUses, hindex]
        exact hexact.uses hv₁ hlive
    · have htouched := hext.isTouched_of_mentioned hg₁.linked hlinked
        (hcode.mentionsKnown.trans hknown) (Nat.le_of_not_lt hold) (hcase.resolve_left hold)
      exact htracks.answers hlinked [] [] (by simp [htouched]) (by simp [htouched])
  · exact unindexed_of_index hv (hext.newVar hnew hv).1
      (isTouched_changed hg₁.linked changes hnever (hexact.untouched v))

def sampleProgram : List Change :=
  [.addVar .local (.ofScalar .i32), .append ⟨0⟩ (.copy ⟨0⟩ (.const (.int (.ofScalar .i32) 1))),
    .append ⟨0⟩ (.ret (some (.var ⟨0⟩)))]

/-- Copies the local once more before it is returned, and makes a variable for later. -/
def sampleChanges : List Change :=
  [.addVar .temporary (.ofScalar .i32), .insertBefore ⟨1⟩ (.copy ⟨1⟩ (.var ⟨0⟩)),
    .redirect ⟨1⟩ ⟨0⟩ (.var ⟨1⟩), .remove ⟨0⟩ .discard, .addVar .temporary (.ofScalar .i32)]

theorem live_queries_exact_after_copy : ∃ c g₁,
    Edit.snapshot ((empty "f").changed sampleProgram) = .ok c g₁ ∧
      (g₁.changed sampleChanges).Answers c ⟨0⟩ ∧ (g₁.changed sampleChanges).Answers c ⟨1⟩ ∧
      (g₁.changed sampleChanges).Unindexed c ⟨2⟩ := by
  obtain ⟨c, g₁, hs, -, h⟩ :=
    live_queries_exact ((Built.empty "f").changed sampleProgram) (by decide)
  obtain rfl : Edit.snapshot.after ((empty "f").changed sampleProgram) = g₁ := Edit.after_of_ok hs
  refine ⟨c, _, hs, (h _ _ _ rfl (by decide)).1 (by decide), (h _ _ _ rfl (by decide)).1 (by decide),
    (h _ _ _ rfl (by decide)).2 (by decide) fun k => ?_⟩
  by_cases hk : k < sampleChanges.length
  · exact (by decide : ∀ k < sampleChanges.length, (⟨2⟩ : VarId) ∉ ((Edit.snapshot.after
      ((empty "f").changed sampleProgram)).changed (sampleChanges.take k)).mentioned) k hk
  · rw [List.take_of_length_le (Nat.le_of_not_lt hk)]
    decide
end Graph
end ScalarLowering
