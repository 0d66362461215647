import ScalarLowering.Proofs.Batches

/-! The elimination of dead variables reaches a fixed point. A round visits every variable with one
snapshot. Taking a definition away spoils the chain of that variable only, so the variables still
to come are seen as they are. Every round that changes something makes the code smaller; one that
changes nothing has seen that every variable with a definition is read. -/

namespace ScalarLowering
namespace Edit

variable {α β : Type} {g g' : Graph} {P Q : α → Graph → Prop} {S : β → Graph → Prop}

def Ensures (e : Edit α) (g : Graph) (Q : α → Graph → Prop) : Prop :=
  ∃ a g', e g = .ok a g' ∧ Q a g'

theorem bind_of_ok {x : Edit α} {f : α → Edit β} {a : α} (h : x g = .ok a g') :
    (x >>= f) g = f a g' := by
  change EStateM.bind x f g = f a g'
  rw [EStateM.bind, h]

theorem ensures_pure {a : α} (h : Q a g) : (pure a : Edit α).Ensures g Q := ⟨a, g, rfl, h⟩

theorem ensures_bind {x : Edit α} {f : α → Edit β} (hx : x.Ensures g P)
    (hf : ∀ a g', P a g' → (f a).Ensures g' S) : (x >>= f).Ensures g S := by
  obtain ⟨a, g₁, ha, hP⟩ := hx
  obtain ⟨b, g₂, hb, hS⟩ := hf a g₁ hP
  exact ⟨b, g₂, bind_eq_ok.mpr ⟨a, g₁, ha, hb⟩, hS⟩

theorem ensures_query_bind {f : Graph → Except Error α} {k : α → Edit β} {a : α} (ha : f g = .ok a)
    (hk : (k a).Ensures g S) : (query f >>= k).Ensures g S :=
  ensures_bind (P := fun b g' => b = a ∧ g' = g) ⟨a, g, query_eq_ok.mpr ⟨ha, rfl⟩, rfl, rfl⟩
    fun _ _ h => h.1 ▸ h.2 ▸ hk

/-- A sweep whose edits make the graph smaller, or leave it as it is where there is nothing to do.
What is left of the list is in the invariant. -/
theorem ensures_sweep {edit : α → Edit Bool} (R : List α → Graph → Prop) (size : Graph → Nat)
    (Idle : α → Graph → Prop)
    (h : ∀ {a as g}, R (a :: as) g → (edit a).Ensures g fun done g' => R as g' ∧
      if done then size g' < size g ∧ ¬ Idle a g else g' = g ∧ Idle a g)
    {as : List α} (hg : R as g) :
    (sweep edit as).Ensures g fun n g' => R [] g' ∧ size g' + n ≤ size g ∧
      (n = 0 → g' = g) ∧ (n = 0 ↔ ∀ a ∈ as, Idle a g) := by
  induction as generalizing g with
  | nil => exact ensures_pure ⟨hg, by simp⟩
  | cons a as ih =>
    refine ensures_bind (h hg) fun done g₁ hedit => ?_
    obtain ⟨hg₁, hdone⟩ := hedit
    refine ensures_bind (ih hg₁) fun n g₂ hrest => ensures_pure ?_
    obtain ⟨hg₂, hsize, heq, hidle⟩ := hrest
    cases done with
    | true =>
      obtain ⟨hlt, hbusy⟩ := hdone
      refine ⟨hg₂, ?_, ?_, ?_⟩
      · simp only [Bool.toNat_true]
        omega
      · simp
      · simp [hbusy]
    | false =>
      obtain ⟨rfl, hbusy⟩ := hdone
      refine ⟨hg₂, ?_, ?_, ?_⟩
      · simpa using hsize
      · simpa using heq
      · simpa [hbusy] using hidle

end Edit

namespace Graph

variable {g g' : Graph} {c : Chains} {id x : OpId} {v w : VarId} {vs : List VarId}

def weight (g : Graph) (id : OpId) : Nat := 1 + (g.op id).elim 0 (·.results.length)

def total (f : OpId → Nat) (l : List OpId) : Nat := l.foldr (fun x rest => f x + rest) 0

@[simp] theorem total_cons (f : OpId → Nat) (x : OpId) (l : List OpId) :
    total f (x :: l) = f x + total f l := rfl

theorem removable_eq_total (g : Graph) : g.removable = total g.weight g.attached := rfl

/-- Of two lists of positive weights, one is less if it leaves something out or weighs less
somewhere. -/
theorem total_of_sublist {l l' : List OpId} {f f' : OpId → Nat} (hsub : l'.Sublist l)
    (hpos : ∀ x, 0 < f x) (hle : ∀ x ∈ l', f' x ≤ f x) :
    total f' l' ≤ total f l ∧ ∀ x ∈ l, x ∉ l' ∨ f' x < f x → total f' l' < total f l := by
  induction hsub with
  | slnil => simp [total]
  | cons a _ ih =>
    obtain ⟨hweak, -⟩ := ih hle
    have ha := hpos a
    simp only [total_cons]
    exact ⟨by omega, fun _ _ _ => by omega⟩
  | cons_cons a _ ih =>
    obtain ⟨hweak, hstrict⟩ := ih fun x hx => hle x (List.mem_cons_of_mem a hx)
    have ha := hle a List.mem_cons_self
    simp only [total_cons]
    refine ⟨by omega, fun x hx hless => ?_⟩
    obtain rfl | hx := List.mem_cons.mp hx
    · have hlt := hless.resolve_left fun h => h List.mem_cons_self
      omega
    · have hlt := hstrict x hx (hless.imp_left fun h hmem => h (List.mem_cons_of_mem a hmem))
      omega

theorem removable_lt (hsub : g'.attached.Sublist g.attached)
    (hle : ∀ x ∈ g'.attached, g'.weight x ≤ g.weight x) (hid : id ∈ g.attached)
    (hless : id ∉ g'.attached ∨ g'.weight id < g.weight id) : g'.removable < g.removable := by
  rw [removable_eq_total, removable_eq_total]
  exact (total_of_sublist hsub (fun x => Nat.lt_add_right _ Nat.one_pos) hle).2 id hid hless

/-- One definition of a variable goes, with its operator or from the results of it. -/
inductive Undefines (g : Graph) (v : VarId) (id : OpId) : Graph → Prop
  | erased {g' : Graph} (spliced : g.Spliced g' id []) : g.Undefines v id g'
  | stripped : g.Undefines v id (g.stripResult id v)

theorem Undefines.vars (h : g.Undefines v id g') : g'.vars = g.vars := by
  cases h with
  | erased hs => exact hs.vars
  | stripped => simp [Graph.stripResult]

theorem op_stripResult (x : OpId) : (g.stripResult id v).op x =
    if x = id then (g.op x).map (·.withoutResult v) else g.op x := by
  simp [stripResult, op_modifyOp]

theorem isAttached_stripResult : (g.stripResult id v).isAttached = g.isAttached := by
  funext x
  rw [isAttached, op_stripResult, isAttached]
  split
  · cases g.op x <;> rfl
  · rfl

theorem flatMap_splice_nil (l : List OpId) : l.flatMap (splice id []) = l.filter (· ≠ id) := by
  induction l with
  | nil => rfl
  | cons x l ih =>
    by_cases hx : x = id
    · subst hx
      simp [splice_self, ih]
    · simp [splice_of_ne _ hx, hx, ih]

theorem Undefines.attached_sublist (h : g.Undefines v id g') : g'.attached.Sublist g.attached := by
  cases h with
  | erased hs =>
    rw [attached_of_blocks hs.block, flatMap_splice_nil]
    exact List.filter_sublist
  | stripped => exact List.Sublist.refl _

theorem Undefines.op_of_ne (hg : g.Linked) (h : g.Undefines v id g') (hx : x ∈ g.attached)
    (hne : x ≠ id) : x ∈ g'.attached ∧ g'.op x = g.op x := by
  cases h with
  | erased hs => exact ⟨hs.mem_attached.mpr (.inr ⟨hne, hx⟩), hs.op (.inl hne) (hg.lt_of_mem hx)⟩
  | stripped => exact ⟨hx, by rw [op_stripResult, if_neg hne]⟩

theorem Undefines.removable_lt (hg : g.Linked) (h : g.Undefines v id g')
    (hid : id ∈ g.definers v) : g'.removable < g.removable := by
  obtain ⟨hattached, op, hop, hdef⟩ := mem_definers.mp hid
  have hweight : ∀ x ∈ g'.attached, x ≠ id → g'.weight x ≤ g.weight x := by
    intro x hx hne
    simp [weight, (h.op_of_ne hg (h.attached_sublist.subset hx) hne).2]
  have hsub := h.attached_sublist
  cases h with
  | erased hs =>
    have hgone : id ∉ g'.attached := fun hmem => by simpa using hs.mem_attached.mp hmem
    refine Graph.removable_lt hsub (fun x hx => hweight x hx ?_) hattached
      (.inl hgone)
    rintro rfl
    exact hgone hx
  | stripped =>
    have hless : (g.stripResult id v).weight id < g.weight id := by
      have hshort : (op.results.filter (· ≠ v)).length < op.results.length :=
        List.length_filter_lt_length_iff_exists.mpr ⟨v, by simpa [Operator.definesVar] using hdef, by simp⟩
      simpa [weight, op_stripResult, hop, Operator.withoutResult] using hshort
    refine Graph.removable_lt hsub (fun x hx => ?_) hattached (.inr hless)
    by_cases hxid : x = id
    · subst hxid
      exact Nat.le_of_lt hless
    · exact hweight x hx hxid

theorem Undefines.readers_eq_nil (hg : g.Linked) (h : g.Undefines v id g') (hw : g.readers w = []) :
    g'.readers w = [] := by
  cases h with
  | erased hs => exact Edit.readers_of_erased hg hs hw
  | stripped => rwa [Edit.readers_stripResult hg]

theorem definers_stripResult (hg : g.Linked) (hne : w ≠ v) :
    (g.stripResult id v).definers w = g.definers w := by
  refine List.filter_congr fun x hx => ?_
  obtain ⟨op, b, hop, -⟩ := hg.exists_op_of_mem hx
  rw [op_stripResult, hop]
  split
  · simp [Operator.definesVar, Operator.withoutResult, hne]
  · rfl

theorem TracksDefs.stripResult (hg : g.Linked) (hc : TracksDefs c g w) (hne : w ≠ v) :
    TracksDefs c (g.stripResult id v) w := by
  refine ⟨fun {ids} hw hids => ?_⟩
  obtain ⟨hlt, hscan⟩ := hc.scan hw hids
  rw [isAttached_stripResult, definers_stripResult hg hne]
  exact ⟨fun x hx => by simpa [Graph.stripResult] using hlt x hx, hscan⟩

/-- The state of a round with the variables `vs` to come: their definitions are tracked, and the
readers of all variables are. -/
structure Sweeping (c : Chains) (vs : List VarId) (g : Graph) : Prop extends Round c g where
  uses : TracksUses c g
  nodup : vs.Nodup
  defs : ∀ w ∈ vs, TracksDefs c g w

theorem Sweeping.undefines (h : Sweeping c vs g) (hv : v ∉ vs) (hu : g.Undefines v id g') :
    Sweeping c vs g' := by
  have hg := h.coherent.linked
  cases hu with
  | erased hs =>
    obtain ⟨hg', hext⟩ := hs.grows hg
    exact ⟨h.toRound.erased hs (tidies_spliced hg hs (.inl rfl) (by simp)), h.uses.extends hext hg',
      h.nodup, fun w hw => (h.defs w hw).extends hext hg'⟩
  | stripped =>
    refine ⟨h.toRound.stripResult id v, Edit.tracksUses_stripResult hg h.uses id v, h.nodup,
      fun w hw => (h.defs w hw).stripResult hg ?_⟩
    rintro rfl
    exact hv hw

/-- The same while the definitions `ids` of an unread variable are taken away. -/
structure Undefining (c : Chains) (vs : List VarId) (v : VarId) (ids : List OpId) (g : Graph) :
    Prop extends Sweeping c vs g where
  visited : v ∉ vs
  unread : g.readers v = []
  distinct : ids.Nodup
  listed : ∀ id ∈ ids, id ∈ g.definers v

theorem Undefining.next {ids : List OpId} (h : Undefining c vs v (id :: ids) g)
    (hu : g.Undefines v id g') : Undefining c vs v ids g' := by
  have hg := h.coherent.linked
  obtain ⟨hnotMem, hdistinct⟩ := List.nodup_cons.mp h.distinct
  refine ⟨h.toSweeping.undefines h.visited hu, h.visited, hu.readers_eq_nil hg h.unread, hdistinct,
    fun x hx => ?_⟩
  obtain ⟨hattached, op, hop, hdef⟩ := mem_definers.mp (h.listed x (List.mem_cons_of_mem _ hx))
  have hne : x ≠ id := by
    rintro rfl
    exact hnotMem hx
  obtain ⟨hattached', hop'⟩ := hu.op_of_ne hg hattached hne
  exact mem_definers.mpr ⟨hattached', op, hop'.trans hop, hdef⟩

/-- There is no definition to take away: the variable is an argument, dropped, read or undefined. -/
def Idle (g : Graph) (v : VarId) : Prop :=
  ∀ info, g.var v = some info → info.isArgument = false → info.dropped = false →
    g.readers v = [] → g.definers v = []

theorem Round.exists_allUnread (h : Round c g) {vs : List VarId} (hvs : ∀ v ∈ vs, g.LiveVar v) :
    ∃ unread, g.allUnread c vs = .ok unread := by
  induction vs with
  | nil => exact ⟨true, rfl⟩
  | cons v vs ih =>
    obtain ⟨uses, huses⟩ := (h.answerable v (hvs v List.mem_cons_self)).uses
    obtain ⟨unread, hunread⟩ := ih fun w hw => hvs w (List.mem_cons_of_mem _ hw)
    cases hempty : uses.isEmpty with
    | true => exact ⟨unread, Except.bind_eq_ok.mpr ⟨uses, huses, by simpa [hempty] using hunread⟩⟩
    | false => exact ⟨false, Except.bind_eq_ok.mpr ⟨uses, huses, by simp [hempty]⟩⟩

end Graph

namespace Edit

open ScalarLowering.Graph

variable {g g' : Graph} {c : Chains} {id : OpId} {op : Operator} {v : VarId} {vs : List VarId}

theorem ensures_remove_discard (hg : g.Linked) (hid : id ∈ g.attached) (hop : g.op id = some op)
    (hcontrol : op.isControl = false) :
    (remove id .discard).Ensures g fun _ g' => g.Spliced g' id [] := by
  obtain ⟨place, hplace⟩ := hg.exists_placeOf (hg.mem_attached.mp hid)
  refine ensures_query_bind (Error.lift_eq_ok.mpr hop) ?_
  simp only [hcontrol, Bool.false_eq_true, if_false]
  refine ensures_query_bind hplace ?_
  exact ⟨none, g.eraseAt place id, rfl, spliced_eraseAt hg hplace⟩

theorem ensures_dropDefinition (h : Round c g) (hid : id ∈ g.definers v) :
    (dropDefinition c v id).Ensures g fun done g' => done = true ∧ g.Undefines v id g' := by
  obtain ⟨hattached, op, hop, -⟩ := mem_definers.mp hid
  have hlinked := h.coherent.linked
  have hrest : ∀ unread : Bool, (unread → op.isPure) → (if unread then do
      let _ ← remove id .discard
      return true
    else do
      modify (·.stripResult id v)
      return true : Edit Bool).Ensures g fun done g' => done = true ∧ g.Undefines v id g' := by
    intro unread hpure
    cases unread with
    | true =>
      exact ensures_bind (ensures_remove_discard hlinked hattached hop (isControl_of_isPure (hpure rfl)))
        fun _ _ hs => ensures_pure ⟨rfl, .erased hs⟩
    | false => exact ⟨true, g.stripResult id v, rfl, rfl, .stripped⟩
  have hatt : op.isAttached := by simpa [isAttached, hop] using hlinked.mem_attached.mp hattached
  refine ensures_query_bind (Error.lift_eq_ok.mpr hop) ?_
  simp only [hatt, Bool.not_true, Bool.false_eq_true, if_false]
  cases hpure : op.isPure with
  | true =>
    have hlive : ∀ w ∈ op.results, g.LiveVar w := fun w hw =>
      h.live w (mem_mentioned_of_result hattached hop hw)
    obtain ⟨unread, hunread⟩ := h.exists_allUnread hlive
    exact ensures_query_bind hunread (hrest unread fun _ => hpure)
  | false =>
    refine ensures_bind (P := fun unread g' => unread = false ∧ g' = g) (ensures_pure ⟨rfl, rfl⟩) ?_
    rintro _ _ ⟨rfl, rfl⟩
    exact hrest false (by simp)

/-- Visiting a variable takes its definitions away exactly if there are any and nobody reads it. -/
theorem ensures_dropDefinitions {info : Variable} (h : Sweeping c (v :: vs) g)
    (hinfo : g.var v = some info) :
    (dropDefinitions c v).Ensures g fun done g' => (Sweeping c vs g' ∧ g'.vars = g.vars) ∧
      if done then g'.removable < g.removable ∧ ¬ g.Idle v else g' = g ∧ g.Idle v := by
  obtain ⟨hnotMem, hnodup⟩ := List.nodup_cons.mp h.nodup
  have hrest : Sweeping c vs g :=
    ⟨h.toRound, h.uses, hnodup, fun w hw => h.defs w (List.mem_cons_of_mem _ hw)⟩
  have hidle : g.Idle v → (pure false : Edit Bool).Ensures g fun done g' =>
      (Sweeping c vs g' ∧ g'.vars = g.vars) ∧
        if done then g'.removable < g.removable ∧ ¬ g.Idle v else g' = g ∧ g.Idle v := fun hidle =>
    ensures_pure ⟨⟨hrest, rfl⟩, rfl, hidle⟩
  refine ensures_query_bind (Error.lift_eq_ok.mpr hinfo) ?_
  split
  · rename_i hskip
    refine hidle fun info' hinfo' harg hdropped => ?_
    obtain rfl : info = info' := Option.some.inj (hinfo.symm.trans hinfo')
    simp [harg, hdropped] at hskip
  rename_i hkeep
  obtain ⟨harg, hdropped⟩ : info.isArgument = false ∧ info.dropped = false := by simpa using hkeep
  obtain ⟨⟨defs, hdefs⟩, uses, huses⟩ := h.answerable v ⟨info, hinfo, hdropped⟩
  obtain rfl := h.uses.attachedUses huses
  obtain rfl := (h.defs v List.mem_cons_self).attachedDefs hdefs
  refine ensures_query_bind huses ?_
  split
  · rename_i hread
    exact hidle fun _ _ _ _ hunread => by simp [hunread] at hread
  rename_i hunread
  have hunread : g.readers v = [] := by simpa using hunread
  refine ensures_query_bind hdefs ?_
  have hstart : Undefining c vs v (g.definers v) g :=
    ⟨hrest, hnotMem, hunread, h.coherent.linked.nodup_attached.filter _, fun _ hid => hid⟩
  refine ensures_bind (ensures_sweep (fun ids g' => Undefining c vs v ids g' ∧ g'.vars = g.vars)
    Graph.removable (fun _ _ => False) ?_ ⟨hstart, rfl⟩) fun n g' hsweep => ?_
  · rintro id ids g₁ ⟨hg₁, hvars⟩
    have hid := hg₁.listed id List.mem_cons_self
    obtain ⟨done, g₂, hok, rfl, hu⟩ := ensures_dropDefinition hg₁.toRound hid
    exact ⟨true, g₂, hok, ⟨hg₁.next hu, hu.vars.trans hvars⟩,
      hu.removable_lt hg₁.coherent.linked hid, not_false⟩
  · obtain ⟨⟨hg', hvars⟩, hsize, hsame, hzero⟩ := hsweep
    refine ensures_pure ⟨⟨hg'.toSweeping, hvars⟩, ?_⟩
    by_cases hn : n = 0
    · have hnone : g.definers v = [] := List.eq_nil_iff_forall_not_mem.mpr fun id hid => hzero.mp hn id hid
      simp only [hn, Nat.lt_irrefl, decide_false, Bool.false_eq_true, if_false]
      exact ⟨hsame hn, fun _ _ _ _ _ => hnone⟩
    · simp only [Nat.pos_of_ne_zero hn, decide_true, if_true]
      refine ⟨by omega, fun hidle => hn (hzero.mpr ?_)⟩
      simp [hidle info hinfo harg hdropped hunread]

end Edit

namespace Graph

variable {g g' : Graph} {c : Chains} {v : VarId}

theorem Batchable.mentionsKnown (hg : g.Batchable) : g.mentionsKnown := by
  refine List.all_eq_true.mpr fun id hid => ?_
  obtain ⟨op, -, hop, -⟩ := hg.coherent.linked.exists_op_of_mem hid
  rw [hop, Option.any_some]
  refine List.all_eq_true.mpr fun v hv => decide_eq_true ?_
  obtain ⟨info, hinfo, -⟩ := hg.live v (mem_mentioned.mpr ⟨id, hid, op, hop, hv⟩)
  exact var_eq_some_lt hinfo

theorem version_of_snapshot (h : Edit.snapshot g = .ok c g') : g'.version = g.version := by
  obtain ⟨-, -, rfl⟩ | ⟨-, h⟩ := Edit.snapshot_eq_ok.mp h
  · rfl
  · obtain ⟨-, rfl⟩ := refresh_eq_some.mp h
    rfl

theorem SameCode.removable (h : g.SameCode g') : g'.removable = g.removable := by
  simp only [Graph.removable, h.attached_eq, h.op_eq]

theorem SameInfo.trans {g'' : Graph} (h : g.SameInfo g') (h' : g'.SameInfo g'') : g.SameInfo g'' :=
  fun v => (h' v).trans (h v)

theorem SameInfo.of_vars_eq (h : g'.vars = g.vars) : g.SameInfo g' := fun v => by simp [var, h]

theorem SameCode.idle_iff (h : g.SameCode g') : g'.Idle v ↔ g.Idle v := by
  have hreaders : g'.readers v = g.readers v := by rw [h.readers_eq]
  have hdefiners : g'.definers v = g.definers v := by rw [h.definers_eq]
  have hmono : ∀ {g g' : Graph}, g.SameInfo g' → g'.readers v = g.readers v →
      g'.definers v = g.definers v → g'.Idle v → g.Idle v := by
    intro g g' hinfo hreaders hdefiners hidle info hv harg hdropped hunread
    obtain ⟨info', hv', hkind, -, hdropped'⟩ := hinfo.var_eq_some hv
    have harg' : info'.isArgument = false := by rw [Variable.isArgument, hkind]; exact harg
    rw [← hdefiners]
    exact hidle info' hv' harg' (hdropped'.trans hdropped) (hreaders.trans hunread)
  exact ⟨hmono h.var hreaders hdefiners,
    hmono (fun v => (h.var v).symm) hreaders.symm hdefiners.symm⟩

structure Rounded (g : Graph) (count : Nat) (g' : Graph) : Prop where
  batchable : g'.Batchable
  sameInfo : g.SameInfo g'
  smaller : g'.removable + count ≤ g.removable
  unchanged : count = 0 → g.SameCode g' ∧ g'.version = g.version
  count_eq_zero : count = 0 ↔ ∀ v, g.Idle v

end Graph

namespace Edit

open ScalarLowering.Graph

variable {g g' : Graph} {n : Nat}

theorem exists_rounded (hg : g.Batchable) : ∃ count g', Rounded g count g' ∧
    ∀ n, deadRounds (n + 1) g = if 0 < count then deadRounds n g' else .ok () g' := by
  obtain ⟨c, g₁, hsnapshot⟩ := exists_snapshot hg.mentionsKnown
  obtain ⟨hexact, hg₁, hcode⟩ := snapshot_spec hg.coherent hsnapshot
  have hbatchable := hg.of_sameCode hcode hg₁
  have htracks := hexact.tracks hg₁.linked
  have hstart : Sweeping c g₁.varIds g₁ :=
    ⟨⟨hbatchable, fun v hv => hexact.answerable hg₁.linked hv⟩, htracks.toTracksUses,
      List.nodup_range.map fun _ _ h => by simpa using h, fun w _ => htracks.tracksDefs w⟩
  have hedit : ∀ {v vs g}, (Sweeping c (v :: vs) g ∧ g.vars = g₁.vars ∧
      ∀ v' ∈ v :: vs, v'.index < g₁.vars.size) → (dropDefinitions c v).Ensures g fun done g' =>
        (Sweeping c vs g' ∧ g'.vars = g₁.vars ∧ ∀ v' ∈ vs, v'.index < g₁.vars.size) ∧
          if done then g'.removable < g.removable ∧ ¬ g.Idle v else g' = g ∧ g.Idle v := by
    rintro v vs g ⟨hg, hvars, hknown⟩
    obtain ⟨info, hinfo⟩ := exists_var (g := g) (v := v) (by rw [hvars]; exact hknown v List.mem_cons_self)
    obtain ⟨done, g', hok, ⟨hg', hvars'⟩, hdone⟩ := ensures_dropDefinitions hg hinfo
    exact ⟨done, g', hok, ⟨hg', hvars'.trans hvars, fun w hw => hknown w (List.mem_cons_of_mem _ hw)⟩,
      hdone⟩
  obtain ⟨count, g', hsweep, ⟨hg', hvars, -⟩, hsize, hsame, hidle⟩ := ensures_sweep
    (fun vs g' => Sweeping c vs g' ∧ g'.vars = g₁.vars ∧ ∀ v ∈ vs, v.index < g₁.vars.size)
    Graph.removable (fun v g => g.Idle v) hedit ⟨hstart, rfl, fun v hv => (mem_varIds g₁).mp hv⟩
  refine ⟨count, g', ⟨hg'.toBatchable, SameInfo.trans hcode.var (.of_vars_eq hvars), ?_,
    fun hzero => ?_, ?_⟩, fun n => ?_⟩
  · rw [← hcode.removable]
    exact hsize
  · rw [hsame hzero]
    exact ⟨hcode, version_of_snapshot hsnapshot⟩
  · rw [hidle]
    constructor
    · intro hall v info hinfo
      obtain ⟨info', hinfo', -⟩ := hcode.var_eq_some hinfo
      exact hcode.idle_iff.mp (hall v ((mem_varIds g₁).mpr (var_eq_some_lt hinfo'))) info hinfo
    · exact fun hall v _ => hcode.idle_iff.mpr (hall v)
  · have hvarIds : (query fun g => .ok g.varIds) g₁ = .ok g₁.varIds g₁ := rfl
    calc deadRounds (n + 1) g
        = (if 0 < count then deadRounds n else pure ()) g' := by
          rw [deadRounds, bind_of_ok hsnapshot, bind_of_ok hvarIds, bind_of_ok hsweep]
      _ = if 0 < count then deadRounds n g' else .ok () g' := by
          split
          · rfl
          · rfl

/-- With a bound above the size of the code, the rounds end at a graph without anything to do. -/
theorem ensures_deadRounds (hg : g.Batchable) (hn : g.removable < n) :
    (deadRounds n).Ensures g fun _ g' => g'.Batchable ∧ g.SameInfo g' ∧ ∀ v, g'.Idle v := by
  induction n generalizing g with
  | zero => omega
  | succ n ih =>
    obtain ⟨count, g₁, hr, hround⟩ := exists_rounded hg
    by_cases hcount : count = 0
    · obtain ⟨hcode, -⟩ := hr.unchanged hcount
      have hidle := hr.count_eq_zero.mp hcount
      refine ⟨(), g₁, ?_, hr.batchable, hr.sameInfo, fun v => hcode.idle_iff.mpr (hidle v)⟩
      rw [hround, if_neg (by omega)]
    · have hsmaller := hr.smaller
      obtain ⟨u, g₂, hok, hg₂, hinfo, hidle⟩ := ih hr.batchable (by omega)
      refine ⟨u, g₂, ?_, hg₂, hr.sameInfo.trans hinfo, hidle⟩
      rw [hround, if_pos (by omega), hok]

/-- Such a bound does not cut the rounds short. -/
theorem deadRounds_eq {m : Nat} (hg : g.Batchable) (hm : g.removable < m) (hn : g.removable < n) :
    deadRounds m g = deadRounds n g := by
  induction m generalizing g n with
  | zero => omega
  | succ m ih =>
    obtain ⟨n, rfl⟩ : ∃ k, n = k + 1 := ⟨n - 1, by omega⟩
    obtain ⟨count, g₁, hr, hround⟩ := exists_rounded hg
    have hsmaller := hr.smaller
    rw [hround, hround]
    split
    · exact ih hr.batchable (by omega) (by omega)
    · rfl

theorem deadRounds_of_idle (hg : g.Batchable) (hidle : ∀ v, g.Idle v) (n : Nat) :
    ∃ g', deadRounds (n + 1) g = .ok () g' ∧ g.SameCode g' ∧ g'.version = g.version := by
  obtain ⟨count, g₁, hr, hround⟩ := exists_rounded hg
  have hcount := hr.count_eq_zero.mpr hidle
  exact ⟨g₁, by rw [hround, if_neg (by omega)], hr.unchanged hcount⟩

end Edit

namespace Graph

variable {g g' : Graph} {v : VarId} {info : Variable}

theorem mentioned_dropUnmentioned : g.dropUnmentioned.2.mentioned = g.mentioned := by
  simp only [mentioned, attached_dropUnmentioned, op_dropUnmentioned]

theorem isUnmentioned_iff : g.isUnmentioned v info ↔
    info.isArgument = false ∧ info.dropped = false ∧ v ∉ g.mentioned := by
  simp [isUnmentioned, and_assoc]

theorem dropUnmentioned_eq_self
    (h : ∀ {v info}, g.var v = some info → g.isUnmentioned v info = false) :
    g.dropUnmentioned = (0, g) := by
  have hdead : (g.varIds.filter fun v => (g.var v).any (g.isUnmentioned v)) = [] := by
    refine List.filter_eq_nil_iff.mpr fun v _ => ?_
    cases hv : g.var v with
    | none => simp
    | some info => simp [h hv]
  simp [dropUnmentioned, hdead]

theorem var_dropUnmentioned (v : VarId) : g.dropUnmentioned.2.var v = (g.var v).map fun info =>
    if g.isUnmentioned v info then { info with dropped := true, index := none } else info := by
  unfold dropUnmentioned
  dsimp only
  split
  · rename_i hnone
    cases hv : g.var v with
    | none => rfl
    | some info =>
      have hmentioned := List.filter_eq_nil_iff.mp (List.isEmpty_iff.mp hnone) v
        ((mem_varIds g).mpr (var_eq_some_lt hv))
      rw [hv, Option.any_some] at hmentioned
      simp [hmentioned]
  · rw [var_bump, var, Array.getElem?_mapIdx]
    rfl

theorem exists_var_dropUnmentioned (hv : g.var v = some info) :
    ∃ info', g.dropUnmentioned.2.var v = some info' ∧ info'.kind = info.kind ∧
      info'.type = info.type ∧
      (info'.dropped = true ↔ info.dropped = true ∨ info.isArgument = false ∧ v ∉ g.mentioned) := by
  rw [var_dropUnmentioned, hv, Option.map_some]
  by_cases hun : g.isUnmentioned v info
  · obtain ⟨harg, -, hmentioned⟩ := isUnmentioned_iff.mp hun
    rw [if_pos hun]
    exact ⟨_, rfl, rfl, rfl, by simp [harg, hmentioned]⟩
  · rw [if_neg hun]
    refine ⟨info, rfl, rfl, rfl, .inl, fun h => ?_⟩
    by_contra hd
    obtain ⟨harg, hmentioned⟩ := h.resolve_left hd
    exact hun (isUnmentioned_iff.mpr ⟨harg, by simpa using hd, hmentioned⟩)

theorem Batchable.dropUnmentioned (hg : g.Batchable) : g.dropUnmentioned.2.Batchable := by
  refine ⟨steady_dropUnmentioned hg.coherent, fun v hv => ?_⟩
  rw [mentioned_dropUnmentioned] at hv
  obtain ⟨info, hinfo, hd⟩ := hg.live v hv
  refine ⟨info, ?_, hd⟩
  rw [var_dropUnmentioned, hinfo, Option.map_some, if_neg]
  exact fun h => (isUnmentioned_iff.mp h).2.2 hv

theorem readers_dropUnmentioned : g.dropUnmentioned.2.readers v = g.readers v := by
  simp only [readers, attached_dropUnmentioned, op_dropUnmentioned]

theorem definers_dropUnmentioned : g.dropUnmentioned.2.definers v = g.definers v := by
  simp only [definers, attached_dropUnmentioned, op_dropUnmentioned]

theorem idle_dropUnmentioned (hidle : g.Idle v) : g.dropUnmentioned.2.Idle v := by
  intro info' hinfo' harg hdropped
  rw [readers_dropUnmentioned, definers_dropUnmentioned]
  rw [var_dropUnmentioned] at hinfo'
  obtain ⟨info, hinfo, rfl⟩ := Option.map_eq_some_iff.mp hinfo'
  by_cases hun : g.isUnmentioned v info
  · simp [hun] at hdropped
  · rw [if_neg hun] at harg hdropped
    exact hidle info hinfo harg hdropped

theorem dropUnmentioned_after (h : g.dropUnmentioned.2.SameCode g') :
    g'.dropUnmentioned = (0, g') := by
  refine dropUnmentioned_eq_self fun {v info'} hinfo' => ?_
  obtain ⟨info₁, hinfo₁, hkind, -, hdropped⟩ :=
    SameInfo.var_eq_some (fun v => (h.var v).symm) hinfo'
  rw [var_dropUnmentioned] at hinfo₁
  obtain ⟨info, -, hinfo⟩ := Option.map_eq_some_iff.mp hinfo₁
  by_contra hun'
  obtain ⟨harg, hlive, hmentioned⟩ := isUnmentioned_iff.mp (by simpa using hun')
  rw [h.mentioned, mentioned_dropUnmentioned] at hmentioned
  by_cases hun : g.isUnmentioned v info
  · rw [if_pos hun] at hinfo
    simp [← hinfo, hlive] at hdropped
  · rw [if_neg hun] at hinfo
    subst hinfo
    refine hun (isUnmentioned_iff.mpr ⟨?_, hdropped.trans hlive, hmentioned⟩)
    rw [Variable.isArgument, hkind]
    exact harg

/-- The elimination of dead variables always ends, whatever bound above the size of the code its
rounds have, and it ends at a fixed point. Then every variable with a definition is read unless it
is an argument; of the variables that were there before, those that are no arguments are dropped
exactly if nothing mentions them, and the arguments stay; no operator mentions a dropped variable.
Eliminating again drops nothing and leaves the code and its version as they are. -/
theorem eliminateDead_fixed_point {g : Graph} (hg : g.Built) (hlive : g.Live) :
    ∃ n g', Edit.eliminateDead g = .ok n g' ∧
      (∀ m, g.removable < m → (do
        Edit.deadRounds m
        modifyGet (·.dropUnmentioned) : Edit Nat) g = .ok n g') ∧
      (∀ {v info}, g'.var v = some info → info.isArgument = false → g'.definers v ≠ [] →
        g'.readers v ≠ []) ∧
      (∀ {v info}, g.var v = some info → ∃ info', g'.var v = some info' ∧
        info'.kind = info.kind ∧ info'.type = info.type ∧
        (info'.dropped = true ↔ info.dropped = true ∨ info.isArgument = false ∧ v ∉ g'.mentioned)) ∧
      g'.Live ∧
      ∃ g'', Edit.eliminateDead g' = .ok 0 g'' ∧ g''.version = g'.version ∧ g''.ops = g'.ops ∧
        g''.blocks = g'.blocks := by
  have hbatchable : g.Batchable := ⟨hg.coherent, hlive⟩
  have hmore : ∀ m, g.removable < m → Edit.deadRounds m g = Edit.deadRounds (g.removable + 1) g :=
    fun m hm => Edit.deadRounds_eq hbatchable hm (Nat.lt_succ_self _)
  obtain ⟨u, g₁, hrounds, hg₁, hinfo, hidle⟩ :=
    Edit.ensures_deadRounds hbatchable (Nat.lt_succ_self _)
  have hdrop : ∀ m, g.removable < m → (do
      Edit.deadRounds m
      modifyGet (·.dropUnmentioned) : Edit Nat) g = .ok g₁.dropUnmentioned.1 g₁.dropUnmentioned.2 :=
    fun m hm => Edit.bind_of_ok ((hmore m hm).trans hrounds)
  have hg' := hg₁.dropUnmentioned
  have hidle' : ∀ v, g₁.dropUnmentioned.2.Idle v := fun v => idle_dropUnmentioned (hidle v)
  refine ⟨_, _, hdrop _ (Nat.lt_succ_self _), hdrop, ?_, ?_, hg'.live, ?_⟩
  · intro v info hv harg hdefined hunread
    obtain ⟨id, hid⟩ := List.exists_mem_of_ne_nil _ hdefined
    obtain ⟨hattached, op, hop, hdef⟩ := mem_definers.mp hid
    obtain ⟨info', hv', hdropped⟩ := hg'.live v
      (mem_mentioned.mpr ⟨id, hattached, op, hop, mem_mentions.mpr (.inr hdef)⟩)
    obtain rfl : info = info' := Option.some.inj (hv.symm.trans hv')
    exact hdefined (hidle' v info hv harg hdropped hunread)
  · intro v info hv
    obtain ⟨info₁, hv₁, hkind₁, htype₁, hdropped₁⟩ := hinfo.var_eq_some hv
    obtain ⟨info', hv', hkind, htype, hdropped⟩ := exists_var_dropUnmentioned hv₁
    refine ⟨info', hv', hkind.trans hkind₁, htype.trans htype₁, ?_⟩
    rw [hdropped, hdropped₁, Variable.isArgument, hkind₁, mentioned_dropUnmentioned]
    rfl
  · obtain ⟨g₂, hrounds₂, hcode, hversion⟩ :=
      Edit.deadRounds_of_idle hg' hidle' g₁.dropUnmentioned.2.removable
    have hlast : (modifyGet (·.dropUnmentioned) : Edit Nat) g₂ = .ok 0 g₂ :=
      Edit.modifyGet_eq_ok.mpr (dropUnmentioned_after hcode)
    exact ⟨g₂, (Edit.bind_of_ok hrounds₂).trans hlast, hversion, hcode.ops, hcode.blocks⟩

/-- Copies that become dead one after the other, and an argument that nobody reads. -/
def deadChain : Graph := (empty "f").changed
  [.addVar .local (.ofScalar .i32), .addVar .local (.ofScalar .i32), .addVar .argument (.ofScalar .i32),
    .append ⟨0⟩ (.copy ⟨0⟩ (.const (.int (.ofScalar .i32) 1))), .append ⟨0⟩ (.copy ⟨1⟩ (.var ⟨0⟩)),
    .append ⟨0⟩ (.ret none)]

theorem eliminateDead_deadChain : ∃ n g', Edit.eliminateDead deadChain = .ok n g' ∧
    g'.attached = [⟨2⟩] ∧ (g'.var ⟨2⟩).map (·.dropped) = some false ∧
    ∃ g'', Edit.eliminateDead g' = .ok 0 g'' ∧ g''.version = g'.version ∧ g''.blocks = g'.blocks := by
  have hlive : deadChain.Live := by
    have hvars : ∀ v ∈ deadChain.mentioned, (deadChain.var v).any (!·.dropped) := by decide
    intro v hv
    obtain ⟨info, hinfo, hd⟩ := (Option.any_eq_true _ _).mp (hvars v hv)
    exact ⟨info, hinfo, by simpa using hd⟩
  obtain ⟨n, g', h, -, -, -, -, g'', hagain, hversion, -, hblocks⟩ :=
    eliminateDead_fixed_point ((Built.empty "f").changed _) hlive
  obtain rfl := Edit.after_of_ok h
  exact ⟨n, _, h, by decide +kernel, by decide +kernel, g'', hagain, hversion, hblocks⟩

end Graph
end ScalarLowering
