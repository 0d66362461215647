import ScalarLowering.DefUse.Snapshot
import ScalarLowering.Proofs.Linked

/-! The pass that computes the chains. It adds each attached operator to the chains of the variables
that it reads or defines, and leaves one out that is at the end of a chain already. What it gives
every live variable is the scan of the graph. -/

namespace ScalarLowering

theorem Chains.extend_extend (chain : List OpId) (id : OpId) :
    extend (extend chain id) id = extend chain id := by
  by_cases h : chain.getLast? = some id <;> simp [extend, h]

theorem Chains.foldl_extend {chain ids : List OpId} (h : (chain ++ ids).Nodup) :
    ids.foldl extend chain = chain ++ ids := by
  induction ids generalizing chain with
  | nil => simp
  | cons id ids ih =>
    have hlast : chain.getLast? ≠ some id := by
      intro hlast
      exact (List.nodup_append.mp h).2.2 id (List.mem_of_getLast? hlast) id List.mem_cons_self rfl
    rw [List.foldl_cons, extend, if_neg hlast, ih (by simpa using h), List.append_assoc,
      List.singleton_append]

theorem exists_of_foldlM_eq_some {α β : Type} {f : β → α → Option β} {l : List α} {b b' : β}
    (h : l.foldlM f b = some b') : ∀ a ∈ l, ∃ c c', f c a = some c' := by
  induction l generalizing b with
  | nil => simp
  | cons a l ih =>
    rw [List.foldlM_cons] at h
    obtain ⟨c, hc, h⟩ := Option.bind_eq_some_iff.mp h
    exact List.forall_mem_cons.mpr ⟨⟨b, c, hc⟩, ih h⟩

namespace Graph

variable {g g' : Graph} {c : Chains} {v : VarId} {generation : UInt32}

theorem getElem?_numberVars (generation : UInt32) (slot : Nat) (vars : List Variable) (i : Nat) :
    (numberVars generation slot vars)[i]? = vars[i]?.map fun info =>
      if info.dropped then { info with index := none }
      else { info with index := some ⟨generation, slot + (vars.take i).countP (!·.dropped)⟩ } := by
  induction vars generalizing slot i with
  | nil => simp [numberVars]
  | cons head vars ih =>
    cases i with
    | zero => by_cases h : head.dropped <;> simp [numberVars, h]
    | succ i =>
      by_cases h : head.dropped
      · simp [numberVars, h, ih]
      · simp [numberVars, h, ih, Nat.add_assoc, Nat.add_comm]

theorem countP_take_varIds {i : Nat} (hi : i ≤ g.vars.size) :
    (g.varIds.take i).countP (fun v => (g.var v).any fun info => !info.dropped) =
      (g.vars.toList.take i).countP (!·.dropped) := by
  induction i with
  | zero => simp
  | succ i ih =>
    have hlt : i < g.vars.size := hi
    have hv : g.var ⟨i⟩ = some g.vars[i] := Array.getElem?_eq_getElem hlt
    have hids : g.varIds[i]? = some ⟨i⟩ := by simp [varIds, hlt]
    rw [List.take_add_one, List.take_add_one, List.countP_append, List.countP_append,
      ih (Nat.le_of_lt hlt), hids]
    simp [hlt, hv]

def slotOf (g : Graph) (v : VarId) : Nat := (g.vars.toList.take v.index).countP (!·.dropped)

theorem getElem?_liveVars {info : Variable} (hv : g.var v = some info)
    (hlive : info.dropped = false) :
    g.liveVars[g.slotOf v]? = some v := by
  have hlt := var_eq_some_lt hv
  have hsplit : g.varIds = g.varIds.take v.index ++ v :: g.varIds.drop (v.index + 1) := by
    have hget : g.varIds[v.index]? = some v := by simp [varIds, hlt]
    rw [List.getElem?_eq_some_iff] at hget
    obtain ⟨hlen, hget⟩ := hget
    conv_lhs => rw [← List.take_append_drop v.index g.varIds, List.drop_eq_getElem_cons hlen, hget]
  have hfilter : g.liveVars = (g.varIds.take v.index).filter (fun v =>
      (g.var v).any fun info => !info.dropped) ++ v :: (g.varIds.drop (v.index + 1)).filter
        (fun v => (g.var v).any fun info => !info.dropped) := by
    rw [liveVars]
    conv_lhs => rw [hsplit]
    simp [hv, hlive]
  rw [hfilter, slotOf, ← countP_take_varIds (Nat.le_of_lt hlt), List.countP_eq_length_filter]
  simp

theorem mem_liveVars : v ∈ g.liveVars ↔ ∃ info, g.var v = some info ∧ info.dropped = false := by
  simp only [liveVars, List.mem_filter, mem_varIds, Option.any_eq_true, Bool.not_eq_true']
  refine and_iff_right_of_imp ?_
  rintro ⟨_, h, -⟩
  exact var_eq_some_lt h

theorem nodup_liveVars : g.liveVars.Nodup := by
  refine List.Nodup.filter _ (List.nodup_range.map ?_)
  intro i j h
  exact congrArg VarId.index h

theorem var_numbered (generation : UInt32) (v : VarId) : (g.numbered generation).var v =
    (g.var v).map fun info =>
      { info with index := if info.dropped then none else some ⟨generation, g.slotOf v⟩ } := by
  cases hv : g.vars[v.index]? with
  | none => simp [var, numbered, getElem?_numberVars, hv]
  | some info => by_cases hd : info.dropped <;>
      simp [var, numbered, slotOf, getElem?_numberVars, hv, hd]

theorem size_numbered (generation : UInt32) : (g.numbered generation).vars.size = g.vars.size := by
  have hlength : ∀ slot vars, (numberVars generation slot vars).length = vars.length := by
    intro slot vars
    induction vars generalizing slot with
    | nil => rfl
    | cons info vars ih => by_cases hd : info.dropped <;> simp [numberVars, hd, ih]
  simp [numbered, hlength]

theorem liveVars_numbered (generation : UInt32) : (g.numbered generation).liveVars = g.liveVars := by
  rw [liveVars, liveVars, varIds, varIds, size_numbered]
  refine List.filter_congr fun v _ => ?_
  rw [var_numbered, Option.any_map]

theorem record_numbered (id : OpId) (f : VarId → List OpId) (hv : v.index < g.vars.size) :
    (g.numbered generation).record id (g.liveVars.map f).toArray v =
      some (g.liveVars.map fun w => if w = v then Chains.extend (f w) id else f w).toArray := by
  obtain ⟨info, hinfo⟩ := exists_var hv
  cases hd : info.dropped with
  | true =>
    have hne : ∀ w ∈ g.liveVars, w ≠ v := by
      rintro w hw rfl
      obtain ⟨info', hinfo', hlive⟩ := mem_liveVars.mp hw
      obtain rfl := Option.some.inj (hinfo.symm.trans hinfo')
      exact Bool.noConfusion (hd.symm.trans hlive)
    have hsame : (g.liveVars.map fun w => if w = v then Chains.extend (f w) id else f w) =
        g.liveVars.map f :=
      List.map_congr_left fun w hw => if_neg (hne w hw)
    simp [record, var_numbered, hinfo, hd, hsame]
  | false =>
    have hslot := getElem?_liveVars hinfo hd
    have hset : ((g.liveVars.map f).set (g.slotOf v) (Chains.extend (f v) id)) =
        g.liveVars.map fun w => if w = v then Chains.extend (f w) id else f w := by
      obtain ⟨hlt, hget⟩ := List.getElem?_eq_some_iff.mp hslot
      refine List.ext_getElem (by simp) fun i _ hi => ?_
      have hi : i < g.liveVars.length := by simpa using hi
      have hsame : g.liveVars[i] = g.liveVars[g.slotOf v] ↔ i = g.slotOf v :=
        nodup_liveVars.getElem_inj_iff
      rw [hget] at hsame
      rw [List.getElem_set, List.getElem_map, List.getElem_map]
      by_cases hiv : i = g.slotOf v
      · rw [if_pos hiv.symm, if_pos (hsame.mpr hiv), hsame.mpr hiv]
      · rw [if_neg (Ne.symm hiv), if_neg (mt hsame.mp hiv)]
    simp [record, var_numbered, hinfo, hd, hslot, hset]

theorem foldlM_record (id : OpId) {vs : List VarId} (f : VarId → List OpId)
    (hvs : ∀ v ∈ vs, v.index < g.vars.size) :
    vs.foldlM ((g.numbered generation).record id) (g.liveVars.map f).toArray =
      some (g.liveVars.map fun w => if w ∈ vs then Chains.extend (f w) id else f w).toArray := by
  induction vs generalizing f with
  | nil => simp
  | cons v vs ih =>
    obtain ⟨hv, hvs⟩ := List.forall_mem_cons.mp hvs
    rw [List.foldlM_cons, record_numbered id f hv]
    refine (ih _ hvs).trans ?_
    congr 3
    funext w
    by_cases hw : w = v <;> by_cases hmem : w ∈ vs <;> simp [hw, hmem, Chains.extend_extend]

/-- The chains of the live variables, given by variable. -/
def table (g : Graph) (generation : UInt32) (definitions uses : VarId → List OpId) : Chains where
  version := g.version
  generation := generation
  definitions := (g.liveVars.map definitions).toArray
  uses := (g.liveVars.map uses).toArray

theorem recordOp_numbered {id : OpId} {op : Operator} (hop : g.op id = some op)
    (hknown : ∀ v ∈ op.mentions, v.index < g.vars.size) (definitions uses : VarId → List OpId) :
    (g.numbered generation).recordOp (g.table generation definitions uses) id =
      some (g.table generation
        (fun w => if op.definesVar w then Chains.extend (definitions w) id else definitions w)
        (fun w => if op.readsVar w then Chains.extend (uses w) id else uses w)) := by
  have hreads : ∀ v ∈ op.reads, v.index < g.vars.size :=
    fun v hv => hknown v (List.mem_append_left _ hv)
  have hresults : ∀ v ∈ op.results, v.index < g.vars.size :=
    fun v hv => hknown v (List.mem_append_right _ hv)
  have hop' : (g.numbered generation).op id = some op := hop
  simp [recordOp, hop', table, foldlM_record id _ hreads, foldlM_record id _ hresults,
    Operator.definesVar, Operator.readsVar]

theorem foldlM_recordOp {ids : List OpId} (hids : ∀ id ∈ ids, ∃ op, g.op id = some op ∧
      ∀ v ∈ op.mentions, v.index < g.vars.size) (definitions uses : VarId → List OpId) :
    ids.foldlM (g.numbered generation).recordOp (g.table generation definitions uses) =
      some (g.table generation
        (fun w => (ids.filter fun id => (g.op id).any (·.definesVar w)).foldl Chains.extend
          (definitions w))
        (fun w => (ids.filter fun id => (g.op id).any (·.readsVar w)).foldl Chains.extend
          (uses w))) := by
  induction ids generalizing definitions uses with
  | nil => rfl
  | cons id ids ih =>
    obtain ⟨⟨op, hop, hknown⟩, hids⟩ := List.forall_mem_cons.mp hids
    rw [List.foldlM_cons, recordOp_numbered hop hknown]
    refine (ih hids _ _).trans ?_
    congr 2
    · funext w
      by_cases hw : op.definesVar w <;> simp [hop, hw]
    · funext w
      by_cases hw : op.readsVar w <;> simp [hop, hw]

/-- The snapshot that a scan for each live variable gives. -/
def scan (g : Graph) (generation : UInt32) : Chains := g.table generation g.definers g.readers

theorem mentionsKnown_iff : g.mentionsKnown ↔ ∀ id ∈ g.attached, ∃ op, g.op id = some op ∧
    ∀ v ∈ op.mentions, v.index < g.vars.size := by
  simp [mentionsKnown, List.all_eq_true, Option.any_eq_true]

theorem chains_numbered (hg : g.mentionsKnown) : (g.numbered generation).chains generation =
    some (g.table generation (fun w => (g.definers w).foldl Chains.extend [])
      (fun w => (g.readers w).foldl Chains.extend [])) := by
  have hunused : Array.replicate g.liveVars.length [] =
      (g.liveVars.map fun _ => ([] : List OpId)).toArray := by
    simp
  rw [chains, liveVars_numbered, hunused]
  exact foldlM_recordOp (mentionsKnown_iff.mp hg) _ _

theorem lt_of_record {id : OpId} {table table' : Array (List OpId)}
    (h : g.record id table v = some table') : v.index < g.vars.size := by
  obtain ⟨info, hinfo, -⟩ := Option.bind_eq_some_iff.mp h
  exact var_eq_some_lt hinfo

theorem mentionsKnown_of_chains (h : (g.numbered generation).chains generation = some c) :
    g.mentionsKnown := by
  refine mentionsKnown_iff.mpr fun id hid => ?_
  obtain ⟨c₁, c₂, hc⟩ := exists_of_foldlM_eq_some h id hid
  obtain ⟨op, hop, hc⟩ := Option.bind_eq_some_iff.mp hc
  obtain ⟨uses, huses, hc⟩ := Option.bind_eq_some_iff.mp hc
  obtain ⟨definitions, hdefinitions, -⟩ := Option.bind_eq_some_iff.mp hc
  refine ⟨op, hop, fun v hv => ?_⟩
  rw [← size_numbered generation]
  obtain hv | hv := List.mem_append.mp hv
  · obtain ⟨_, _, hrecord⟩ := exists_of_foldlM_eq_some huses v hv
    exact lt_of_record hrecord
  · obtain ⟨_, _, hrecord⟩ := exists_of_foldlM_eq_some hdefinitions v hv
    exact lt_of_record hrecord

/-- The pass succeeds on graphs that mention known variables, and gives the scan. -/
theorem Linked.chains_eq_some (hg : g.Linked) :
    (g.numbered generation).chains generation = some c ↔
      g.mentionsKnown ∧ c = g.scan generation := by
  have hdefiners : (fun w => (g.definers w).foldl Chains.extend []) = g.definers :=
    funext fun w => Chains.foldl_extend (hg.nodup_attached.filter _)
  have hreaders : (fun w => (g.readers w).foldl Chains.extend []) = g.readers :=
    funext fun w => Chains.foldl_extend (hg.nodup_attached.filter _)
  constructor
  · intro h
    have hknown := mentionsKnown_of_chains h
    rw [chains_numbered hknown, hdefiners, hreaders] at h
    exact ⟨hknown, (Option.some.inj h).symm⟩
  · rintro ⟨hknown, rfl⟩
    rw [chains_numbered hknown, hdefiners, hreaders]
    rfl

theorem refresh_eq_some : g.refresh = some (c, g') ↔
    (g.numbered (g.cache.generation + 1)).chains (g.cache.generation + 1) = some c ∧
      g' = { g.numbered (g.cache.generation + 1) with
        cache := { g.cache with
          latest := some c, generation := g.cache.generation + 1,
          refreshes := g.cache.refreshes + 1, touched := [] } } := by
  simp only [refresh]
  constructor
  · intro h
    obtain ⟨c', hc, h⟩ := Option.bind_eq_some_iff.mp h
    cases h
    exact ⟨hc, rfl⟩
  · rintro ⟨hc, rfl⟩
    rw [hc]
    rfl

theorem mentionsKnown_of_refresh (h : g.refresh = some (c, g')) : g.mentionsKnown :=
  mentionsKnown_of_chains (refresh_eq_some.mp h).1

theorem version_of_refresh (h : g.refresh = some (c, g')) : c.version = g.version := by
  have hchains := (refresh_eq_some.mp h).1
  rw [chains_numbered (mentionsKnown_of_refresh h)] at hchains
  cases hchains
  rfl

theorem exists_refresh (hg : g.mentionsKnown) : ∃ c g', g.refresh = some (c, g') :=
  ⟨_, _, refresh_eq_some.mpr ⟨chains_numbered hg, rfl⟩⟩

theorem Linked.eq_scan_of_refresh (hg : g.Linked) (h : g.refresh = some (c, g')) :
    c = g.scan (g.cache.generation + 1) :=
  (hg.chains_eq_some.mp (refresh_eq_some.mp h).1).2

end Graph
end ScalarLowering
