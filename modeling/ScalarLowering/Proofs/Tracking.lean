import ScalarLowering.Proofs.Chaining
import ScalarLowering.Proofs.Extends

/-! Snapshots of the chains against plain scans of the graph. A new snapshot is the scan of
every variable. While edits are made it goes stale, but filtered by attachment it still is
the scan of every variable that was not touched. -/

namespace ScalarLowering
namespace Graph

variable {g g' : Graph} {c : Chains} {v : VarId}

/-- The snapshot holds the scan of every variable that is not dropped, and none was touched. -/
structure Exact (c : Chains) (g : Graph) : Prop where
  defs : ∀ {v : VarId} {info : Variable}, g.var v = some info → info.dropped = false →
    g.chainDefs c v = .ok (g.definers v)
  uses : ∀ {v : VarId} {info : Variable}, g.var v = some info → info.dropped = false →
    g.chainUses c v = .ok (g.readers v)
  dropped : ∀ {v : VarId} {info : Variable}, g.var v = some info → info.dropped = true →
    info.index = none
  untouched : ∀ v : VarId, g.isTouched v = false

/-- The attached operators of a chain of readers are the scan, if the variable was not touched. -/
structure TracksUses (c : Chains) (g : Graph) : Prop where
  uses : ∀ {v : VarId} {ids : List OpId}, g.isTouched v = false → g.chainUses c v = .ok ids →
    (∀ id ∈ ids, id.index < g.ops.size) ∧ ids.filter g.isAttached = g.readers v

structure Tracks (c : Chains) (g : Graph) : Prop extends TracksUses c g where
  defs : ∀ {v : VarId} {ids : List OpId}, g.isTouched v = false → g.chainDefs c v = .ok ids →
    (∀ id ∈ ids, id.index < g.ops.size) ∧ ids.filter g.isAttached = g.definers v

/-- The attached operators of the chain of definitions of one variable are the scan, if it was not
touched. -/
structure TracksDefs (c : Chains) (g : Graph) (v : VarId) : Prop where
  scan : ∀ {ids : List OpId}, g.isTouched v = false → g.chainDefs c v = .ok ids →
    (∀ id ∈ ids, id.index < g.ops.size) ∧ ids.filter g.isAttached = g.definers v

theorem Tracks.tracksDefs (hc : Tracks c g) (v : VarId) : TracksDefs c g v := ⟨hc.defs⟩

theorem chainIndex_eq_ok {i : ChainIndex} :
    g.chainIndex v = .ok i ↔ ∃ info, g.var v = some info ∧ info.index = some i := by
  simp only [chainIndex, Except.bind_eq_ok, Error.lift_eq_ok]
  constructor
  · rintro ⟨info, hinfo, h⟩
    split at h
    · rename_i j hj
      exact ⟨info, hinfo, by rw [hj, Except.pure_eq_ok.mp h]⟩
    · simp at h
  · rintro ⟨info, hinfo, hi⟩
    exact ⟨info, hinfo, by simp [hi]⟩

theorem chainDefs_eq_ok {ids : List OpId} : g.chainDefs c v = .ok ids ↔
    ∃ i, g.chainIndex v = .ok i ∧ c.definitionsAt i = .ok ids := Except.bind_eq_ok

theorem chainUses_eq_ok {ids : List OpId} : g.chainUses c v = .ok ids ↔
    ∃ i, g.chainIndex v = .ok i ∧ c.usesAt i = .ok ids := Except.bind_eq_ok

theorem chainAt_eq_ok {chains : Array (List OpId)} {i : ChainIndex} {ids : List OpId} :
    c.chainAt chains i = .ok ids ↔ i.generation = c.generation ∧ chains[i.slot]? = some ids := by
  unfold Chains.chainAt Chains.slotOf
  by_cases h : i.generation = c.generation <;> simp [h, Except.bind_eq_ok]

theorem mem_definers {id : OpId} :
    id ∈ g.definers v ↔ id ∈ g.attached ∧ ∃ op, g.op id = some op ∧ op.definesVar v := by
  simp [definers, Option.any_eq_true]

theorem mem_readers {id : OpId} :
    id ∈ g.readers v ↔ id ∈ g.attached ∧ ∃ op, g.op id = some op ∧ op.readsVar v := by
  simp [readers, Option.any_eq_true]

theorem mem_definers_of_results {id : OpId} {op : Operator} (hid : id ∈ g.attached)
    (hop : g.op id = some op) (hv : v ∈ op.results) : id ∈ g.definers v :=
  mem_definers.mpr ⟨hid, op, hop, by simpa [Operator.definesVar] using hv⟩

theorem mem_results_of_mem_definers {id : OpId} {op : Operator} (h : id ∈ g.definers v)
    (hop : g.op id = some op) : v ∈ op.results := by
  obtain ⟨-, op', hop', hdefines⟩ := mem_definers.mp h
  obtain rfl := Option.some.inj (hop.symm.trans hop')
  simpa [Operator.definesVar] using hdefines

theorem mem_readers_of_reads {id : OpId} {op : Operator} (hid : id ∈ g.attached)
    (hop : g.op id = some op) (hv : v ∈ op.reads) : id ∈ g.readers v :=
  mem_readers.mpr ⟨hid, op, hop, by simpa [Operator.readsVar] using hv⟩

theorem mem_reads_of_mem_readers {id : OpId} {op : Operator} (h : id ∈ g.readers v)
    (hop : g.op id = some op) : v ∈ op.reads := by
  obtain ⟨-, op', hop', hread⟩ := mem_readers.mp h
  obtain rfl := Option.some.inj (hop.symm.trans hop')
  simpa [Operator.readsVar] using hread

def nextIndex (g : Graph) (v : VarId) : ChainIndex :=
  ⟨g.cache.generation + 1, g.slotOf v⟩

theorem var_refresh (h : g.refresh = some (c, g')) (v : VarId) : g'.var v =
    (g.var v).map fun info =>
      { info with index := if info.dropped then none else some (g.nextIndex v) } := by
  obtain ⟨-, rfl⟩ := refresh_eq_some.mp h
  exact var_numbered _ v

theorem exact_refresh (hg : g.Linked) (h : g.refresh = some (c, g')) : Exact c g' := by
  have hvar := var_refresh h
  have hc := hg.eq_scan_of_refresh h
  obtain ⟨-, hg'⟩ := refresh_eq_some.mp h
  have hdefiners : g'.definers = g.definers := by rw [hg']; rfl
  have hreaders : g'.readers = g.readers := by rw [hg']; rfl
  have hindex : ∀ {v info}, g'.var v = some info → info.dropped = false → g'.chainIndex v =
      .ok (g.nextIndex v) ∧ g.liveVars[(g.nextIndex v).slot]? = some v := by
    intro v info hv hlive
    rw [hvar] at hv
    obtain ⟨info, hinfo, rfl⟩ := Option.map_eq_some_iff.mp hv
    refine ⟨chainIndex_eq_ok.mpr ⟨_, by rw [hvar, hinfo, Option.map_some], ?_⟩,
      getElem?_liveVars hinfo hlive⟩
    exact if_neg (Bool.eq_false_iff.mp hlive)
  refine ⟨fun {v info} hv hlive => ?_, fun {v info} hv hlive => ?_, fun {v info} hv hd => ?_, ?_⟩
  · obtain ⟨hi, hslot⟩ := hindex hv hlive
    refine chainDefs_eq_ok.mpr ⟨_, hi, chainAt_eq_ok.mpr ?_⟩
    refine ⟨hc ▸ rfl, ?_⟩
    simp [hc, scan, table, hslot, hdefiners]
  · obtain ⟨hi, hslot⟩ := hindex hv hlive
    refine chainUses_eq_ok.mpr ⟨_, hi, chainAt_eq_ok.mpr ?_⟩
    refine ⟨hc ▸ rfl, ?_⟩
    simp [hc, scan, table, hslot, hreaders]
  · rw [hvar] at hv
    obtain ⟨info, -, rfl⟩ := Option.map_eq_some_iff.mp hv
    exact if_pos hd
  · rw [hg']
    exact fun _ => rfl

theorem Exact.tracks (hg : g.Linked) (hc : Exact c g) : Tracks c g := by
  have hlive : ∀ {v i}, g.chainIndex v = .ok i →
      ∃ info, g.var v = some info ∧ info.dropped = false := by
    intro v i hi
    obtain ⟨info, hinfo, hindex⟩ := chainIndex_eq_ok.mp hi
    refine ⟨info, hinfo, ?_⟩
    by_contra hd
    rw [hc.dropped hinfo (by simpa using hd)] at hindex
    cases hindex
  refine ⟨⟨fun {v ids} _ h => ?_⟩, fun {v ids} _ h => ?_⟩
  · obtain ⟨i, hi, -⟩ := chainUses_eq_ok.mp h
    obtain ⟨info, hinfo, hd⟩ := hlive hi
    obtain rfl : g.readers v = ids := by simpa [hc.uses hinfo hd] using h
    exact ⟨fun id hid => hg.lt_of_mem (mem_readers.mp hid).1,
      List.filter_eq_self.mpr fun id hid => hg.mem_attached.mp (mem_readers.mp hid).1⟩
  · obtain ⟨i, hi, -⟩ := chainDefs_eq_ok.mp h
    obtain ⟨info, hinfo, hd⟩ := hlive hi
    obtain rfl : g.definers v = ids := by simpa [hc.defs hinfo hd] using h
    exact ⟨fun id hid => hg.lt_of_mem (mem_definers.mp hid).1,
      List.filter_eq_self.mpr fun id hid => hg.mem_attached.mp (mem_definers.mp hid).1⟩

/-- Edits give no variable an index that it did not have. -/
theorem Extends.chainIndex (h : g.Extends g') {i : ChainIndex} (hi : g'.chainIndex v = .ok i) :
    g.chainIndex v = .ok i := by
  obtain ⟨info, hinfo, hindex⟩ := chainIndex_eq_ok.mp hi
  by_cases hv : v.index < g.vars.size
  · exact chainIndex_eq_ok.mpr ⟨info, h.var hv ▸ hinfo, hindex⟩
  · rw [(h.newVar (Nat.le_of_not_lt hv) hinfo).1] at hindex
    cases hindex

/-- The scan for a test that edits do not change on old operators and that fails on new ones. -/
theorem Extends.scan (h : g.Extends g') {test test' : OpId → Bool} {ids : List OpId}
    (hids : ∀ id ∈ ids, id.index < g.ops.size)
    (hscan : ids.filter g.isAttached = g.attached.filter test)
    (hold : ∀ id ∈ g'.attached, id.index < g.ops.size → test' id = test id)
    (hnew : ∀ id ∈ g'.attached, g.ops.size ≤ id.index → test' id = false) :
    ids.filter g'.isAttached = g'.attached.filter test' := by
  calc ids.filter g'.isAttached
      = (ids.filter g.isAttached).filter g'.isAttached := by
        rw [List.filter_filter]
        apply List.filter_congr
        intro id hid
        by_cases hatt : g'.isAttached id
        · simp [hatt, h.attached (hids id hid) hatt]
        · simp [hatt]
    _ = (g'.attached.filter fun id => id.index < g.ops.size).filter test := by
        rw [hscan, h.order, List.filter_filter, List.filter_filter]
        simp only [Bool.and_comm]
    _ = g'.attached.filter test' := by
        rw [List.filter_filter]
        apply List.filter_congr
        intro id hid
        by_cases hlt : id.index < g.ops.size
        · simp [hlt, hold id hid hlt]
        · simp [hlt, hnew id hid (Nat.le_of_not_lt hlt)]

theorem Extends.isTouched_eq_false (h : g.Extends g') (hv : g'.isTouched v = false) :
    g.isTouched v = false := by
  by_contra hd
  simp [h.touched (by simpa using hd)] at hv

/-- What edits leave of a chain: if the variable was not touched, the attached operators of the chain
still are the scan. -/
theorem Extends.chain_scan {test : Operator → Bool} {lookup : ChainIndex → Except Error (List OpId)}
    {ids : List OpId} (h : g.Extends g') (hg' : g'.Linked)
    (hc : ∀ {ids}, g.isTouched v = false → (g.chainIndex v >>= lookup) = .ok ids →
      (∀ id ∈ ids, id.index < g.ops.size) ∧
        ids.filter g.isAttached = g.attached.filter fun id => (g.op id).any test)
    (hsame : ∀ {op op' : Operator}, op'.results = op.results → op'.readsVar v = op.readsVar v →
      test op' = test op)
    (hmentions : ∀ {op : Operator}, test op → v ∈ op.mentions)
    (hv : g'.isTouched v = false) (hids : (g'.chainIndex v >>= lookup) = .ok ids) :
    (∀ id ∈ ids, id.index < g'.ops.size) ∧
      ids.filter g'.isAttached = g'.attached.filter fun id => (g'.op id).any test := by
  obtain ⟨i, hi, hat⟩ := Except.bind_eq_ok.mp hids
  obtain ⟨hlt, hscan⟩ := hc (h.isTouched_eq_false hv)
    (Except.bind_eq_ok.mpr ⟨i, h.chainIndex hi, hat⟩)
  refine ⟨fun id hid => Nat.lt_of_lt_of_le (hlt id hid) h.size_ops,
    h.scan hlt hscan (fun id hid hid' => ?_) fun id hid hid' => ?_⟩
  · obtain ⟨op', b, hop', -⟩ := hg'.exists_op_of_mem hid
    obtain ⟨op, hop, -, hresults, -, hreads⟩ := h.oldOp hid' hop'
    simp [hop, hop', hsame hresults (hreads v hv)]
  · obtain ⟨op', b, hop', -⟩ := hg'.exists_op_of_mem hid
    by_contra htest
    rw [h.newOp hid' hop' (hmentions (by simpa [hop'] using htest))] at hv
    cases hv

theorem TracksUses.extends (hc : TracksUses c g) (h : g.Extends g') (hg' : g'.Linked) :
    TracksUses c g' :=
  ⟨h.chain_scan hg' hc.uses (fun _ hreads => hreads) fun hreads => mem_mentions.mpr (.inl hreads)⟩

theorem TracksDefs.extends (hc : TracksDefs c g v) (h : g.Extends g') (hg' : g'.Linked) :
    TracksDefs c g' v :=
  ⟨h.chain_scan hg' hc.scan (fun hresults _ => by simp only [Operator.definesVar, hresults])
    fun hdefines => mem_mentions.mpr (.inr hdefines)⟩

theorem Tracks.extends (hc : Tracks c g) (h : g.Extends g') (hg' : g'.Linked) : Tracks c g' :=
  ⟨hc.toTracksUses.extends h hg', fun {v} => ((hc.tracksDefs v).extends h hg').scan⟩

theorem keepAttached_eq_some {ids kept : List OpId} : g.keepAttached ids = some kept ↔
    (∀ id ∈ ids, id.index < g.ops.size) ∧ kept = ids.filter g.isAttached := by
  unfold keepAttached
  by_cases h : ∀ id ∈ ids, id.index < g.ops.size
  · rw [if_pos (by simpa using h), Option.some.injEq, eq_comm]
    exact (and_iff_right h).symm
  · rw [if_neg (by simpa using h)]
    exact ⟨nofun, fun hk => absurd hk.1 h⟩

section LiveAnswer

variable {scan : List OpId} {chain : Except Error (List OpId)}

theorem liveAnswer_eq_ok {ids : List OpId} : g.liveAnswer v scan chain = .ok ids ↔
    g.isTouched v = true ∧ ids = scan ∨ g.isTouched v = false ∧
      ∃ old, chain = .ok old ∧ (∀ id ∈ old, id.index < g.ops.size) ∧
        ids = old.filter g.isAttached := by
  unfold liveAnswer
  cases g.isTouched v with
  | true => simp [eq_comm]
  | false => simp [Except.bind_eq_ok, keepAttached_eq_some]

theorem liveAnswer_eq_error {e : Error} (hv : g.isTouched v = false) (h : chain = .error e) :
    g.liveAnswer v scan chain = .error e := by
  rw [liveAnswer, if_neg (by simp [hv]), h]
  rfl

variable (hscan : ∀ {ids}, g.isTouched v = false → chain = .ok ids →
  (∀ id ∈ ids, id.index < g.ops.size) ∧ ids.filter g.isAttached = scan)
include hscan

/-- An answer of a live query is the plain scan. -/
theorem eq_scan_of_liveAnswer {ids : List OpId} (h : g.liveAnswer v scan chain = .ok ids) :
    ids = scan := by
  obtain ⟨-, rfl⟩ | ⟨hv, old, hchain, -, rfl⟩ := liveAnswer_eq_ok.mp h
  · rfl
  · exact (hscan hv hchain).2

theorem liveAnswer_eq_scan {ids : List OpId} (h : g.isTouched v = false → chain = .ok ids) :
    g.liveAnswer v scan chain = .ok scan := by
  cases hv : g.isTouched v with
  | true => exact liveAnswer_eq_ok.mpr (.inl ⟨hv, rfl⟩)
  | false =>
    obtain ⟨hlt, heq⟩ := hscan hv (h hv)
    exact liveAnswer_eq_ok.mpr (.inr ⟨hv, ids, h hv, hlt, heq.symm⟩)

end LiveAnswer

theorem TracksDefs.attachedDefs (hc : TracksDefs c g v) {ids : List OpId}
    (h : g.attachedDefs c v = .ok ids) : ids = g.definers v :=
  eq_scan_of_liveAnswer hc.scan h

theorem Tracks.attachedDefs (hc : Tracks c g) {ids : List OpId} (h : g.attachedDefs c v = .ok ids) :
    ids = g.definers v :=
  (hc.tracksDefs v).attachedDefs h

theorem TracksUses.attachedUses (hc : TracksUses c g) {ids : List OpId}
    (h : g.attachedUses c v = .ok ids) : ids = g.readers v :=
  eq_scan_of_liveAnswer hc.uses h

theorem Tracks.defCount (hc : Tracks c g) {m : Multiplicity} (h : g.defCount c v = .ok m) :
    m = .ofList (g.definers v) := by
  obtain ⟨ids, hids, h⟩ := Except.bind_eq_ok.mp h
  rw [← hc.attachedDefs hids, Except.pure_eq_ok.mp h]

theorem ofList_eq_one {ids : List OpId} {id : OpId} :
    Multiplicity.ofList ids = .one id ↔ ids = [id] := by
  unfold Multiplicity.ofList
  split <;> simp_all

theorem Tracks.definers_eq (hc : Tracks c g) {id : OpId} (h : g.defCount c v = .ok (.one id)) :
    g.definers v = [id] :=
  ofList_eq_one.mp (hc.defCount h).symm

theorem Tracks.definesAlone (hc : Tracks c g) {id : OpId} (h : g.definesAlone c id v = .ok true) :
    g.definers v = [id] := by
  obtain ⟨m, hm, h⟩ := Except.bind_eq_ok.mp h
  have hone : m = .one id := by simpa using Except.pure_eq_ok.mp h
  exact hc.definers_eq (hone ▸ hm)

end Graph
end ScalarLowering
