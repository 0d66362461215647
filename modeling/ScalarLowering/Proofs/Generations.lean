import ScalarLowering.Proofs.Histories

/-! Snapshots over a whole history of a graph. The generation counts the refreshes, modulo its
width, and every index carries that of the latest refresh. A snapshot that was handed out is
the latest one or an older one; the older ones have another generation, so no index reads
them, and a version that is past. -/

namespace ScalarLowering

/-- What an operation hands out: a snapshot and the graph it was taken of. -/
def Operation.taken : Operation → Graph → List (Chains × Graph)
  | .snapshot, g =>
    match Edit.snapshot g with
    | .ok c g' => [(c, g')]
    | .error _ _ => []
  | _, _ => []

namespace Graph

variable {g g' taken : Graph} {c : Chains} {v : VarId}

def handedOut (g : Graph) : List Operation → List (Chains × Graph)
  | [] => []
  | o :: operations => o.taken g ++ (o.apply g).handedOut operations

/-- The snapshot is the plain scan of the live variables, which are numbered in order. -/
structure Numbers (c : Chains) (g : Graph) : Prop where
  definitions : c.definitions = (g.liveVars.map g.definers).toArray
  uses : c.uses = (g.liveVars.map g.readers).toArray
  indices : g.liveVars.map (fun v => (g.var v).bind (·.index)) =
    (List.range c.size).map fun slot => some ⟨c.generation, slot⟩

/-- The stamps of the cache: the generation counts refreshes and is that of every index. -/
structure Stamped (g : Graph) : Prop where
  generation : g.cache.generation = UInt32.ofNat g.cache.refreshes
  latest : ∀ {c : Chains}, g.cache.latest = some c → c.generation = g.cache.generation
  index : ∀ {v : VarId} {i : ChainIndex}, g.chainIndex v = .ok i → i.generation = g.cache.generation
  numbers : ∀ {c : Chains}, g.cache.latest = some c → c.version = g.version → Numbers c g

/-- What has become of a snapshot: it is the latest one, and indices were only lost since it was
taken, or the chains were refreshed since. -/
def Kept (c : Chains) (taken g : Graph) : Prop :=
  g.cache.latest = some c ∧ (∀ {v i}, g.chainIndex v = .ok i → taken.chainIndex v = .ok i) ∨
  c.version < g.version ∧ ∃ n < g.cache.refreshes, c.generation = UInt32.ofNat n

theorem SameCode.liveVars (h : g.SameCode g') : g'.liveVars = g.liveVars := by
  unfold Graph.liveVars varIds
  rw [h.size_vars]
  refine List.filter_congr fun v _ => ?_
  have hv := congrArg (Option.any fun info : Variable => !info.dropped) (h.var v)
  rwa [Option.any_map, Option.any_map] at hv

theorem liveVars_of_vars_eq (h : g'.vars = g.vars) : g'.liveVars = g.liveVars := by
  unfold liveVars varIds var
  rw [h]

theorem numbers_refresh (hg : g.Linked) (h : g.refresh = some (c, g')) : Numbers c g' := by
  have hlive := (sameCode_refresh h).liveVars
  have hvar := var_refresh h
  have hc := hg.eq_scan_of_refresh h
  obtain ⟨-, hg'⟩ := refresh_eq_some.mp h
  have hdefinitions : c.definitions = (g'.liveVars.map g'.definers).toArray := by
    rw [hlive, hc, hg']
    rfl
  have huses : c.uses = (g'.liveVars.map g'.readers).toArray := by
    rw [hlive, hc, hg']
    rfl
  refine ⟨hdefinitions, huses, List.ext_getElem (by simp [Chains.size, hdefinitions]) ?_⟩
  intro slot hslot _
  rw [List.length_map] at hslot
  have hmem : g'.liveVars[slot] ∈ g.liveVars := hlive ▸ List.getElem_mem hslot
  obtain ⟨info, hinfo, hd⟩ := mem_liveVars.mp hmem
  have hplace := getElem?_liveVars hinfo hd
  rw [← hlive] at hplace
  obtain ⟨_, hplace⟩ := List.getElem?_eq_some_iff.mp hplace
  have hnext : g.nextIndex g'.liveVars[slot] = ⟨c.generation, slot⟩ := by
    rw [nextIndex, nodup_liveVars.getElem_inj_iff.mp hplace, hc]
    rfl
  simp [hvar, hinfo, hd, hnext]

theorem Numbers.of_sameScans (hc : Numbers c g) (h : g.SameScans g') : Numbers c g' := by
  have hlive := liveVars_of_vars_eq h.vars
  have hvar : ∀ v, g'.var v = g.var v := fun v => by simp [var, h.vars]
  refine ⟨?_, ?_, ?_⟩
  · rw [hlive, h.definers, hc.definitions]
  · rw [hlive, h.readers, hc.uses]
  · simp only [hlive, hvar, hc.indices]

/-- The cache stays coherent and stamped, and snapshots handed out before are kept. -/
def Remembers (g g' : Graph) : Prop := g.Coherent → g.Stamped →
  g'.Coherent ∧ g'.Stamped ∧ ∀ {c : Chains} {taken : Graph}, Kept c taken g → Kept c taken g'

instance : Std.Refl Remembers := ⟨fun _ hg hs => ⟨hg, hs, fun h => h⟩⟩

instance : IsTrans Graph Remembers := by
  refine ⟨fun a b d hab hbd ha hs => ?_⟩
  obtain ⟨hb, hsb, hkb⟩ := hab ha hs
  obtain ⟨hd, hsd, hkd⟩ := hbd hb hsb
  exact ⟨hd, hsd, fun h => hkd (hkb h)⟩

theorem remembers_of_cache (hg' : g.Coherent → g'.Coherent)
    (hcache : g'.cache = { g.cache with
      touched := g'.cache.touched, checkpoint := g'.cache.checkpoint })
    (hversion : g.version ≤ g'.version)
    (hindex : ∀ {v i}, g'.chainIndex v = .ok i → g.chainIndex v = .ok i)
    (hsame : ∀ {c}, Numbers c g → g'.version = g.version → Numbers c g') : g.Remembers g' := by
  have hlatest : g'.cache.latest = g.cache.latest := by rw [hcache]
  have hgeneration : g'.cache.generation = g.cache.generation := by rw [hcache]
  have hrefreshes : g'.cache.refreshes = g.cache.refreshes := by rw [hcache]
  intro hg hs
  refine ⟨hg' hg, ⟨?_, ?_, ?_, ?_⟩, ?_⟩
  · rw [hgeneration, hrefreshes, hs.generation]
  · intro c hc
    rw [hgeneration, hs.latest (hlatest ▸ hc)]
  · intro v i hi
    rw [hgeneration, hs.index (hindex hi)]
  · intro c hc hv
    rw [hlatest] at hc
    have hle := hg.version hc
    have heq : g'.version = g.version := Nat.le_antisymm (hv ▸ hle) hversion
    exact hsame (hs.numbers hc (hv.trans heq)) heq
  · rintro c taken (⟨hc, hi⟩ | ⟨hv, n, hn, hgen⟩)
    · exact .inl ⟨hlatest.trans hc, fun h => hi (hindex h)⟩
    · exact .inr ⟨Nat.lt_of_lt_of_le hv hversion, n, hrefreshes ▸ hn, hgen⟩

theorem Grows.remembers (h : g.Grows g') : g.Remembers g' := by
  intro hg
  have hext := (h hg.linked).2
  refine remembers_of_cache h.steady (by rw [hext.cache]) hext.version hext.chainIndex
    (fun hc hv => hc.of_sameScans (hext.unchanged hv)) hg

theorem chainIndex_dropUnmentioned {i : ChainIndex}
    (h : g.dropUnmentioned.2.chainIndex v = .ok i) : g.chainIndex v = .ok i := by
  unfold dropUnmentioned at h
  dsimp only at h
  split at h
  · exact h
  · obtain ⟨info', hinfo', hi⟩ := chainIndex_eq_ok.mp h
    have hmap : (g.var v).map (fun info => if g.isUnmentioned v info then
        { info with dropped := true, index := none } else info) = some info' := by
      simpa [var] using hinfo'
    obtain ⟨info, hinfo, rfl⟩ := Option.map_eq_some_iff.mp hmap
    refine chainIndex_eq_ok.mpr ⟨info, hinfo, ?_⟩
    split at hi
    · cases hi
    · exact hi

theorem remembers_dropUnmentioned : g.Remembers g.dropUnmentioned.2 := by
  by_cases hdead : (g.varIds.filter fun v => (g.var v).any (g.isUnmentioned v)).isEmpty
  · have hsame : g.dropUnmentioned.2 = g := if_pos hdead
    rw [hsame]
    exact Std.Refl.refl g
  · have hbump : ∃ vars, g.dropUnmentioned.2 = { g with vars }.bump := ⟨_, if_neg hdead⟩
    obtain ⟨vars, hbump⟩ := hbump
    refine remembers_of_cache steady_dropUnmentioned ?_ ?_ chainIndex_dropUnmentioned ?_
    · rw [hbump]
      rfl
    · simp [hbump]
    · intro c _ hv
      simp [hbump] at hv

theorem remembers_refresh (hc : g.cache.current? g.version = none) (h : g.refresh = some (c, g')) :
    g.Remembers g' := by
  intro hg hs
  have hnumbers := numbers_refresh hg.linked h
  have hvar := var_refresh h
  have hg'' := coherent_refresh hg.linked h
  have hchains := hg.linked.eq_scan_of_refresh h
  obtain ⟨-, hg'⟩ := refresh_eq_some.mp h
  have hgeneration : g'.cache.generation = g.cache.generation + 1 := by rw [hg']
  have hrefreshes : g'.cache.refreshes = g.cache.refreshes + 1 := by rw [hg']
  have hversion : g'.version = g.version := hg' ▸ rfl
  have hlatest : g'.cache.latest = some c := by rw [hg']
  refine ⟨hg'', ⟨?_, ?_, ?_, ?_⟩, ?_⟩
  · rw [hgeneration, hrefreshes, hs.generation, UInt32.ofNat_add]
    rfl
  · intro c' hc'
    obtain rfl : c = c' := Option.some.inj (hlatest.symm.trans hc')
    rw [hgeneration, hchains]
    rfl
  · intro v i hi
    obtain ⟨info', hinfo', hi⟩ := chainIndex_eq_ok.mp hi
    rw [hvar] at hinfo'
    obtain ⟨info, -, rfl⟩ := Option.map_eq_some_iff.mp hinfo'
    rw [hgeneration]
    dsimp only at hi
    split at hi
    · cases hi
    · rw [← Option.some.inj hi]
      rfl
  · intro c' hc' _
    obtain rfl : c = c' := Option.some.inj (hlatest.symm.trans hc')
    exact hnumbers
  · -- whatever was the latest snapshot is out of date, or there were no refresh
    rintro old taken (⟨hold, -⟩ | ⟨hv, n, hn, hgen⟩)
    · have hle := hg.version hold
      have hne : old.version ≠ g.version := by
        intro heq
        simp [ChainCache.current?, hold, heq] at hc
      refine .inr ⟨by omega, g.cache.refreshes, by omega, ?_⟩
      rw [hs.latest hold, hs.generation]
    · exact .inr ⟨by omega, n, by omega, hgen⟩

theorem Move.remembers (h : Move g g') : g.Remembers g' := by
  cases h with
  | edit h => exact h.remembers
  | strip id v =>
    exact remembers_of_cache (steady_stripResult id v) rfl (Nat.le_succ _) (fun h => h)
      fun _ hv => absurd hv (Nat.succ_ne_self _)
  | drop => exact remembers_dropUnmentioned
  | refresh hc h => exact remembers_refresh hc h
  | checkpoint =>
    exact remembers_of_cache (Move.checkpoint.steady) rfl (Nat.le_refl _) (fun h => h)
      fun hc _ => hc.of_sameScans ⟨rfl, rfl, rfl, rfl⟩

theorem Moves.remembers (h : g.Moves g') : g.Remembers g' := h.lift Move.remembers

theorem stamped_empty (name : String) : (empty name).Stamped where
  generation := rfl
  latest := nofun
  index h := by
    obtain ⟨info, hinfo, -⟩ := chainIndex_eq_ok.mp h
    exact absurd (var_eq_some_lt hinfo) (Nat.not_lt_zero _)
  numbers := nofun

theorem latest_of_snapshot (h : Edit.snapshot g = .ok c g') : g'.cache.latest = some c := by
  obtain ⟨hc, -, rfl⟩ | ⟨-, h⟩ := Edit.snapshot_eq_ok.mp h
  · exact hc
  · obtain ⟨-, rfl⟩ := refresh_eq_some.mp h
    rfl

theorem numbers_snapshot (hg : g.Coherent) (hs : g.Stamped) (h : Edit.snapshot g = .ok c g') :
    Numbers c g' := by
  obtain ⟨hc, hv, rfl⟩ | ⟨-, h⟩ := Edit.snapshot_eq_ok.mp h
  · exact hs.numbers hc hv
  · exact numbers_refresh hg.linked h

theorem mem_taken {o : Operation} : (c, taken) ∈ o.taken g ↔
    o = .snapshot ∧ Edit.snapshot g = .ok c taken := by
  cases o with
  | snapshot =>
    simp only [Operation.taken, true_and]
    split
    · rename_i h
      simp [h, eq_comm]
    · rename_i h
      simp [h]
  | _ => simp [Operation.taken]

/-- Every snapshot handed out was exact when it was taken, and is kept from then on. -/
theorem kept_of_mem_handedOut (hg : g.Coherent) (hs : g.Stamped) {operations : List Operation}
    (h : (c, taken) ∈ g.handedOut operations) :
    Exact c taken ∧ Kept c taken (g.operated operations) := by
  induction operations generalizing g with
  | nil => cases h
  | cons o operations ih =>
    obtain ⟨hg', hs', -⟩ := (moves_operation o g).remembers hg hs
    obtain h | h := List.mem_append.mp h
    · obtain ⟨rfl, hsnapshot⟩ := mem_taken.mp h
      have hafter : Operation.snapshot.apply g = taken := Edit.after_of_ok hsnapshot
      have hkept : Kept c taken (Operation.snapshot.apply g) :=
        .inl ⟨hafter ▸ latest_of_snapshot hsnapshot, fun hi => hafter ▸ hi⟩
      exact ⟨(Edit.snapshot_spec hg hsnapshot).1,
        ((moves_operated _ operations).remembers hg' hs').2.2 hkept⟩
    · exact ih hg' hs' h

theorem chainIndex_eq_error (hv : v.index < g.vars.size) {e : Error}
    (h : g.chainIndex v = .error e) : e = .chain (.unindexed v) := by
  obtain ⟨info, hinfo⟩ := exists_var hv
  simp only [chainIndex, hinfo, Error.lift_some_bind] at h
  split at h
  · cases h
  · exact (Except.error.inj h).symm

/-- What a snapshot that was taken of an earlier graph says of a variable now. -/
inductive Reads (c : Chains) (taken g : Graph) (v : VarId) : Prop
  /-- The snapshot is that of the latest refresh and gives the variable's own chains. -/
  | chain : g.cache.latest = some c → c.generation.toNat = g.cache.refreshes →
    g.chainDefs c v = .ok (taken.definers v) → g.chainUses c v = .ok (taken.readers v) →
    Reads c taken g v
  | unindexed : g.chainDefs c v = .error (.chain (.unindexed v)) →
    g.chainUses c v = .error (.chain (.unindexed v)) → Reads c taken g v
  | stale (index : UInt32) : g.chainDefs c v = .error (.chain (.staleIndex index c.generation)) →
    g.chainUses c v = .error (.chain (.staleIndex index c.generation)) → Reads c taken g v

theorem Kept.reads (hkept : Kept c taken g) (hexact : Exact c taken) (hs : g.Stamped)
    (hrefreshes : g.cache.refreshes < UInt32.size) (hv : v.index < g.vars.size) : Reads c taken g v := by
  have hnumber : ∀ n < 2 ^ 32, (UInt32.ofNat n).toNat = n := fun n hn =>
    UInt32.toNat_ofNat_of_lt' hn
  cases hindex : g.chainIndex v with
  | error e =>
    obtain rfl := chainIndex_eq_error hv hindex
    exact .unindexed (by rw [chainDefs, hindex]; rfl) (by rw [chainUses, hindex]; rfl)
  | ok i =>
    obtain ⟨hc, hlost⟩ | ⟨-, n, hn, hgeneration⟩ := hkept
    · -- the index is the one of the time when the snapshot was taken
      have htaken : taken.chainIndex v = .ok i := hlost hindex
      obtain ⟨info, hinfo, hi⟩ := chainIndex_eq_ok.mp htaken
      have hlive : info.dropped = false := by
        by_contra hd
        rw [hexact.dropped hinfo (by simpa using hd)] at hi
        cases hi
      refine .chain hc ?_ ?_ ?_
      · rw [hs.latest hc, hs.generation, hnumber _ hrefreshes]
      · rw [chainDefs, hindex, ← htaken]
        exact hexact.defs hinfo hlive
      · rw [chainUses, hindex, ← htaken]
        exact hexact.uses hinfo hlive
    · have hne : i.generation ≠ c.generation := by
        rw [hs.index hindex, hs.generation, hgeneration]
        intro heq
        have := congrArg UInt32.toNat heq
        rw [hnumber _ hrefreshes, hnumber n (Nat.lt_trans hn hrefreshes)] at this
        omega
      have hslot : c.slotOf i = .error (.chain (.staleIndex i.generation c.generation)) := if_neg hne
      exact .stale i.generation
        (Except.bind_eq_error.mpr (.inr ⟨i, hindex, Except.bind_eq_error.mpr (.inl hslot)⟩))
        (Except.bind_eq_error.mpr (.inr ⟨i, hindex, Except.bind_eq_error.mpr (.inl hslot)⟩))

/-- The snapshot gives the plain scan for every live variable, and numbers these in order. -/
structure Scans (c : Chains) (g : Graph) : Prop extends Numbers c g where
  defs : ∀ v ∈ g.liveVars, ∃ ids, g.chainDefs c v = .ok ids ∧ g.Lists ids (v ∈ ·.results)
  reads : ∀ v ∈ g.liveVars, ∃ ids, g.chainUses c v = .ok ids ∧ g.Lists ids (.var v ∈ ·.args)
  dropped : ∀ {v : VarId} {info : Variable}, g.var v = some info → info.dropped →
    info.index = none

theorem Exact.scans (hg : g.Linked) (hc : Exact c g) (hn : Numbers c g) : Scans c g where
  toNumbers := hn
  defs v hv := by
    obtain ⟨info, hinfo, hlive⟩ := mem_liveVars.mp hv
    exact ⟨_, hc.defs hinfo hlive, hg.lists_definers v⟩
  reads v hv := by
    obtain ⟨info, hinfo, hlive⟩ := mem_liveVars.mp hv
    exact ⟨_, hc.uses hinfo hlive, hg.lists_readers v⟩
  dropped := hc.dropped

/-- The cache of the chains is coherent over a whole history: a snapshot taken now is the plain
scan, one handed out before is read only if it is the latest, and it is current only if it
still is the plain scan. -/
theorem snapshots_coherent {name : String} {operations : List Operation} {g : Graph}
    (hg : (empty name).operated operations = g) (hrefreshes : g.cache.refreshes < UInt32.size)
    (hknown : g.mentionsKnown) :
    (∃ c g', Edit.snapshot g = .ok c g' ∧ g.SameCode g' ∧ Scans c g') ∧
    ∀ c taken, (c, taken) ∈ (empty name).handedOut operations →
      (∀ v : VarId, v.index < g.vars.size → Reads c taken g v) ∧ (c.isCurrent g → Scans c g) := by
  obtain ⟨hcoherent, hstamped, -⟩ := (moves_operated (empty name) operations).remembers
    (coherent_empty name) (stamped_empty name)
  rw [hg] at hcoherent hstamped
  refine ⟨?_, fun c taken hmem => ?_⟩
  · obtain ⟨c, g', hsnapshot⟩ := Edit.exists_snapshot hknown
    obtain ⟨hexact, hg', hcode⟩ := Edit.snapshot_spec hcoherent hsnapshot
    have hnumbers := numbers_snapshot hcoherent hstamped hsnapshot
    exact ⟨c, g', hsnapshot, hcode, hexact.scans hg'.linked hnumbers⟩
  · obtain ⟨hexact, hkept⟩ :=
      kept_of_mem_handedOut (coherent_empty name) (stamped_empty name) hmem
    rw [hg] at hkept
    refine ⟨fun v hv => hkept.reads hexact hstamped hrefreshes hv, fun hcurrent => ?_⟩
    have hversion : c.version = g.version := of_decide_eq_true hcurrent
    obtain ⟨hc, -⟩ | ⟨hlt, -⟩ := hkept
    · exact (hcoherent.exact hc hversion).scans hcoherent.linked (hstamped.numbers hc hversion)
    · omega

/-- Takes a snapshot before and after a program is changed. -/
def sampleSnapshots : List Operation :=
  sampleProgram.map .change ++ .snapshot :: sampleChanges.map .change ++
    [.snapshot, .change .addBlock]

theorem snapshots_coherent_after_copy : ∃ old taken latest taken',
    (empty "f").handedOut sampleSnapshots = [(old, taken), (latest, taken')] ∧
    Reads old taken ((empty "f").operated sampleSnapshots) ⟨1⟩ ∧
    Reads latest taken' ((empty "f").operated sampleSnapshots) ⟨1⟩ := by
  obtain ⟨-, h⟩ := snapshots_coherent
    (show (empty "f").operated sampleSnapshots = _ from rfl) (by decide) (by decide)
  exact ⟨_, _, _, _, rfl, (h _ _ (List.mem_cons_self ..)).1 ⟨1⟩ (by decide),
    (h _ _ (List.mem_cons_of_mem _ (List.mem_cons_self ..))).1 ⟨1⟩ (by decide)⟩

end Graph
end ScalarLowering
