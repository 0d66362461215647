import Mathlib.Logic.Relation
import ScalarLowering.Lowering.Pass
import ScalarLowering.Proofs.Tracking

/-! Coherence of the graph with its latest snapshot: as long as the version is that of the
snapshot, the snapshot is the plain scan. Every operation on a graph is made of a few kinds of
moves, whether it succeeds or fails, and each of them keeps this. -/

namespace ScalarLowering
namespace Graph

variable {g g' : Graph} {c : Chains} {v : VarId}

structure Coherent (g : Graph) : Prop where
  linked : g.Linked
  version : ∀ {c : Chains}, g.cache.latest = some c → c.version ≤ g.version
  exact : ∀ {c : Chains}, g.cache.latest = some c → c.version = g.version → Exact c g

theorem coherent_empty (name : String) : (empty name).Coherent where
  linked := by
    have hops : ∀ {b block}, (empty name).block b = some block → block.ops = [] := by
      intro b block hb
      have hlt : b.index < 1 := block_eq_some_lt hb
      have hb : (#[{}] : Array Block)[b.index]? = some block := hb
      rw [Nat.lt_one_iff.mp hlt] at hb
      cases hb
      rfl
    refine ⟨fun {b block id} hb => ?_, fun {id b} h => ?_, fun hb => ?_⟩
    · simp [hops hb, blockOf, empty, op]
    · simp [blockOf, empty, op] at h
    · simp [hops hb]
  version := nofun
  exact := nofun

theorem Exact.of_sameScans (hc : Exact c g) (h : g.SameScans g') : Exact c g' := by
  have hvar : ∀ v, g'.var v = g.var v := fun v => by simp [var, h.vars]
  have hindex : ∀ v, g'.chainIndex v = g.chainIndex v := fun v => by simp [chainIndex, hvar]
  refine ⟨fun {v info} hv hd => ?_, fun {v info} hv hd => ?_, fun {v info} hv hd => ?_, fun v => ?_⟩
  · rw [h.definers, ← hc.defs (hvar v ▸ hv) hd, chainDefs, chainDefs, hindex]
  · rw [h.readers, ← hc.uses (hvar v ▸ hv) hd, chainUses, chainUses, hindex]
  · exact hc.dropped (hvar v ▸ hv) hd
  · rw [isTouched, h.touched]
    exact hc.untouched v

def Steady (g g' : Graph) : Prop := g.Coherent → g'.Coherent

instance : Std.Refl Steady := ⟨fun _ h => h⟩

instance : IsTrans Graph Steady := ⟨fun _ _ _ h h' hg => h' (h hg)⟩

theorem Grows.steady (h : g.Grows g') : g.Steady g' := by
  intro hg
  obtain ⟨hg', hext⟩ := h hg.linked
  refine ⟨hg', fun hc => ?_, fun hc hv => ?_⟩
  · rw [hext.latest] at hc
    exact Nat.le_trans (hg.version hc) hext.version
  · rw [hext.latest] at hc
    have hle := hg.version hc
    have heq : g'.version = g.version := Nat.le_antisymm (by omega) hext.version
    exact (hg.exact hc (by omega)).of_sameScans (hext.unchanged heq)

theorem Coherent.of_bump (hg : g.Coherent) (hlinked : g'.Linked)
    (hlatest : g'.cache.latest = g.cache.latest) (hversion : g'.version = g.version + 1) :
    g'.Coherent := by
  refine ⟨hlinked, fun hc => ?_, fun hc hv => ?_⟩
  · have := hg.version (hlatest ▸ hc)
    omega
  · have := hg.version (hlatest ▸ hc)
    omega

theorem steady_stripResult (id : OpId) (v : VarId) : g.Steady (g.stripResult id v) := fun hg =>
  hg.of_bump (hg.linked.stripResult id v) rfl rfl

theorem steady_dropUnmentioned : g.Steady g.dropUnmentioned.2 := by
  intro hg
  unfold dropUnmentioned
  dsimp only
  split
  · exact hg
  · exact hg.of_bump (hg.linked.of_blocks_eq (fun _ => rfl) fun _ => rfl) rfl rfl

/-- The two graphs run the same code: they differ in what is noted about the chains. -/
structure SameCode (g g' : Graph) : Prop where
  ops : g'.ops = g.ops
  blocks : g'.blocks = g.blocks
  entry : g'.entry = g.entry
  var : ∀ v, (g'.var v).map ({ · with index := none }) = (g.var v).map ({ · with index := none })

namespace SameCode

theorem refl (g : Graph) : g.SameCode g := ⟨rfl, rfl, rfl, fun _ => rfl⟩

theorem trans {g'' : Graph} (h : g.SameCode g') (h' : g'.SameCode g'') : g.SameCode g'' :=
  ⟨h'.ops.trans h.ops, h'.blocks.trans h.blocks, h'.entry.trans h.entry,
    fun v => (h'.var v).trans (h.var v)⟩

variable (h : g.SameCode g')
include h

theorem op_eq : g'.op = g.op := by
  funext id
  simp only [Graph.op, h.ops]

theorem block_eq : g'.block = g.block := by
  funext b
  simp only [Graph.block, h.blocks]

theorem attached_eq : g'.attached = g.attached := by simp only [Graph.attached, h.blocks]

theorem definers_eq : g'.definers = g.definers := by
  funext v
  simp only [definers, h.attached_eq, h.op_eq]

theorem readers_eq : g'.readers = g.readers := by
  funext v
  simp only [readers, h.attached_eq, h.op_eq]

end SameCode

def SameInfo (g g' : Graph) : Prop :=
  ∀ v, (g'.var v).map ({ · with index := none }) = (g.var v).map ({ · with index := none })

theorem SameInfo.var_eq_some {info : Variable} (h : g.SameInfo g') (hv : g.var v = some info) :
    ∃ info', g'.var v = some info' ∧ info'.kind = info.kind ∧ info'.type = info.type ∧
      info'.dropped = info.dropped := by
  have hmap := h v
  rw [hv, Option.map_some] at hmap
  obtain ⟨info', hinfo', heq⟩ := Option.map_eq_some_iff.mp hmap
  simp only [Variable.mk.injEq] at heq
  exact ⟨info', hinfo', heq.1, heq.2.1, heq.2.2.2⟩

theorem SameCode.size_vars (h : g.SameCode g') : g'.vars.size = g.vars.size := by
  have hsome : ∀ i, i < g'.vars.size ↔ i < g.vars.size := by
    intro i
    have := congrArg Option.isSome (h.var ⟨i⟩)
    rw [Bool.eq_iff_iff] at this
    simpa [Graph.var] using this
  exact Nat.le_antisymm (Nat.le_of_not_lt fun hlt => Nat.lt_irrefl _ ((hsome _).mp hlt))
    (Nat.le_of_not_lt fun hlt => Nat.lt_irrefl _ ((hsome _).mpr hlt))

theorem SameCode.mentionsKnown (h : g.SameCode g') : g'.mentionsKnown = g.mentionsKnown := by
  simp only [Graph.mentionsKnown, h.attached_eq, h.op_eq, h.size_vars]

theorem sameCode_refresh (h : g.refresh = some (c, g')) : g.SameCode g' := by
  have hvar := var_refresh h
  obtain ⟨-, rfl⟩ := refresh_eq_some.mp h
  refine ⟨rfl, rfl, rfl, fun v => ?_⟩
  rw [hvar, Option.map_map]
  rfl

theorem coherent_refresh (hg : g.Linked) (h : g.refresh = some (c, g')) : g'.Coherent := by
  have hexact := exact_refresh hg h
  have hc := hg.eq_scan_of_refresh h
  obtain ⟨-, rfl⟩ := refresh_eq_some.mp h
  refine ⟨hg.of_blocks_eq (fun _ => rfl) fun _ => rfl, fun {c'} hc' => ?_, fun {c'} hc' _ => ?_⟩
  · obtain rfl : c = c' := Option.some.inj hc'
    exact hc ▸ Nat.le_refl _
  · obtain rfl : c = c' := Option.some.inj hc'
    exact hexact

/-- One step of an operation: it edits the graph, takes away a result or the variables that
nothing mentions, refreshes chains that are out of date, or sets the checkpoint. -/
inductive Move (g : Graph) : Graph → Prop
  | edit {g' : Graph} : g.Grows g' → Move g g'
  | strip (id : OpId) (v : VarId) : Move g (g.stripResult id v)
  | drop : Move g g.dropUnmentioned.2
  | refresh {c : Chains} {g' : Graph} : g.cache.current? g.version = none →
    g.refresh = some (c, g') → Move g g'
  | checkpoint : Move g { g with cache := { g.cache with checkpoint := some g.cache.refreshes } }

def Moves : Graph → Graph → Prop := Relation.ReflTransGen Move

instance : Std.Refl Moves := ⟨fun _ => .refl⟩

instance : IsTrans Graph Moves := ⟨fun _ _ _ => .trans⟩

theorem Move.moves (h : Move g g') : g.Moves g' := .single h

theorem Grows.moves (h : g.Grows g') : g.Moves g' := (Move.edit h).moves

/-- What each move respects, every operation respects. -/
theorem Moves.lift {R : Graph → Graph → Prop} [Std.Refl R] [IsTrans Graph R]
    (hR : ∀ {a b}, Move a b → R a b) (h : g.Moves g') : R g g' := by
  induction h with
  | refl => exact Std.Refl.refl g
  | tail _ h ih => exact IsTrans.trans _ _ _ ih (hR h)

theorem Move.steady (h : Move g g') : g.Steady g' := by
  cases h with
  | edit h => exact h.steady
  | strip id v => exact steady_stripResult id v
  | drop => exact steady_dropUnmentioned
  | refresh _ h => exact fun hg => coherent_refresh hg.linked h
  | checkpoint =>
    exact fun hg => ⟨hg.linked.of_blocks_eq (fun _ => rfl) fun _ => rfl, hg.version,
      fun hc hv => (hg.exact hc hv).of_sameScans ⟨rfl, rfl, rfl, rfl⟩⟩

theorem Moves.steady (h : g.Moves g') : g.Steady g' := h.lift Move.steady

end Graph

namespace Edit

open ScalarLowering.Graph

variable {g g' : Graph} {c : Chains}

theorem snapshot_eq_ok : snapshot g = .ok c g' ↔
    g.cache.latest = some c ∧ c.version = g.version ∧ g' = g ∨
    g.cache.current? g.version = none ∧ g.refresh = some (c, g') := by
  unfold snapshot
  cases hc : g.cache.current? g.version with
  | some c' =>
    have hc' : g.cache.latest = some c' ∧ c'.version = g.version := by
      simpa [ChainCache.current?, Option.filter_eq_some_iff] using hc
    simp only [EStateM.Result.ok.injEq, reduceCtorEq, false_and, or_false]
    constructor
    · rintro ⟨rfl, rfl⟩
      exact ⟨hc'.1, hc'.2, rfl⟩
    · rintro ⟨h, -, rfl⟩
      exact ⟨Option.some.inj (hc'.1.symm.trans h), rfl⟩
  | none =>
    have hnone : ¬(g.cache.latest = some c ∧ c.version = g.version) := by
      intro h
      have hcurrent : g.cache.current? g.version = some c := by
        simpa [ChainCache.current?, Option.filter_eq_some_iff] using h
      simp [hc] at hcurrent
    simp only [← and_assoc, hnone, false_and, false_or, true_and]
    cases hr : g.refresh with
    | none => simp
    | some r => cases r; simp

theorem exists_snapshot (hg : g.mentionsKnown) : ∃ c g', snapshot g = .ok c g' := by
  cases hc : g.cache.current? g.version with
  | some c => exact ⟨c, g, by simp [snapshot, hc]⟩
  | none =>
    obtain ⟨c, g', h⟩ := exists_refresh hg
    exact ⟨c, g', snapshot_eq_ok.mpr (.inr ⟨hc, h⟩)⟩

/-- What a snapshot gives: the plain scan of the code, which stays as it was. -/
theorem snapshot_spec (hg : g.Coherent) (h : snapshot g = .ok c g') :
    Exact c g' ∧ g'.Coherent ∧ g.SameCode g' := by
  obtain ⟨hlatest, hversion, rfl⟩ | ⟨-, h⟩ := snapshot_eq_ok.mp h
  · exact ⟨hg.exact hlatest hversion, hg, .refl _⟩
  · exact ⟨exact_refresh hg.linked h, coherent_refresh hg.linked h, sameCode_refresh h⟩

theorem moves_snapshot : snapshot.Keeps Moves := by
  intro g
  cases h : snapshot g with
  | ok c g' =>
    rw [after_of_ok h]
    obtain ⟨-, -, rfl⟩ | ⟨hc, hr⟩ := snapshot_eq_ok.mp h
    · exact Std.Refl.refl g'
    · exact (Move.refresh hc hr).moves
  | error e g' =>
    have hg' : g' = g := by
      unfold snapshot at h
      split at h
      · cases h
      · split at h <;> cases h
        rfl
    rw [after_of_error h, hg']
    exact Std.Refl.refl g

theorem setCheckpoint_spec {u : Unit} (h : setCheckpoint g = .ok u g') :
    g.SameScans g' ∧ g.SameCode g' := by
  obtain rfl := modify_eq_ok.mp h
  exact ⟨⟨rfl, rfl, rfl, rfl⟩, rfl, rfl, rfl, fun _ => rfl⟩

theorem moves_setCheckpoint : setCheckpoint.Keeps Moves :=
  keeps_modify fun _ => Move.checkpoint.moves

theorem Keeps.moves {α : Type} {e : Edit α} (h : e.Keeps Grows) : e.Keeps Moves :=
  fun g => (h g).moves

theorem grows_fetch (user : OpId) (check : Bool) (source : Source) :
    (fetch user check source).Keeps Grows := by
  cases source with
  | value e => exact keeps_pure e
  | behind pointer t =>
    refine keeps_bind (keeps_query _) fun position => ?_
    refine keeps_bind (keeps_modifyGet fun g => grows_addVar .temporary t) fun temp => ?_
    exact keeps_bind (grows_insertBefore user _) fun _ => keeps_pure _

theorem grows_forward (c : Chains) (id : OpId) (result : VarId) (value : Expr) (stable : Bool) :
    (forward c id result value stable).Keeps Grows := by
  have hrest : ∀ redirects : Bool, (if redirects then do
      let _ ← redirectAll c result value
      let _ ← remove id .keep
      return redirects
    else do
      let _ ← substitute id (.copy result value) .keep
      return redirects : Edit Bool).Keeps Grows := by
    intro redirects
    split
    · exact keeps_bind (grows_redirectAll c result value) fun _ =>
        keeps_bind (grows_remove id .keep) fun _ => keeps_pure _
    · exact keeps_bind (grows_substitute id _ .keep) fun _ => keeps_pure _
  unfold forward
  dsimp only
  split
  · exact keeps_bind (keeps_query _) hrest
  · exact keeps_bind (keeps_pure false) hrest

theorem grows_lowerConstructor (p : Pool) (c : Chains) (call : OpId) :
    (lowerConstructor p c call).Keeps Grows := by
  refine keeps_bind (keeps_query _) fun copy => ?_
  cases copy with
  | none => exact keeps_pure _
  | some copy => exact keeps_bind (grows_substitute call copy .keep) fun _ => keeps_pure _

theorem grows_lowerEquality (p : Pool) (c : Chains) (call : OpId) :
    (lowerEquality p c call).Keeps Grows := by
  refine keeps_bind (keeps_query _) fun comparison => ?_
  cases comparison with
  | none => exact keeps_pure _
  | some comparison =>
    refine keeps_bind (keeps_query _) fun check => ?_
    exact keeps_bind (grows_fetch call check _) fun _ =>
      keeps_bind (grows_substitute call _ .keep) fun _ => keeps_pure _

theorem grows_lowerFieldLoad (p : Pool) (c : Chains) (load : OpId) :
    (lowerFieldLoad p c load).Keeps Grows := by
  refine keeps_bind (keeps_query _) fun read => ?_
  cases read with
  | none => exact keeps_pure _
  | some read =>
    refine keeps_bind (keeps_query _) fun check => ?_
    refine keeps_bind (grows_fetch load check read.source) fun value => ?_
    have hforward := fun stable => keeps_bind (grows_forward c load read.result value stable)
      fun _ => keeps_pure (R := Grows) true
    obtain ⟨result, source⟩ := read
    cases source with
    | value e => exact keeps_bind (keeps_query _) hforward
    | behind pointer t => exact keeps_bind (keeps_pure _) hforward

theorem grows_lowerFieldAddress (p : Pool) (c : Chains) (address : OpId) :
    (lowerFieldAddress p c address).Keeps Grows := by
  refine keeps_bind (keeps_query _) fun found => ?_
  rcases found with _ | (⟨result, addressed⟩ | ⟨result, pointer, stable⟩)
  · exact keeps_pure _
  · exact keeps_bind (grows_substitute address _ .keep) fun _ => keeps_pure _
  · exact keeps_bind (grows_forward c address result pointer stable) fun _ => keeps_pure _

theorem grows_foldLocal (p : Pool) (c : Chains) (address : OpId) :
    (foldLocal p c address).Keeps Grows := by
  refine keeps_bind (keeps_query _) fun fold => ?_
  have hremove : (remove address .discard >>= fun _ => pure true : Edit Bool).Keeps Grows :=
    keeps_bind (grows_remove address .discard) fun _ => keeps_pure _
  rcases fold with _ | (_ | load | ⟨load, loaded, addressed, stable⟩)
  · exact keeps_pure _
  · exact hremove
  · exact keeps_bind (grows_remove load .discard) fun _ => hremove
  · exact keeps_bind (grows_forward c load loaded addressed stable) fun _ => hremove

theorem grows_foldPlace (p : Pool) (c : Chains) (address : OpId) :
    (foldPlace p c address).Keeps Grows := by
  refine keeps_bind (keeps_query _) fun found => ?_
  have hremove : (remove address .discard >>= fun _ => pure true : Edit Bool).Keeps Grows :=
    keeps_bind (grows_remove address .discard) fun _ => keeps_pure _
  rcases found with _ | ⟨load, _ | direct⟩
  · exact keeps_pure _
  · exact keeps_bind (grows_remove load .discard) fun _ => hremove
  · exact keeps_bind (grows_substitute load direct .keep) fun _ => hremove

theorem moves_dropDefinition (c : Chains) (v : VarId) (id : OpId) :
    (dropDefinition c v id).Keeps Moves := by
  refine keeps_bind (keeps_query _) fun op => ?_
  have hrest : ∀ unread : Bool, (if unread then do
      let _ ← remove id .discard
      return true
    else do
      modify (·.stripResult id v)
      return true : Edit Bool).Keeps Moves := by
    intro unread
    split
    · exact keeps_bind (grows_remove id .discard).moves fun _ => keeps_pure _
    · exact keeps_bind (keeps_modify fun _ => (Move.strip id v).moves) fun _ => keeps_pure _
  dsimp only
  split
  · exact keeps_pure _
  · split
    · exact keeps_bind (keeps_query _) hrest
    · exact keeps_bind (keeps_pure _) hrest

theorem moves_dropDefinitions (c : Chains) (v : VarId) : (dropDefinitions c v).Keeps Moves := by
  refine keeps_bind (keeps_query _) fun info => ?_
  split
  · exact keeps_pure _
  · refine keeps_bind (keeps_query _) fun uses => ?_
    split
    · exact keeps_pure _
    · refine keeps_bind (keeps_query _) fun defs => ?_
      exact keeps_bind (keeps_sweep (moves_dropDefinition c v) defs) fun _ => keeps_pure _

theorem moves_deadRounds (n : Nat) : (deadRounds n).Keeps Moves := by
  induction n with
  | zero => exact keeps_pure _
  | succ n ih =>
    refine keeps_bind moves_snapshot fun c => keeps_bind (keeps_query _) fun vars => ?_
    refine keeps_bind (keeps_sweep (moves_dropDefinitions c) vars) fun count => ?_
    split
    · exact ih
    · exact keeps_pure _

theorem moves_eliminateDead : eliminateDead.Keeps Moves :=
  keeps_bind (keeps_query _) fun _ => keeps_bind (moves_deadRounds _) fun _ =>
    keeps_modifyGet fun _ => Move.drop.moves

theorem moves_batch {step : Chains → Edit Nat} (h : ∀ c, (step c).Keeps Grows) :
    (batch step).Keeps Moves :=
  keeps_bind moves_snapshot fun c => keeps_bind moves_setCheckpoint fun _ =>
    keeps_bind (h c).moves fun _ => keeps_bind (keeps_query _) fun _ => keeps_pure _

theorem moves_batch_sweep {edit : Chains → OpId → Edit Bool}
    (h : ∀ c id, (edit c id).Keeps Grows) (find : Graph → Except Error (List OpId)) :
    (batch fun c => do sweep (edit c) (← query find)).Keeps Moves :=
  moves_batch fun c => keeps_bind (keeps_query _) fun ids => keeps_sweep (h c) ids

theorem keeps_onlyIf {R : Graph → Graph → Prop} [Std.Refl R] {enabled : Bool} {step : Edit Nat}
    (h : step.Keeps R) : (onlyIf enabled step).Keeps R := by
  unfold onlyIf
  split
  · exact h
  · exact keeps_pure _

theorem moves_lowerWrappers (p : Pool) (config : Config) :
    (lowerWrappers p config).Keeps Moves :=
  keeps_bind (keeps_onlyIf (moves_batch_sweep (grows_lowerConstructor p) _)) fun _ =>
  keeps_bind (keeps_onlyIf (moves_batch_sweep (grows_lowerEquality p) _)) fun _ =>
  keeps_bind (keeps_onlyIf (moves_batch_sweep (grows_lowerFieldLoad p) _)) fun _ =>
  keeps_bind (keeps_onlyIf (moves_batch_sweep (grows_lowerFieldAddress p) _)) fun _ =>
  keeps_pure _

theorem moves_foldRoundTrips (p : Pool) : (foldRoundTrips p).Keeps Moves :=
  keeps_bind (moves_batch_sweep (grows_foldLocal p) _) fun _ =>
  keeps_bind (moves_batch_sweep (grows_foldPlace p) _) fun _ =>
  keeps_bind (moves_batch_sweep (grows_foldPlace p) _) fun _ => keeps_pure _

theorem moves_cleanUp (p : Pool) (config : Config) (stats : Stats) :
    (cleanUp p config stats).Keeps Moves :=
  keeps_bind (keeps_modifyGet fun _ => grows_updateReachability.moves) fun _ =>
  keeps_bind (keeps_onlyIf (moves_foldRoundTrips p)) fun _ =>
  keeps_bind (keeps_onlyIf moves_eliminateDead) fun _ => keeps_pure _

theorem moves_lower (p : Pool) (config : Config) : (lower p config).Keeps Moves := by
  refine keeps_bind (moves_lowerWrappers p config) fun stats => ?_
  have hrest : ∀ stats : Stats, (if config.verify then do
      query (·.verify)
      return stats
    else return stats : Edit Stats).Keeps Moves := by
    intro stats
    split
    · exact keeps_bind (keeps_query _) fun _ => keeps_pure _
    · exact keeps_pure _
  dsimp only
  split
  · exact keeps_bind (moves_cleanUp p config stats) hrest
  · exact keeps_bind (keeps_pure _) hrest

end Edit
end ScalarLowering
