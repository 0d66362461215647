import ScalarLowering.Proofs.LiveQueries
import ScalarLowering.Proofs.Spliced

/-! Redirecting all readers of a variable. However stale the snapshot is that the readers are
taken from, the redirection reaches every attached operator that reads the variable and changes
nothing else. -/

namespace ScalarLowering
namespace Graph

variable {g g' : Graph} {c : Chains} {id : OpId} {op : Operator} {v : VarId} {e : Expr}

def operands (g : Graph) : List Expr := g.attached.flatMap fun id => (g.op id).elim [] (·.args)

theorem Linked.mentionsKnown_iff_mentioned (hg : g.Linked) :
    g.mentionsKnown ↔ ∀ v ∈ g.mentioned, v.index < g.vars.size := by
  simp only [mentionsKnown, List.all_eq_true, mem_mentioned]
  constructor
  · rintro h v ⟨id, hid, op, hop, hv⟩
    have hall := h id hid
    rw [hop, Option.any_some, List.all_eq_true] at hall
    exact of_decide_eq_true (hall v hv)
  · intro h id hid
    obtain ⟨op, -, hop, -⟩ := hg.exists_op_of_mem hid
    rw [hop, Option.any_some, List.all_eq_true]
    exact fun v hv => decide_eq_true (h v ⟨id, hid, op, hop, hv⟩)

theorem mem_mentioned_iff_scan :
    v ∈ g.mentioned ↔ (∃ id, id ∈ g.readers v) ∨ ∃ id, id ∈ g.definers v := by
  simp only [mem_readers, mem_definers, mem_mentioned, mem_mentions]
  constructor
  · rintro ⟨id, hid, op, hop, hv | hv⟩
    · exact .inl ⟨id, hid, op, hop, hv⟩
    · exact .inr ⟨id, hid, op, hop, hv⟩
  · rintro (⟨id, hid, op, hop, hv⟩ | ⟨id, hid, op, hop, hv⟩)
    · exact ⟨id, hid, op, hop, .inl hv⟩
    · exact ⟨id, hid, op, hop, .inr hv⟩

/-- The cached snapshot is of this version only if the code mentions known variables. -/
structure Acquainted (g : Graph) : Prop extends Coherent g where
  known : ∀ {c : Chains}, g.cache.latest = some c → c.version = g.version → g.mentionsKnown

theorem Acquainted.of_bump (hg : g.Acquainted) (hg' : g'.Coherent)
    (hlatest : g'.cache.latest = g.cache.latest) (hversion : g.version < g'.version) :
    g'.Acquainted where
  toCoherent := hg'
  known hc hv := by
    have := hg.version (hlatest ▸ hc)
    omega

theorem Acquainted.of_sameCode (hg : g.Acquainted) (hg' : g'.Coherent) (h : g.SameCode g')
    (hlatest : g'.cache.latest = g.cache.latest) (hversion : g'.version = g.version) :
    g'.Acquainted where
  toCoherent := hg'
  known hc hv := by
    rw [h.mentionsKnown]
    exact hg.known (hlatest ▸ hc) (hv.trans hversion)

theorem Acquainted.grows (hg : g.Acquainted) (h : g.Grows g') : g'.Acquainted := by
  obtain ⟨hlinked', hext⟩ := h hg.linked
  refine ⟨h.steady hg.toCoherent, fun {c} hc hv => ?_⟩
  rw [hext.latest] at hc
  have hsame : g'.version = g.version :=
    Nat.le_antisymm (hv ▸ hg.version hc) hext.version
  have hscans := hext.unchanged hsame
  rw [hlinked'.mentionsKnown_iff_mentioned]
  intro v hmem
  rw [mem_mentioned_iff_scan, hscans.readers, hscans.definers, ← mem_mentioned_iff_scan] at hmem
  rw [hscans.vars]
  exact hg.linked.mentionsKnown_iff_mentioned.mp (hg.known hc (hv.trans hsame)) v hmem

theorem Acquainted.move (hg : g.Acquainted) (h : Move g g') : g'.Acquainted := by
  have hg' := h.steady hg.toCoherent
  cases h with
  | edit h => exact hg.grows h
  | strip id v => exact hg.of_bump hg' rfl (Nat.lt_succ_self _)
  | drop =>
    unfold dropUnmentioned at hg' ⊢
    dsimp only at hg' ⊢
    split
    · exact hg
    · rename_i hdead
      rw [if_neg hdead] at hg'
      exact hg.of_bump hg' rfl (Nat.lt_succ_self _)
  | refresh _ h =>
    refine ⟨hg', fun _ _ => ?_⟩
    rw [(sameCode_refresh h).mentionsKnown]
    exact mentionsKnown_of_refresh h
  | checkpoint => exact hg.of_sameCode hg' ⟨rfl, rfl, rfl, fun _ => rfl⟩ rfl rfl

theorem Acquainted.moves (hg : g.Acquainted) (h : g.Moves g') : g'.Acquainted := by
  induction h with
  | refl => exact hg
  | tail _ h ih => exact ih.move h

theorem Built.acquainted (hg : g.Built) : g.Acquainted := by
  obtain ⟨name, hmoves⟩ := hg.moves
  exact Acquainted.moves ⟨coherent_empty name, fun hc => by cases hc⟩ hmoves

/-- A graph that a snapshot can be had of mentions known variables only. -/
theorem Built.mentionsKnown_of_snapshot (hg : g.Built) (h : Edit.snapshot g = .ok c g') :
    g'.mentionsKnown := by
  obtain ⟨hlatest, hversion, rfl⟩ | ⟨-, h⟩ := Edit.snapshot_eq_ok.mp h
  · exact hg.acquainted.known hlatest hversion
  · rw [(sameCode_refresh h).mentionsKnown]
    exact mentionsKnown_of_refresh h

/-- A snapshot gives the readers of a variable after any changes, if it knows the variable or an
operator mentions it. -/
theorem attachedUses_changed {g₁ : Graph} {info : Variable} (hg : g.Built)
    (hs : Edit.snapshot g = .ok c g₁) (changes : List Change)
    (hv : (g₁.changed changes).var v = some info) (hlive : info.dropped = false)
    (hcase : v.index < g₁.vars.size ∨ v ∈ (g₁.changed changes).mentioned) :
    Tracks c (g₁.changed changes) ∧
      (g₁.changed changes).attachedUses c v = .ok ((g₁.changed changes).readers v) := by
  obtain ⟨hexact, hg₁, -⟩ := Edit.snapshot_spec hg.coherent hs
  obtain ⟨hlinked, hext⟩ := grows_changed g₁ changes hg₁.linked
  have htracks := (hexact.tracks hg₁.linked).extends hext hlinked
  refine ⟨htracks, ?_⟩
  by_cases hold : v.index < g₁.vars.size
  · have hv₁ : g₁.var v = some info := hext.var hold ▸ hv
    have hchain : (g₁.changed changes).chainUses c v = .ok (g₁.readers v) := by
      rw [← hexact.uses hv₁ hlive]
      simp only [chainUses, chainIndex, hv, hv₁]
    exact liveAnswer_eq_scan htracks.uses fun _ => hchain
  · have htouched := hext.isTouched_of_mentioned hg₁.linked hlinked
      (hg.mentionsKnown_of_snapshot hs) (Nat.le_of_not_lt hold) (hcase.resolve_left hold)
    exact liveAnswer_eq_ok.mpr (.inl ⟨htouched, rfl⟩)

theorem count_readers (g : Graph) (v : VarId) :
    ((g.readers v).flatMap fun id => (g.op id).elim [] (·.args)).count (.var v) =
      g.operands.count (.var v) := by
  have hzero : ∀ id, (g.op id).any (·.readsVar v) = false →
      ((g.op id).elim [] (·.args)).count (.var v) = 0 := by
    intro id hid
    cases hop : g.op id with
    | none => rfl
    | some op =>
      rw [hop, Option.any_some] at hid
      simpa [List.count_eq_zero, Operator.readsVar, Operator.reads, Expr.var?_eq_some] using hid
  rw [operands, readers]
  induction g.attached with
  | nil => rfl
  | cons id ids ih =>
    rw [List.flatMap_cons, List.count_append, ← ih, List.filter_cons]
    cases hid : (g.op id).any (·.readsVar v) with
    | true => rw [if_pos rfl, List.flatMap_cons, List.count_append]
    | false => rw [if_neg Bool.false_ne_true, hzero id hid, Nat.zero_add]

theorem notMem_args_substitute (he : e ≠ .var v) : .var v ∉ (op.substitute v e).args := by
  intro h
  obtain ⟨a, -, ha⟩ := List.mem_map.mp h
  split at ha
  · exact he ha
  · contradiction

end Graph

namespace Edit

open ScalarLowering.Graph

variable {g g' : Graph} {c : Chains} {id : OpId} {op : Operator} {v : VarId} {e : Expr}

theorem exists_redirect (hop : g.op id = some op) (hatt : op.isAttached) (v : VarId) (e : Expr) :
    ∃ g', redirect id v e g = .ok (op.occurrences v) g' :=
  ⟨_, redirect_eq_ok.mpr ⟨op, hop, hatt, rfl, rfl⟩⟩

/-- Each operator of a list without repetitions counts what it had before any was changed. -/
theorem exists_redirectEach {ids : List OpId} (hg : g.Linked) (hids : ids.Nodup)
    (hatt : ∀ id ∈ ids, id ∈ g.attached) (v : VarId) (e : Expr) : ∃ g', redirectEach v e ids g =
      .ok ((ids.flatMap fun id => (g.op id).elim [] (·.args)).count (.var v)) g' := by
  induction ids generalizing g with
  | nil => exact ⟨g, rfl⟩
  | cons id ids ih =>
    obtain ⟨hnot, hids⟩ := List.nodup_cons.mp hids
    obtain ⟨op, b, hop, hb⟩ := hg.exists_op_of_mem (hatt id List.mem_cons_self)
    obtain ⟨g₁, hfirst⟩ := exists_redirect hop (by simp [Operator.isAttached, hb]) v e
    have h₁ := redirect_spec hfirst
    obtain ⟨g₂, hrest⟩ := ih (h₁.grows hg).1 hids fun x hx =>
      h₁.attached_eq ▸ hatt x (List.mem_cons_of_mem _ hx)
    have hother : (ids.flatMap fun x => (g₁.op x).elim [] (·.args)) =
        ids.flatMap fun x => (g.op x).elim [] (·.args) := by
      refine List.flatMap_congr fun x hx => ?_
      rw [h₁.op, if_neg]
      intro hmem
      obtain rfl := List.mem_singleton.mp hmem
      exact hnot hx
    refine ⟨g₂, bind_eq_ok.mpr ⟨_, g₁, hfirst, bind_eq_ok.mpr ⟨_, g₂, hrest, ?_⟩⟩⟩
    rw [hother, List.flatMap_cons, List.count_append, hop, Option.elim_some]
    exact pure_eq_ok.mpr ⟨rfl, rfl⟩

/-- Redirecting all readers by a snapshot that any changes have made stale succeeds, counts the
arguments that are the variable, and puts the expression for exactly those. -/
theorem redirectAll_complete {g g₁ h : Graph} {c : Chains} {v : VarId} {info : Variable} {e : Expr}
    (hg : g.Built) (hs : snapshot g = .ok c g₁) (changes : List Change)
    (hh : h = g₁.changed changes) (hv : h.var v = some info) (hlive : info.dropped = false)
    (hcase : v.index < g₁.vars.size ∨ v ∈ h.mentioned) (he : e ≠ .var v) :
    ∃ h', redirectAll c v e h = .ok (h.operands.count (.var v)) h' ∧
      (∀ {id op}, id ∈ h.attached → h.op id = some op → ∃ op', h'.op id = some op' ∧
        op' = { op with args := op.args.map fun a => if a = .var v then e else a } ∧
        .var v ∉ op'.args) ∧
      (∀ {id}, id ∉ h.attached → h'.op id = h.op id) ∧ h'.ops.size = h.ops.size ∧
      h'.blocks = h.blocks ∧ h'.entry = h.entry ∧ h'.vars = h.vars := by
  subst hh
  obtain ⟨htracks, huses⟩ := attachedUses_changed hg hs changes hv hlive hcase
  have hg₁ := (snapshot_spec hg.coherent hs).2.1
  have hlinked := (grows_changed g₁ changes hg₁.linked).1
  have hnodup : ((g₁.changed changes).readers v).Nodup := hlinked.nodup_attached.filter _
  obtain ⟨h', hredirect⟩ := exists_redirectEach hlinked hnodup
    (fun id hid => (mem_readers.mp hid).1) v e
  rw [count_readers] at hredirect
  have hok : redirectAll c v e (g₁.changed changes) = .ok _ h' :=
    query_bind_eq_ok.mpr ⟨_, huses, hredirect⟩
  obtain ⟨hrewired, hop'⟩ := redirectAll_spec hlinked htracks hok
  refine ⟨h', hok, fun {id op} hid hop => ?_, fun {id} hid => ?_, hrewired.size, hrewired.blocks,
    hrewired.entry, hrewired.vars⟩
  · exact ⟨op.substitute v e, by rw [hop' id hid, hop, Option.map_some], rfl,
      notMem_args_substitute he⟩
  · rw [hrewired.op, if_neg fun h => hid (mem_readers.mp h).1]

/-- Compares the copy with itself once it is returned: the snapshot knows neither reader. -/
def sampleRereads : List Change :=
  sampleChanges ++ [.insertBefore ⟨1⟩ (.compare .eq ⟨2⟩ (.var ⟨1⟩) (.var ⟨1⟩))]

theorem redirectAll_complete_rereads : ∃ c g₁ h',
    snapshot ((Graph.empty "f").changed sampleProgram) = .ok c g₁ ∧
      redirectAll c ⟨1⟩ (.var ⟨0⟩) (g₁.changed sampleRereads) = .ok 3 h' ∧
      (h'.op ⟨1⟩).map (·.args) = some [.var ⟨0⟩] ∧
      (h'.op ⟨3⟩).map (·.args) = some [.var ⟨0⟩, .var ⟨0⟩] := by
  obtain ⟨c, g₁, hs⟩ := exists_snapshot (g := (Graph.empty "f").changed sampleProgram) (by decide)
  obtain rfl := after_of_ok hs
  obtain ⟨h', hok, hop, -⟩ := redirectAll_complete ((Built.empty "f").changed sampleProgram) hs
    sampleRereads rfl (v := ⟨1⟩) (e := .var ⟨0⟩) rfl (by decide) (.inr (by decide)) (by decide)
  refine ⟨c, _, h', hs, hok, ?_, ?_⟩
  · obtain ⟨op', hop', rfl, -⟩ := @hop ⟨1⟩ _ (by decide) rfl
    rw [hop']
    rfl
  · obtain ⟨op', hop', rfl, -⟩ := @hop ⟨3⟩ _ (by decide) rfl
    rw [hop']
    rfl

end Edit
end ScalarLowering
