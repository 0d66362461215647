import ScalarLowering.Proofs.Linked

/-! What edits can do to a graph between two refreshes of the chains. Old operators keep
their order, are never attached again, and read the same variables unless these were
touched; new operators only mention touched variables. This is a preorder, and every edit
stays within it. -/

namespace ScalarLowering
namespace Graph

structure SameScans (g g' : Graph) : Prop where
  vars : g'.vars = g.vars
  definers : g'.definers = g.definers
  readers : g'.readers = g.readers
  touched : g'.cache.touched = g.cache.touched

/-- The second graph comes from the first by edits. -/
structure Extends (g g' : Graph) : Prop where
  size_ops : g.ops.size ≤ g'.ops.size
  order : g'.attached.filter (fun id => id.index < g.ops.size) = g.attached.filter g'.isAttached
  attached : ∀ {id : OpId}, id.index < g.ops.size → g'.isAttached id → g.isAttached id
  touched : ∀ {v : VarId}, g.isTouched v → g'.isTouched v
  size_vars : g.vars.size ≤ g'.vars.size
  var : ∀ {v : VarId}, v.index < g.vars.size → g'.var v = g.var v
  newVar : ∀ {v : VarId} {info : Variable}, g.vars.size ≤ v.index → g'.var v = some info →
    info.index = none ∧ info.dropped = false
  oldOp : ∀ {id : OpId} {op' : Operator}, id.index < g.ops.size → g'.op id = some op' →
    ∃ op, g.op id = some op ∧ op'.kind = op.kind ∧ op'.results = op.results ∧
      op'.flags = op.flags ∧ ∀ v, g'.isTouched v = false → op'.readsVar v = op.readsVar v
  newOp : ∀ {id : OpId} {op' : Operator} {v : VarId}, g.ops.size ≤ id.index →
    g'.op id = some op' → v ∈ op'.mentions → g'.isTouched v
  cache : g'.cache = { g.cache with touched := g'.cache.touched }
  version : g.version ≤ g'.version
  unchanged : g'.version = g.version → g.SameScans g'

theorem mem_mentions {op : Operator} {v : VarId} :
    v ∈ op.mentions ↔ op.readsVar v ∨ op.definesVar v := by
  simp [Operator.mentions, Operator.readsVar, Operator.definesVar]

theorem mem_mentioned {g : Graph} {v : VarId} : v ∈ g.mentioned ↔
    ∃ id ∈ g.attached, ∃ op, g.op id = some op ∧ v ∈ op.mentions := by
  unfold mentioned
  simp only [List.mem_flatMap]
  refine exists_congr fun id => and_congr_right fun _ => ?_
  cases g.op id <;> simp

theorem Extends.refl (g : Graph) (hg : g.Linked) : g.Extends g where
  size_ops := Nat.le_refl _
  order := by
    rw [List.filter_eq_self.mpr, List.filter_eq_self.mpr]
    · exact fun id hid => hg.mem_attached.mp hid
    · exact fun id hid => by simpa using hg.lt_of_mem hid
  attached := fun _ h => h
  touched := fun h => h
  size_vars := Nat.le_refl _
  var := fun _ => rfl
  newVar := fun h hv => absurd (var_eq_some_lt hv) (by omega)
  oldOp := fun _ h => ⟨_, h, rfl, rfl, rfl, fun _ _ => rfl⟩
  newOp := fun h hop => absurd (op_eq_some_lt hop) (by omega)
  cache := rfl
  version := Nat.le_refl _
  unchanged := fun _ => ⟨rfl, rfl, rfl, rfl⟩

theorem Extends.order_trans {a b c : Graph} (ha : a.Linked) (hab : a.Extends b)
    (hbc : b.Extends c) :
    c.attached.filter (fun id => id.index < a.ops.size) = a.attached.filter c.isAttached := by
  have hsize := hab.size_ops
  calc c.attached.filter (fun id => id.index < a.ops.size)
      = (c.attached.filter fun id => id.index < b.ops.size).filter
          (fun id => id.index < a.ops.size) := by
        rw [List.filter_filter]
        apply List.filter_congr
        intro id _
        by_cases h : id.index < a.ops.size
        · simp [h, Nat.lt_of_lt_of_le h hsize]
        · simp [h]
    _ = (b.attached.filter fun id => id.index < a.ops.size).filter c.isAttached := by
        rw [hbc.order, List.filter_filter, List.filter_filter]
        simp only [Bool.and_comm]
    _ = a.attached.filter c.isAttached := by
        rw [hab.order, List.filter_filter]
        apply List.filter_congr
        intro id hid
        have hlt : id.index < b.ops.size := Nat.lt_of_lt_of_le (ha.lt_of_mem hid) hsize
        by_cases hc : c.isAttached id
        · simp [hc, hbc.attached hlt hc]
        · simp [hc]

theorem Extends.trans {a b c : Graph} (ha : a.Linked) (hab : a.Extends b) (hbc : b.Extends c) :
    a.Extends c where
  size_ops := Nat.le_trans hab.size_ops hbc.size_ops
  order := hab.order_trans ha hbc
  attached := fun hid h => hab.attached hid (hbc.attached (Nat.lt_of_lt_of_le hid hab.size_ops) h)
  touched := fun h => hbc.touched (hab.touched h)
  size_vars := Nat.le_trans hab.size_vars hbc.size_vars
  var := fun hv => by
    rw [hbc.var (Nat.lt_of_lt_of_le hv hab.size_vars), hab.var hv]
  newVar := fun {v info} hv hinfo => by
    by_cases hb : v.index < b.vars.size
    · exact hab.newVar hv (hbc.var hb ▸ hinfo)
    · exact hbc.newVar (Nat.le_of_not_lt hb) hinfo
  oldOp := fun {id op''} hid hop => by
    obtain ⟨op', hop', hk', hr', hf', hreads'⟩ :=
      hbc.oldOp (Nat.lt_of_lt_of_le hid hab.size_ops) hop
    obtain ⟨op, hop, hk, hr, hf, hreads⟩ := hab.oldOp hid hop'
    refine ⟨op, hop, hk'.trans hk, hr'.trans hr, hf'.trans hf, fun v hv => ?_⟩
    have hb : b.isTouched v = false := by
      by_contra h
      simp [hbc.touched (by simpa using h)] at hv
    exact (hreads' v hv).trans (hreads v hb)
  newOp := fun {id op'' v} hid hop hv => by
    by_cases hb : id.index < b.ops.size
    · obtain ⟨op', hop', -, hr', -, hreads'⟩ := hbc.oldOp hb hop
      by_contra h
      have hc : c.isTouched v = false := by simpa using h
      have hmem : v ∈ op'.mentions := by
        rw [mem_mentions] at hv ⊢
        rwa [← hreads' v hc, Operator.definesVar, ← hr']
      exact h (hbc.touched (hab.newOp hid hop' hmem))
    · exact hbc.newOp (Nat.le_of_not_lt hb) hop hv
  cache := by rw [hbc.cache, hab.cache]
  version := Nat.le_trans hab.version hbc.version
  unchanged := fun h => by
    have hv := hab.version
    have hv' := hbc.version
    have h₁ := hab.unchanged (by omega)
    have h₂ := hbc.unchanged (by omega)
    exact ⟨h₂.vars.trans h₁.vars, h₂.definers.trans h₁.definers, h₂.readers.trans h₁.readers,
      h₂.touched.trans h₁.touched⟩

theorem Extends.latest {g g' : Graph} (h : g.Extends g') : g'.cache.latest = g.cache.latest := by
  rw [h.cache]

theorem Extends.refreshes {g g' : Graph} (h : g.Extends g') :
    g'.cache.refreshes = g.cache.refreshes := by
  rw [h.cache]

theorem Extends.checkpoint {g g' : Graph} (h : g.Extends g') :
    g'.cache.checkpoint = g.cache.checkpoint := by
  rw [h.cache]

/-- What every edit does: membership is kept, and the new graph extends the old one. -/
def Grows (g g' : Graph) : Prop := g.Linked → g'.Linked ∧ g.Extends g'

instance : Std.Refl Grows := ⟨fun g hg => ⟨hg, .refl g hg⟩⟩

instance : IsTrans Graph Grows := ⟨fun _ _ _ hab hbc ha =>
  have hb := hab ha
  have hc := hbc hb.1
  ⟨hc.1, hb.2.trans ha hc.2⟩⟩

section

variable {g g' : Graph} {place : Place} {old : OpId}

theorem blocks_of_block {f : Block → Block} (h : ∀ b, g'.block b = (g.block b).map f) :
    g'.blocks = g.blocks.map f := by
  apply Array.ext_getElem?
  intro i
  simpa [block] using h ⟨i⟩

theorem attached_of_blocks {φ : OpId → List OpId}
    (h : ∀ b, g'.block b = (g.block b).map fun block => { block with ops := block.ops.flatMap φ }) :
    g'.attached = g.attached.flatMap φ := by
  simp [attached, blocks_of_block h, List.flatMap_map, List.flatMap_assoc]

theorem filter_flatMap_splice {n : Nat} {l ids : List OpId} (hl : ∀ id ∈ l, id.index < n)
    (hids : ids.filter (·.index < n) = if old ∈ ids then [old] else []) :
    (l.flatMap (splice old ids)).filter (·.index < n) =
      l.filter fun id => id ≠ old || old ∈ ids := by
  induction l with
  | nil => rfl
  | cons id l ih =>
    have ih := ih fun j hj => hl j (by simp [hj])
    rw [List.flatMap_cons, List.filter_append, ih]
    by_cases hid : id = old
    · subst hid
      rw [splice_self, hids]
      by_cases hmem : id ∈ ids <;> simp [hmem]
    · have hlt := hl id (by simp)
      rw [splice_of_ne ids hid]
      simp [hid, hlt]

/-- A splice extends the graph if the operators besides the spliced one stay as they are. -/
theorem Extends.of_splice {ids : List OpId} (hg : g.Linked) (hg' : g'.Linked)
    (hblocks : ∀ c, g'.block c = (g.block c).map fun block =>
      { block with ops := block.ops.flatMap (splice old ids) })
    (hids : ids.filter (·.index < g.ops.size) = if old ∈ ids then [old] else [])
    (hsize : g.ops.size ≤ g'.ops.size) (hvars : g'.vars = g.vars)
    (htouched : ∀ {v}, g.isTouched v → g'.isTouched v)
    (hop : ∀ {id op'}, id.index < g.ops.size → g'.op id = some op' → ∃ op, g.op id = some op ∧
      op'.kind = op.kind ∧ op'.results = op.results ∧ op'.flags = op.flags ∧ op'.args = op.args)
    (hnew : ∀ {id op' v}, g.ops.size ≤ id.index → g'.op id = some op' → v ∈ op'.mentions →
      g'.isTouched v) (hcache : g'.cache = { g.cache with touched := g'.cache.touched })
    (hversion : g.version < g'.version) : g.Extends g' := by
  have hattached := attached_of_blocks hblocks
  have hmem : ∀ {id}, id.index < g.ops.size →
      (g'.isAttached id ↔ id ∈ g.attached ∧ (id ≠ old ∨ old ∈ ids)) := by
    intro id hid
    have hold : id ∈ ids → id = old := by
      intro h
      have hf : id ∈ ids.filter (·.index < g.ops.size) := by simp [h, hid]
      rw [hids] at hf
      split at hf <;> simp_all
    rw [← hg'.mem_attached, hattached, mem_flatMap_splice]
    grind
  exact {
    size_ops := hsize
    order := by
      rw [hattached, filter_flatMap_splice (fun id hid => hg.lt_of_mem hid) hids]
      apply List.filter_congr
      intro id hid
      have := hmem (hg.lt_of_mem hid)
      by_cases h : g'.isAttached id <;> simp_all
    attached := fun hid h => hg.mem_attached.mp ((hmem hid).mp h).1
    touched := htouched
    size_vars := hvars ▸ Nat.le_refl _
    var := fun _ => by simp [Graph.var, hvars]
    newVar := fun hv hinfo => absurd (var_eq_some_lt hinfo) (by rw [hvars]; omega)
    oldOp := fun hid h => by
      obtain ⟨op, hop, hk, hr, hf, ha⟩ := hop hid h
      exact ⟨op, hop, hk, hr, hf, fun v _ => by simp [Operator.readsVar, Operator.reads, ha]⟩
    newOp := hnew
    cache := hcache
    version := Nat.le_of_lt hversion
    unchanged := fun h => absurd h (by omega) }

theorem grows_replaceAt (hp : g.placeOf old = .ok place) (new : Operator) :
    g.Grows (g.replaceAt place old new).2 := by
  intro hg
  have hlt := lt_of_placeOf hp
  have hne : (⟨g.ops.size⟩ : OpId) ≠ old := by
    rintro rfl
    simp at hlt
  refine ⟨hg.replaceAt new hp, .of_splice hg (hg.replaceAt new hp) (hg.block_replaceAt new hp)
    (by simp [hne.symm]) ?_ ?_ ?_ ?_ ?_ (cache_pushOp g new place.block) (by simp [replaceAt, detach])⟩
  · simp [replaceAt, detach]
  · simp [replaceAt, detach]
  · intro v hv
    simp [replaceAt, detach, hv]
  · intro id op' hid h
    rw [op_replaceAt new hlt, if_neg (by omega)] at h
    split at h
    · obtain ⟨op, hop, rfl⟩ := Option.map_eq_some_iff.mp h
      exact ⟨op, hop, rfl, rfl, rfl, rfl⟩
    · exact ⟨op', h, rfl, rfl, rfl, rfl⟩
  · intro id op' v hid h hv
    rw [op_replaceAt new hlt] at h
    split at h
    · cases h
      have hv : v ∈ new.mentions := hv
      simp [replaceAt, detach, hv]
    · have hold : id ≠ old := by
        rintro rfl
        omega
      rw [if_neg hold] at h
      exact absurd (op_eq_some_lt h) (by omega)

theorem grows_insertAt (hp : g.placeOf old = .ok place) (new : Operator) :
    g.Grows (g.insertAt place new).2 := by
  intro hg
  have hlt := lt_of_placeOf hp
  refine ⟨hg.insertAt new hp, .of_splice hg (hg.insertAt new hp) (hg.block_insertAt new hp)
    (by simp [hlt]) ?_ ?_ ?_ ?_ ?_ (cache_pushOp g new place.block) (by simp [insertAt])⟩
  · simp [insertAt]
  · simp [insertAt]
  · intro v hv
    simp [insertAt, hv]
  · intro id op' hid h
    rw [op_insertAt, if_neg (by omega)] at h
    exact ⟨op', h, rfl, rfl, rfl, rfl⟩
  · intro id op' v hid h hv
    rw [op_insertAt] at h
    split at h
    · cases h
      have hv : v ∈ new.mentions := hv
      simp [insertAt, hv]
    · exact absurd (op_eq_some_lt h) (by omega)

theorem grows_eraseAt (hp : g.placeOf old = .ok place) : g.Grows (g.eraseAt place old) := by
  intro hg
  refine ⟨hg.eraseAt hp, .of_splice hg (hg.eraseAt hp) (hg.block_eraseAt hp) (by simp) ?_ ?_ ?_ ?_ ?_
    rfl (by simp [eraseAt, detach, clearPosition])⟩
  · simp [eraseAt, detach, clearPosition]
  · simp [eraseAt, detach, clearPosition]
  · intro v hv
    simpa [eraseAt, detach, clearPosition] using hv
  · intro id op' hid h
    rw [op_eraseAt] at h
    split at h
    · obtain ⟨op, hop, rfl⟩ := Option.map_eq_some_iff.mp h
      exact ⟨op, hop, rfl, rfl, rfl, rfl⟩
    · exact ⟨op', h, rfl, rfl, rfl, rfl⟩
  · intro id op' v hid h hv
    have hsize : (g.eraseAt place old).ops.size = g.ops.size := by
      simp [eraseAt, detach, clearPosition]
    exact absurd (op_eq_some_lt h) (by omega)

/-- An edit that moves no operator and adds none extends the graph if the variables whose
readers it changes are touched. -/
theorem Extends.of_attached_eq (hg : g.Linked) (hattached : g'.attached = g.attached)
    (hof : ∀ id, g'.blockOf id = g.blockOf id) (hsize : g'.ops.size = g.ops.size)
    (htouched : ∀ {v}, g.isTouched v → g'.isTouched v) (hvars : g.vars.size ≤ g'.vars.size)
    (hvar : ∀ {v : VarId}, v.index < g.vars.size → g'.var v = g.var v)
    (hnew : ∀ {v : VarId} {info}, g.vars.size ≤ v.index → g'.var v = some info →
      info.index = none ∧ info.dropped = false)
    (hop : ∀ {id op'}, g'.op id = some op' → ∃ op, g.op id = some op ∧
      op'.kind = op.kind ∧ op'.results = op.results ∧ op'.flags = op.flags ∧
      ∀ v, g'.isTouched v = false → op'.readsVar v = op.readsVar v)
    (hcache : g'.cache = { g.cache with touched := g'.cache.touched })
    (hversion : g.version ≤ g'.version)
    (hunchanged : g'.version = g.version → g.SameScans g') : g.Extends g' where
  size_ops := hsize ▸ Nat.le_refl _
  order := by
    have hatt : g'.isAttached = g.isAttached := by
      funext id
      rw [isAttached_eq_isSome, isAttached_eq_isSome, hof]
    rw [hattached, hatt]
    exact (Extends.refl g hg).order
  attached := fun _ h => by rwa [isAttached_eq_isSome, hof, ← isAttached_eq_isSome] at h
  touched := htouched
  size_vars := hvars
  var := hvar
  newVar := hnew
  oldOp := fun _ h => hop h
  newOp := fun hid h => absurd (op_eq_some_lt h) (by omega)
  cache := hcache
  version := hversion
  unchanged := hunchanged

theorem readsVar_substitute_of_ne {op : Operator} {v w : VarId} {e : Expr} (hv : w ≠ v)
    (he : e ≠ .var w) : (op.substitute v e).readsVar w = op.readsVar w := by
  have hw : ∀ {op : Operator}, op.readsVar w ↔ Expr.var w ∈ op.args := by
    intro op
    simp [Operator.readsVar, Operator.reads, Expr.var?_eq_some]
  rw [Bool.eq_iff_iff, hw, hw]
  simp only [Operator.substitute, List.mem_map]
  constructor
  · rintro ⟨a, ha, h⟩
    split at h
    · exact absurd h he
    · exact h ▸ ha
  · intro h
    exact ⟨_, h, by simp [hv]⟩

theorem isTouched_redirectAt (target : OpId) (v w : VarId) (e : Expr) :
    (g.redirectAt target v e).isTouched w =
      (decide (e = .var w) || decide (w = v) || g.isTouched w) := by
  cases e <;> simp [redirectAt, Expr.var?, eq_comm, Bool.or_assoc]

theorem grows_redirectAt (target : OpId) (v : VarId) (e : Expr) :
    g.Grows (g.redirectAt target v e) := by
  intro hg
  have hversion : (g.redirectAt target v e).version = g.version + 1 := by
    cases e <;> simp [redirectAt, Expr.var?]
  refine ⟨hg.redirectAt target v e, .of_attached_eq hg ?_ ?_ ?_ ?_ ?_ ?_ ?_ ?_ ?_ (by omega)
    fun h => absurd h (by omega)⟩
  · cases e <;> simp [redirectAt, Expr.var?]
  · exact fun id => blockOf_redirectAt v e target id
  · cases e <;> simp [redirectAt, Expr.var?]
  · intro w hw
    simp [isTouched_redirectAt, hw]
  · cases e <;> simp [redirectAt, Expr.var?]
  · intro w _
    cases e <;> simp [redirectAt, Expr.var?]
  · intro w info hw hinfo
    have hsize : (g.redirectAt target v e).vars = g.vars := by
      cases e <;> simp [redirectAt, Expr.var?]
    have := var_eq_some_lt hinfo
    rw [hsize] at this
    omega
  · intro id op' h
    rw [op_redirectAt] at h
    split at h
    · obtain ⟨op, hop, rfl⟩ := Option.map_eq_some_iff.mp h
      refine ⟨op, hop, rfl, rfl, rfl, fun w hw => ?_⟩
      simp only [isTouched_redirectAt, Bool.or_eq_false_iff, decide_eq_false_iff_not] at hw
      exact readsVar_substitute_of_ne hw.1.2 hw.1.1
    · exact ⟨op', h, rfl, rfl, rfl, fun _ _ => rfl⟩
  · cases e <;> rfl

theorem grows_clearPosition (target : OpId) : g.Grows (g.clearPosition target) := by
  intro hg
  refine ⟨hg.clearPosition target, .of_attached_eq hg rfl (fun id => blockOf_clearPosition target id)
    ?_ ?_ ?_ ?_ ?_ ?_ rfl (Nat.le_refl _) fun _ => ⟨rfl, ?_, ?_, rfl⟩⟩
  · simp [clearPosition]
  · exact fun h => h
  · exact Nat.le_refl _
  · exact fun _ => rfl
  · exact fun hv hinfo => absurd (var_eq_some_lt (g := g) hinfo) (by omega)
  · intro id op' h
    rw [op_clearPosition] at h
    split at h
    · obtain ⟨op, hop, rfl⟩ := Option.map_eq_some_iff.mp h
      exact ⟨op, hop, rfl, rfl, rfl, fun _ _ => rfl⟩
    · exact ⟨op', h, rfl, rfl, rfl, fun _ _ => rfl⟩
  · funext v
    refine List.filter_congr fun id _ => ?_
    rw [op_clearPosition]
    split <;> cases g.op id <;> rfl
  · funext v
    refine List.filter_congr fun id _ => ?_
    rw [op_clearPosition]
    split <;> cases g.op id <;> rfl

theorem grows_addVar (kind : VarKind) (t : TypeId) : g.Grows (g.addVar kind t).2 := by
  intro hg
  refine ⟨hg.addVar kind t, .of_attached_eq hg rfl (fun _ => rfl) rfl (fun h => h) ?_ ?_ ?_ ?_ rfl
    (by simp) fun h => absurd h (by simp)⟩
  · simp
  · intro v hv
    rw [var_addVar, if_neg (by omega)]
  · intro v info hv hinfo
    rw [var_addVar] at hinfo
    split at hinfo
    · cases hinfo
      exact ⟨rfl, rfl⟩
    · exact absurd (var_eq_some_lt hinfo) (by omega)
  · exact fun h => ⟨_, h, rfl, rfl, rfl, fun _ _ => rfl⟩

theorem grows_addBlock : g.Grows g.addBlock.2 := by
  intro hg
  exact ⟨hg.addBlock, .of_attached_eq hg (attached_addBlock g) (fun _ => rfl) rfl (fun h => h)
    (Nat.le_refl _) (fun _ => rfl)
    (fun hv hinfo => absurd (var_eq_some_lt (g := g) hinfo) (by omega))
    (fun h => ⟨_, h, rfl, rfl, rfl, fun _ _ => rfl⟩) rfl (by simp) fun h => absurd h (by simp)⟩

theorem attached_modifyBlock_append {b : BlockId} {id : OpId} {p : OpId → Bool} (hid : p id = false) :
    (g.modifyBlock b (· ++ [id])).attached.filter p = g.attached.filter p := by
  have hflat : ∀ (blocks : List Block) (i : Nat), ((blocks.modify i fun block =>
      ({ block with ops := block.ops ++ [id] } : Block)).flatMap (·.ops)).filter p =
      (blocks.flatMap (·.ops)).filter p := by
    intro blocks
    induction blocks with
    | nil => simp
    | cons block blocks ih =>
      intro i
      cases i with
      | zero => simp [hid]
      | succ i => simp [ih]
  simpa [attached, modifyBlock] using hflat g.blocks.toList b.index

theorem grows_append {op : Operator} {b : BlockId} {i : OpId} (h : g.append b op = some (i, g')) :
    g.Grows g' := by
  intro hg
  have hg' := hg.append h
  have hop := op_append h
  obtain ⟨-, -, rfl⟩ := append_eq_some.mp h
  have hatt : ∀ {id : OpId}, id.index < g.ops.size → (((g.pushOp op b).2.modifyBlock b
      (· ++ [⟨g.ops.size⟩])).bump.isAttached id = g.isAttached id) := by
    intro id hid
    simp only [isAttached, hop, if_neg (Nat.ne_of_lt hid)]
  refine ⟨hg', ?_, ?_, ?_, ?_, ?_, ?_, ?_, ?_, ?_, cache_pushOp g op b, by simp,
    fun h => absurd h (by simp)⟩
  · simp
  · rw [attached_bump, attached_modifyBlock_append (by simp), attached_pushOp,
      (Extends.refl g hg).order]
    exact List.filter_congr fun id hid => (hatt (hg.lt_of_mem hid)).symm
  · intro id hid h
    rwa [hatt hid] at h
  · intro v hv
    simp [hv]
  · simp
  · simp
  · intro v info hv hinfo
    rw [var_bump, var_modifyBlock, var_pushOp] at hinfo
    exact absurd (var_eq_some_lt hinfo) (by omega)
  · intro id op' hid h
    rw [hop, if_neg (by omega)] at h
    exact ⟨op', h, rfl, rfl, rfl, fun _ _ => rfl⟩
  · intro id op' v hid h hv
    rw [hop] at h
    split at h
    · cases h
      have hv : v ∈ op.mentions := hv
      simp [hv]
    · exact absurd (op_eq_some_lt h) (by omega)

theorem Linked.attached_updateReachability (hg : g.Linked) :
    g.updateReachability.2.attached = g.attached.filter (· ∉ g.swept) := by
  have hops : ∀ {b block}, g.block b = some block → block.ops.filter (· ∉ g.swept) =
      if b ∈ g.unreached then [] else block.ops := by
    intro b block hb
    have hswept : ∀ id ∈ block.ops, id ∈ g.swept ↔ b ∈ g.unreached := by
      intro id hid
      rw [hg.mem_swept, (hg.listed hb).mp hid]
      simp
    split
    · rename_i hu
      exact List.filter_eq_nil_iff.mpr fun id hid => by simp [(hswept id hid).mpr hu]
    · rename_i hu
      exact List.filter_eq_self.mpr fun id hid => by simpa [hswept id hid] using hu
  have hblocks : g.updateReachability.2.blocks.map (·.ops) =
      g.blocks.map fun block => block.ops.filter (· ∉ g.swept) := by
    apply Array.ext_getElem?
    intro i
    have hi := block_updateReachability (g := g) ⟨i⟩
    simp only [block] at hi
    rw [Array.getElem?_map, Array.getElem?_map, hi]
    cases hb : g.blocks[i]? with
    | none => rfl
    | some block =>
      simp only [Option.map_some, hops (b := ⟨i⟩) hb]
      by_cases hu : ⟨i⟩ ∈ g.unreached <;> simp [hu]
  have hflat : ∀ (blocks : Array Block) (f : Block → List OpId),
      blocks.toList.flatMap f = (blocks.map f).toList.flatten := by
    intro blocks f
    rw [Array.toList_map, List.flatMap_def]
  rw [attached, hflat, hblocks, attached, List.filter_flatMap, hflat]

theorem version_updateReachability : g.updateReachability.2.version =
    if g.deadBlocks.isEmpty then g.version else g.version + 1 := by
  unfold updateReachability
  dsimp only
  split <;> rfl

theorem version_le_updateReachability : g.version ≤ g.updateReachability.2.version := by
  rw [version_updateReachability]
  split <;> omega

theorem swept_eq_nil (h : g.updateReachability.2.version = g.version) : g.swept = [] := by
  rw [version_updateReachability] at h
  split at h
  · rename_i hdead
    simp [swept, List.isEmpty_iff.mp hdead]
  · omega

theorem grows_updateReachability : g.Grows g.updateReachability.2 := by
  intro hg
  have hg' := hg.updateReachability
  have hatt : ∀ {id : OpId}, g.updateReachability.2.isAttached id ↔
      g.isAttached id ∧ id ∉ g.swept := by
    intro id
    rw [isAttached, op_updateReachability, isAttached]
    by_cases hs : id ∈ g.swept
    · cases g.op id <;> simp [hs, Operator.isAttached]
    · simp [hs]
  refine ⟨hg', ?_, ?_, ?_, ?_, ?_, ?_, ?_, ?_, ?_, by rw [cache_updateReachability],
    version_le_updateReachability, ?_⟩
  · simp
  · rw [hg.attached_updateReachability, List.filter_filter]
    apply List.filter_congr
    intro id hid
    have hlt := hg.lt_of_mem hid
    have := hg.mem_attached.mp hid
    rw [Bool.eq_iff_iff, hatt]
    simp [hlt, this]
  · exact fun _ h => (hatt.mp h).1
  · intro v hv
    simpa [isTouched] using hv
  · simp
  · intro v _
    simp [Graph.var]
  · intro v info hv hinfo
    exact absurd (var_eq_some_lt hinfo) (by simpa using hv)
  · intro id op' _ h
    rw [op_updateReachability] at h
    split at h
    · obtain ⟨op, hop, rfl⟩ := Option.map_eq_some_iff.mp h
      exact ⟨op, hop, rfl, rfl, rfl, fun _ _ => rfl⟩
    · exact ⟨op', h, rfl, rfl, rfl, fun _ _ => rfl⟩
  · intro id op' v hid h
    have := op_eq_some_lt h
    rw [size_ops_updateReachability] at this
    omega
  · intro h
    have hswept := swept_eq_nil h
    have hop : ∀ id, g.updateReachability.2.op id = g.op id := by
      intro id
      rw [op_updateReachability, hswept, if_neg List.not_mem_nil]
    have hattached : g.updateReachability.2.attached = g.attached := by
      rw [hg.attached_updateReachability, hswept]
      simp
    refine ⟨vars_updateReachability, ?_, ?_, congrArg _ cache_updateReachability⟩
    · funext v
      simp only [definers, hop, hattached]
    · funext v
      simp only [readers, hop, hattached]

end

end Graph

namespace Edit

open ScalarLowering.Graph

theorem grows_substitute (old : OpId) (new : Operator) (policy : Policy) :
    (substitute old new policy).Keeps Grows := by
  refine keeps_query_bind fun g place hp => ?_
  rw [after_query_bind]
  split
  · cases policy with
    | keep => exact grows_replaceAt hp _
    | discard =>
      exact IsTrans.trans _ _ _ (grows_clearPosition (g := g) old)
        (grows_replaceAt (placeOf_clearPosition old hp) new)
  · exact Std.Refl.refl g

theorem grows_insertBefore (anchor : OpId) (new : Operator) :
    (insertBefore anchor new).Keeps Grows :=
  keeps_query_bind fun _ _ hp => grows_insertAt hp new

theorem grows_remove (id : OpId) (policy : Policy) : (remove id policy).Keeps Grows := by
  refine keeps_bind (keeps_query _) fun op => ?_
  have herase : (query (·.placeOf id) >>= fun place => do
      modify (·.eraseAt place id)
      return none : Edit (Option OpId)).Keeps Grows :=
    keeps_query_bind fun g place hp => grows_eraseAt hp
  have hnop := keeps_map (f := some) (grows_substitute id .nop .keep)
  by_cases hc : op.isControl
  · simp only [hc, if_true]
    refine keeps_bind (keeps_throw _) fun _ => ?_
    cases policy with
    | keep => exact hnop
    | discard => exact herase
  · simp only [hc]
    cases policy with
    | keep => exact hnop
    | discard => exact herase

theorem grows_redirect (id : OpId) (v : VarId) (e : Expr) : (redirect id v e).Keeps Grows := by
  refine keeps_bind (keeps_query _) fun op => ?_
  have hchange : (modify (·.redirectAt id v e) : Edit Unit).Keeps Grows :=
    keeps_modify fun g => grows_redirectAt id v e
  have hrest : (if 0 < op.occurrences v then do
      modify (·.redirectAt id v e)
      return op.occurrences v
    else return op.occurrences v : Edit Nat).Keeps Grows := by
    split
    · exact keeps_bind hchange fun _ => keeps_pure _
    · exact keeps_pure _
  dsimp only
  split
  · exact keeps_bind (keeps_throw _) fun _ => hrest
  · exact hrest

theorem grows_redirectEach (v : VarId) (e : Expr) (ids : List OpId) :
    (redirectEach v e ids).Keeps Grows := by
  induction ids with
  | nil => exact keeps_pure 0
  | cons id ids ih =>
    exact keeps_bind (grows_redirect id v e) fun _ => keeps_bind ih fun _ => keeps_pure _

theorem grows_redirectAll (c : Chains) (v : VarId) (e : Expr) :
    (redirectAll c v e).Keeps Grows :=
  keeps_bind (keeps_query _) fun ids => grows_redirectEach v e ids

end Edit
end ScalarLowering
