import ScalarLowering.Proofs.Tracking

/-! What a successful edit does to the code. Substituting, inserting and removing put a list
of operators for one operator; redirecting puts an expression for a variable in arguments.
Nothing else changes. -/

namespace ScalarLowering

/-- An operator without its place: what the machine runs. -/
def Operator.code (op : Operator) : Operator := { op with position := none, block := none }

theorem Operator.code_eq {op op' : Operator} : op.code = op'.code ↔ op.kind = op'.kind ∧
    op.args = op'.args ∧ op.results = op'.results ∧ op.flags = op'.flags := by
  simp [code, Operator.mk.injEq]

namespace Graph

variable {g g' : Graph} {old id : OpId} {ids : List OpId} {new : Operator} {place : Place}

/-- The second graph has a list of operators for one operator of the first. -/
structure Spliced (g g' : Graph) (old : OpId) (ids : List OpId) : Prop where
  grows : g.Grows g'
  attached : old ∈ g.attached
  block : ∀ b, g'.block b = (g.block b).map fun block =>
    { block with ops := block.ops.flatMap (splice old ids) }
  entry : g'.entry = g.entry
  vars : g'.vars = g.vars
  op : ∀ {id}, id ≠ old ∨ old ∈ ids → id.index < g.ops.size → g'.op id = g.op id

theorem Spliced.mem_attached (h : g.Spliced g' old ids) {x : OpId} :
    x ∈ g'.attached ↔ x ∈ ids ∨ x ≠ old ∧ x ∈ g.attached := by
  rw [attached_of_blocks h.block, mem_flatMap_splice]
  simp [h.attached]

theorem spliced_replaceAt (hg : g.Linked) (hp : g.placeOf old = .ok place) (new : Operator) :
    g.Spliced (g.replaceAt place old new).2 old [⟨g.ops.size⟩] where
  grows := grows_replaceAt hp new
  attached := hg.mem_attached.mpr (isAttached_of_placeOf hp)
  block := hg.block_replaceAt new hp
  entry := by simp [replaceAt, detach]
  vars := by simp [replaceAt, detach]
  op := fun {id} hid hlt => by
    have hold := lt_of_placeOf hp
    have hne : id ≠ old := hid.resolve_right fun h => by
      obtain rfl : old = ⟨g.ops.size⟩ := by simpa using h
      simp at hold
    rw [op_replaceAt new hold, if_neg (Nat.ne_of_lt hlt), if_neg hne]

theorem spliced_insertAt (hg : g.Linked) (hp : g.placeOf old = .ok place) (new : Operator) :
    g.Spliced (g.insertAt place new).2 old [⟨g.ops.size⟩, old] where
  grows := grows_insertAt hp new
  attached := hg.mem_attached.mpr (isAttached_of_placeOf hp)
  block := hg.block_insertAt new hp
  entry := by simp [insertAt]
  vars := by simp [insertAt]
  op := fun _ hlt => by rw [op_insertAt, if_neg (Nat.ne_of_lt hlt)]

theorem spliced_eraseAt (hg : g.Linked) (hp : g.placeOf old = .ok place) :
    g.Spliced (g.eraseAt place old) old [] where
  grows := grows_eraseAt hp
  attached := hg.mem_attached.mpr (isAttached_of_placeOf hp)
  block := hg.block_eraseAt hp
  entry := by simp [eraseAt, detach, clearPosition]
  vars := by simp [eraseAt, detach, clearPosition]
  op := fun hid _ => by rw [op_eraseAt, if_neg (hid.resolve_right List.not_mem_nil)]

/-- The second graph has an expression for a variable in the arguments of some operators. -/
structure Rewired (g g' : Graph) (ids : List OpId) (v : VarId) (e : Expr) : Prop where
  grows : g.Grows g'
  blocks : g'.blocks = g.blocks
  entry : g'.entry = g.entry
  vars : g'.vars = g.vars
  size : g'.ops.size = g.ops.size
  op : ∀ id, g'.op id = if id ∈ ids then (g.op id).map (·.substitute v e) else g.op id

section Rewired

variable {v x : VarId} {e : Expr} {op' : Operator} (h : g.Rewired g' ids v e)
include h

theorem Rewired.attached_eq : g'.attached = g.attached := by
  simp only [Graph.attached, h.blocks]

variable (hall : ∀ id ∈ g.attached, g'.op id = (g.op id).map (·.substitute v e))
include hall

theorem Rewired.exists_op (hid : id ∈ g'.attached) (hop' : g'.op id = some op') :
    id ∈ g.attached ∧ ∃ op, g.op id = some op ∧ op' = op.substitute v e := by
  rw [h.attached_eq] at hid
  rw [hall id hid] at hop'
  obtain ⟨op, hop, rfl⟩ := Option.map_eq_some_iff.mp hop'
  exact ⟨hid, op, hop, rfl⟩

theorem Rewired.definers_eq : g'.definers x = g.definers x := by
  rw [definers, h.attached_eq, definers]
  refine List.filter_congr fun id hid => ?_
  rw [hall id hid]
  cases g.op id <;> rfl

end Rewired

theorem substitute_of_not_readsVar {op : Operator} {v : VarId} (e : Expr)
    (h : op.readsVar v = false) : op.substitute v e = op := by
  have hargs : op.args.map (fun a => if a = .var v then e else a) = op.args := by
    refine List.map_congr_left (fun a ha => if_neg ?_) |>.trans (List.map_id _)
    rintro rfl
    simp [Operator.readsVar, Operator.reads, Expr.var?_eq_some, ha] at h
  simp [Operator.substitute, hargs]

end Graph

namespace Edit

open ScalarLowering.Graph

variable {g g' : Graph} {old id : OpId} {new : Operator}

theorem substitute_spec (hg : g.Linked) {policy : Policy}
    (h : substitute old new policy g = .ok id g') :
    g.Spliced g' old [id] ∧ id = ⟨g.ops.size⟩ ∧ (g'.op id).map (·.code) = some new.code := by
  obtain ⟨place, hp, h⟩ := query_bind_eq_ok.mp h
  obtain ⟨prior, -, h⟩ := query_bind_eq_ok.mp h
  have hlt := lt_of_placeOf hp
  cases policy with
  | keep =>
    rw [modifyGet_eq_ok] at h
    obtain rfl : ⟨g.ops.size⟩ = id := by simpa [replaceAt] using congrArg Prod.fst h
    obtain rfl := congrArg Prod.snd h
    refine ⟨spliced_replaceAt hg hp _, rfl, ?_⟩
    rw [op_replaceAt _ hlt, if_pos rfl]
    rfl
  | discard =>
    rw [modifyGet_eq_ok] at h
    have hp' := placeOf_clearPosition old hp
    have hsize : (g.clearPosition old).ops.size = g.ops.size := by simp [clearPosition]
    have hs := spliced_replaceAt (hg.clearPosition old) hp' new
    obtain rfl : ⟨g.ops.size⟩ = id := by simpa [replaceAt, hsize] using congrArg Prod.fst h
    obtain rfl := congrArg Prod.snd h
    refine ⟨⟨?_, ?_, ?_, ?_, ?_, ?_⟩, rfl, ?_⟩
    · exact IsTrans.trans _ _ _ (grows_clearPosition old) hs.grows
    · exact hs.attached
    · intro b
      rw [← hsize]
      exact hs.block b
    · exact hs.entry
    · exact hs.vars
    · intro i hi hlt'
      have hi' : i ≠ old ∨ old ∈ [(⟨(g.clearPosition old).ops.size⟩ : OpId)] := by rwa [hsize]
      rw [hs.op hi' (by omega), op_clearPosition, if_neg]
      refine hi.resolve_right fun hmem => ?_
      obtain rfl : old = ⟨g.ops.size⟩ := by simpa using hmem
      simp at hlt
    · rw [op_replaceAt new (by omega), if_pos hsize.symm]
      rfl

theorem insertBefore_spec (hg : g.Linked) {anchor : OpId}
    (h : insertBefore anchor new g = .ok id g') :
    g.Spliced g' anchor [id, anchor] ∧ id = ⟨g.ops.size⟩ ∧
      (g'.op id).map (·.code) = some new.code := by
  obtain ⟨place, hp, h⟩ := query_bind_eq_ok.mp h
  rw [modifyGet_eq_ok] at h
  obtain rfl : ⟨g.ops.size⟩ = id := by simpa [insertAt] using congrArg Prod.fst h
  obtain rfl := congrArg Prod.snd h
  refine ⟨spliced_insertAt hg hp new, rfl, ?_⟩
  rw [op_insertAt, if_pos rfl]
  rfl

theorem remove_eq_ok {policy : Policy} {left : Option OpId} :
    remove old policy g = .ok left g' ↔ ∃ op, g.op old = some op ∧ op.isControl = false ∧
      (match policy with
        | .keep => do return some (← substitute old .nop .keep)
        | .discard => do
          let place ← query (·.placeOf old)
          modify (·.eraseAt place old)
          return none : Edit (Option OpId)) g = .ok left g' := by
  unfold remove
  simp only [query_bind_eq_ok, Error.lift_eq_ok]
  refine exists_congr fun op => and_congr_right fun _ => ?_
  by_cases hc : op.isControl
  · simp only [hc, if_true, Bool.true_eq_false, false_and, iff_false]
    intro h
    obtain ⟨_, _, h, -⟩ := bind_eq_ok.mp h
    exact throw_ne_ok h
  · cases policy <;> simp only [hc, Bool.false_eq_true, if_false, true_and]

theorem remove_discard_spec (hg : g.Linked) {left : Option OpId}
    (h : remove old .discard g = .ok left g') :
    g.Spliced g' old [] ∧ ∃ op, g.op old = some op ∧ op.isControl = false := by
  obtain ⟨op, hop, hc, h⟩ := remove_eq_ok.mp h
  obtain ⟨place, hp, h⟩ := query_bind_eq_ok.mp h
  obtain ⟨_, g₁, hm, h⟩ := bind_eq_ok.mp h
  obtain ⟨-, rfl⟩ := pure_eq_ok.mp h
  obtain rfl := modify_eq_ok.mp hm
  exact ⟨spliced_eraseAt hg hp, op, hop, hc⟩

theorem remove_keep_spec (hg : g.Linked) {left : Option OpId}
    (h : remove old .keep g = .ok left g') :
    (g.Spliced g' old [⟨g.ops.size⟩] ∧ (g'.op ⟨g.ops.size⟩).map (·.code) = some .nop) ∧
      ∃ op, g.op old = some op ∧ op.isControl = false := by
  obtain ⟨op, hop, hc, h⟩ := remove_eq_ok.mp h
  obtain ⟨id, g₁, hs, h⟩ := bind_eq_ok.mp h
  obtain ⟨-, rfl⟩ := pure_eq_ok.mp h
  obtain ⟨hs, rfl, hcode⟩ := substitute_spec hg hs
  exact ⟨⟨hs, hcode⟩, op, hop, hc⟩

/-- Only attached operators are redirected, and one that does not read the variable stays as it is. -/
theorem redirect_eq_ok {v : VarId} {e : Expr} {n : Nat} :
    redirect id v e g = .ok n g' ↔ ∃ op, g.op id = some op ∧ op.isAttached ∧
      n = op.occurrences v ∧ g' = if 0 < op.occurrences v then g.redirectAt id v e else g := by
  unfold redirect
  simp only [query_bind_eq_ok, Error.lift_eq_ok]
  refine exists_congr fun op => and_congr_right fun _ => ?_
  by_cases hatt : op.isAttached
  · by_cases hreads : 0 < op.occurrences v
    · simp only [hatt, hreads, Bool.not_true, Bool.false_eq_true, if_false, if_true, true_and]
      constructor
      · intro h
        obtain ⟨_, g₁, hmodify, h⟩ := bind_eq_ok.mp h
        obtain ⟨rfl, rfl⟩ := pure_eq_ok.mp h
        exact ⟨rfl, (modify_eq_ok.mp hmodify).symm⟩
      · rintro ⟨rfl, rfl⟩
        exact bind_eq_ok.mpr ⟨(), _, modify_eq_ok.mpr rfl, pure_eq_ok.mpr ⟨rfl, rfl⟩⟩
    · simp only [hatt, hreads, Bool.not_true, Bool.false_eq_true, if_false, true_and]
      exact pure_eq_ok.trans (and_congr eq_comm eq_comm)
  · simp only [hatt, Bool.not_false, if_true, Bool.false_eq_true, false_and, iff_false]
    intro h
    obtain ⟨_, _, h, -⟩ := bind_eq_ok.mp h
    exact throw_ne_ok h

theorem redirect_spec {v : VarId} {e : Expr} {n : Nat} (h : redirect id v e g = .ok n g') :
    g.Rewired g' [id] v e := by
  have hgrows := (grows_redirect id v e).ok h
  obtain ⟨op, hop, -, rfl, rfl⟩ := redirect_eq_ok.mp h
  by_cases hreads : 0 < op.occurrences v
  · simp only [hreads, if_true] at hgrows ⊢
    refine ⟨hgrows, ?_, ?_, ?_, ?_, fun x => ?_⟩
    · cases e <;> simp [redirectAt, Expr.var?]
    · cases e <;> simp [redirectAt, Expr.var?]
    · cases e <;> simp [redirectAt, Expr.var?]
    · cases e <;> simp [redirectAt, Expr.var?]
    · rw [op_redirectAt]
      simp only [List.mem_singleton]
  · simp only [hreads, if_false] at hgrows ⊢
    refine ⟨hgrows, rfl, rfl, rfl, rfl, fun x => ?_⟩
    split
    · rename_i hx
      obtain rfl : x = id := by simpa using hx
      have hnot : op.readsVar v = false := by
        simpa [Operator.occurrences, List.count_eq_zero, Operator.readsVar, Operator.reads,
          Expr.var?_eq_some] using hreads
      rw [hop, Option.map_some, substitute_of_not_readsVar e hnot]
    · rfl

theorem redirectEach_spec {v : VarId} {e : Expr} {ids : List OpId} {n : Nat} (hids : ids.Nodup)
    (h : redirectEach v e ids g = .ok n g') : g.Rewired g' ids v e := by
  induction ids generalizing g n with
  | nil =>
    obtain ⟨-, rfl⟩ := pure_eq_ok.mp h
    exact ⟨Std.Refl.refl g, rfl, rfl, rfl, rfl, fun x => by simp⟩
  | cons id ids ih =>
    obtain ⟨m, g₁, hfirst, h⟩ := bind_eq_ok.mp h
    obtain ⟨k, g₂, hrest, h⟩ := bind_eq_ok.mp h
    obtain ⟨-, rfl⟩ := pure_eq_ok.mp h
    have h₁ := redirect_spec hfirst
    have h₂ := ih (List.nodup_cons.mp hids).2 hrest
    refine ⟨IsTrans.trans _ _ _ h₁.grows h₂.grows, h₂.blocks.trans h₁.blocks,
      h₂.entry.trans h₁.entry, h₂.vars.trans h₁.vars, h₂.size.trans h₁.size, fun x => ?_⟩
    rw [h₂.op, h₁.op]
    by_cases hx : x = id
    · subst hx
      simp [(List.nodup_cons.mp hids).1]
    · simp [hx]

/-- Redirecting all readers reaches every attached operator. -/
theorem redirectAll_spec {c : Chains} {v : VarId} {e : Expr} {n : Nat} (hg : g.Linked)
    (hc : Tracks c g) (h : redirectAll c v e g = .ok n g') :
    g.Rewired g' (g.readers v) v e ∧
      ∀ id ∈ g.attached, g'.op id = (g.op id).map (·.substitute v e) := by
  obtain ⟨ids, hids, h⟩ := query_bind_eq_ok.mp h
  obtain rfl := hc.attachedUses hids
  have hr := redirectEach_spec (hg.nodup_attached.filter _) h
  refine ⟨hr, fun id hid => ?_⟩
  obtain ⟨op, b, hop, -⟩ := hg.exists_op_of_mem hid
  rw [hr.op]
  split
  · rfl
  · rename_i hreader
    have hnot : op.readsVar v = false := by
      by_contra hreads
      exact hreader (mem_readers.mpr ⟨hid, op, hop, by simpa using hreads⟩)
    rw [hop, Option.map_some, substitute_of_not_readsVar e hnot]

end Edit
end ScalarLowering
