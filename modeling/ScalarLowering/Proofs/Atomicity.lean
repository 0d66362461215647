import ScalarLowering.Proofs.Redirection

/-! Edits are made as a whole or not at all. One that does not apply fails and leaves the graph as it
was, down to the cache of the chains. One that applies goes through. It changes the list of at most
one block, and there only at the operator it is about; it raises the version, unless there was nothing
to change. -/

namespace ScalarLowering

namespace Graph

variable {g g₁ g' : Graph} {old : OpId} {ids : List OpId} {n m : Nat}

/-- A list of operators stands for one operator of a block. The others keep their order, all other
blocks are the same, and what is in the list is new or the operator itself. -/
structure PutFor (g g' : Graph) (old : OpId) (ids : List OpId) : Prop where
  version : g.version < g'.version
  fresh : ∀ id ∈ ids, id = old ∨ id ∉ g.attached
  block : ∃ b block before rest, g.block b = some block ∧ block.ops = before ++ old :: rest ∧
    g'.block b = some { block with ops := before ++ ids ++ rest } ∧
    ∀ c, c ≠ b → g'.block c = g.block c

theorem PutFor.attached (h : g.PutFor g' old ids) : old ∈ g.attached := by
  obtain ⟨b, block, before, rest, hb, hops, -⟩ := h.block
  exact Graph.mem_attached.mpr ⟨b, block, hb, by simp [hops]⟩

theorem Spliced.putFor (hg : g.Linked) (h : g.Spliced g' old ids) (hversion : g.version < g'.version)
    (hfresh : ∀ id ∈ ids, id = old ∨ g.ops.size ≤ id.index) : g.PutFor g' old ids where
  version := hversion
  fresh := fun id hid => (hfresh id hid).imp_right fun hnew hattached =>
    Nat.not_lt_of_le hnew (hg.lt_of_mem hattached)
  block := by
    obtain ⟨b, block, hb, hold⟩ := Graph.mem_attached.mp h.attached
    obtain ⟨before, rest, hops⟩ := List.append_of_mem hold
    refine ⟨b, block, before, rest, hb, hops, ?_, fun c hc => ?_⟩
    · rw [h.block, hb, Option.map_some, hops, flatMap_splice_split ids (hops ▸ hg.nodup hb)]
    · rw [h.block]
      cases hother : g.block c with
      | none => rfl
      | some other =>
        have hnot : old ∉ other.ops := by
          intro hmem
          have hrecorded := (hg.listed hother).mp hmem
          rw [(hg.listed hb).mp hold] at hrecorded
          exact hc (Option.some.inj hrecorded).symm
        rw [Option.map_some, flatMap_splice_of_notMem ids hnot]

/-- An expression was put for so many arguments. No block changed, and nothing at all if there was
no such argument. -/
structure ArgsReplaced (g g' : Graph) (n : Nat) : Prop where
  blocks : g'.blocks = g.blocks
  unchanged : n = 0 → g' = g
  version : 0 < n → g.version < g'.version

theorem ArgsReplaced.refl (g : Graph) : g.ArgsReplaced g 0 := ⟨rfl, fun _ => rfl, by simp⟩

theorem ArgsReplaced.version_le (h : g.ArgsReplaced g' n) : g.version ≤ g'.version := by
  by_cases hn : n = 0
  · exact Nat.le_of_eq (congrArg Graph.version (h.unchanged hn).symm)
  · exact Nat.le_of_lt (h.version (Nat.pos_of_ne_zero hn))

theorem ArgsReplaced.trans (h : g.ArgsReplaced g₁ n) (h' : g₁.ArgsReplaced g' m) :
    g.ArgsReplaced g' (n + m) where
  blocks := h'.blocks.trans h.blocks
  unchanged := fun hsum => (h'.unchanged (by omega)).trans (h.unchanged (by omega))
  version := fun hsum => by
    by_cases hn : 0 < n
    · exact Nat.lt_of_lt_of_le (h.version hn) h'.version_le
    · exact Nat.lt_of_le_of_lt h.version_le (h'.version (by omega))

theorem argsReplaced_redirectAt (id : OpId) (v : VarId) (e : Expr) (hn : 0 < n) :
    g.ArgsReplaced (g.redirectAt id v e) n where
  blocks := by cases e <;> rfl
  unchanged := fun h => by omega
  version := fun _ => by cases e <;> exact Nat.lt_succ_self _

end Graph

namespace Edit

open ScalarLowering.Graph

variable {α β : Type} {g g' : Graph} {c : Chains} {old id anchor : OpId} {new : Operator}
  {policy : Policy} {v : VarId} {e : Expr}

def Spares (edit : Edit α) (g : Graph) : Prop := ∀ err g', edit g = .error err g' → g' = g

theorem spares_of_ok {edit : Edit α} {a : α} (h : edit g = .ok a g') : edit.Spares g := by
  intro err _ herr
  rw [h] at herr
  cases herr

theorem spares_throw (err : Error) : (throw err : Edit α).Spares g := by
  rintro _ _ ⟨⟩
  rfl

theorem spares_query_bind {f : Graph → Except Error α} {k : α → Edit β}
    (hk : ∀ a, f g = .ok a → (k a).Spares g) : (query f >>= k).Spares g := by
  intro err g' h
  obtain hquery | ⟨a, _, hquery, hrest⟩ := bind_eq_error h
  · exact (query_eq_error.mp hquery).2
  · obtain ⟨hf, rfl⟩ := query_eq_ok.mp hquery
    exact hk a hf err g' hrest

theorem spares_substitute (old : OpId) (new : Operator) (policy : Policy) :
    (substitute old new policy).Spares g := by
  refine spares_query_bind fun place _ => spares_query_bind fun prior _ => ?_
  cases policy with
  | keep => exact spares_of_ok rfl
  | discard => exact spares_of_ok rfl

theorem spares_insertBefore (anchor : OpId) (new : Operator) :
    (insertBefore anchor new).Spares g :=
  spares_query_bind fun _ _ => spares_of_ok rfl

theorem spares_remove (id : OpId) (policy : Policy) : (remove id policy).Spares g := by
  refine spares_query_bind fun op _ => ?_
  by_cases hcontrol : op.isControl
  · simp only [hcontrol, if_true]
    exact spares_throw _
  · simp only [hcontrol]
    cases policy with
    | keep =>
      intro err g' h
      obtain h | ⟨_, _, -, h⟩ := bind_eq_error h
      · exact spares_substitute id .nop .keep err g' h
      · cases h
    | discard => exact spares_query_bind fun _ _ => spares_of_ok rfl

theorem spares_redirect (id : OpId) (v : VarId) (e : Expr) : (redirect id v e).Spares g := by
  refine spares_query_bind fun op _ => ?_
  by_cases hatt : op.isAttached
  · by_cases hreads : 0 < op.occurrences v
    · simp only [hatt, hreads, Bool.not_true, Bool.false_eq_true, if_false, if_true]
      exact spares_of_ok rfl
    · simp only [hatt, hreads, Bool.not_true, Bool.false_eq_true, if_false]
      exact spares_of_ok rfl
  · simp only [hatt, Bool.not_false, if_true]
    exact spares_throw _

theorem version_of_substitute (h : substitute old new policy g = .ok id g') :
    g'.version = g.version + 1 := by
  obtain ⟨place, -, h⟩ := query_bind_eq_ok.mp h
  obtain ⟨prior, -, h⟩ := query_bind_eq_ok.mp h
  cases policy with
  | keep =>
    obtain rfl := congrArg Prod.snd (modifyGet_eq_ok.mp h)
    simp [replaceAt, detach]
  | discard =>
    obtain rfl := congrArg Prod.snd (modifyGet_eq_ok.mp h)
    simp [replaceAt, detach, clearPosition]

theorem exists_substitute (hg : g.Linked) (hold : old ∈ g.attached) (new : Operator)
    (policy : Policy) : ∃ id g', substitute old new policy g = .ok id g' := by
  obtain ⟨place, hplace⟩ := hg.exists_placeOf (hg.mem_attached.mp hold)
  obtain ⟨op, -, hop, -⟩ := hg.exists_op_of_mem hold
  have hprior : (do return (← g.op old).position : Except Error _) = .ok op.position := by
    rw [hop]
    rfl
  cases policy <;>
    exact ⟨_, _, query_bind_eq_ok.mpr ⟨place, hplace, query_bind_eq_ok.mpr ⟨_, hprior, rfl⟩⟩⟩

theorem putFor_substitute (hg : g.Linked) (h : substitute old new policy g = .ok id g') :
    g.PutFor g' old [id] ∧ (g'.op id).map (·.code) = some new.code := by
  obtain ⟨hspliced, rfl, hcode⟩ := substitute_spec hg h
  exact ⟨hspliced.putFor hg (version_of_substitute h ▸ Nat.lt_succ_self _) (by simp), hcode⟩

theorem putFor_insertBefore (hg : g.Linked) (h : insertBefore anchor new g = .ok id g') :
    g.PutFor g' anchor [id, anchor] ∧ (g'.op id).map (·.code) = some new.code := by
  obtain ⟨hspliced, rfl, hcode⟩ := insertBefore_spec hg h
  obtain ⟨place, -, h⟩ := query_bind_eq_ok.mp h
  obtain rfl := congrArg Prod.snd (modifyGet_eq_ok.mp h)
  exact ⟨hspliced.putFor hg (by simp [insertAt]) (by simp), hcode⟩

theorem putFor_remove (hg : g.Linked) {left : Option OpId} (h : remove id policy g = .ok left g') :
    g.PutFor g' id left.toList ∧ (left.isSome ↔ policy = .keep) ∧
      ∀ new ∈ left, (g'.op new).map (·.code) = some Operator.nop.code := by
  obtain ⟨op, -, -, h'⟩ := remove_eq_ok.mp h
  cases policy with
  | keep =>
    obtain ⟨new, g₁, hsubstitute, h'⟩ := bind_eq_ok.mp h'
    obtain ⟨rfl, rfl⟩ := pure_eq_ok.mp h'
    obtain ⟨hput, hcode⟩ := putFor_substitute hg hsubstitute
    refine ⟨hput, by simp, ?_⟩
    rintro _ ⟨⟩
    exact hcode
  | discard =>
    obtain ⟨place, -, h'⟩ := query_bind_eq_ok.mp h'
    obtain ⟨_, g₁, hmodify, h'⟩ := bind_eq_ok.mp h'
    obtain ⟨rfl, rfl⟩ := pure_eq_ok.mp h'
    obtain rfl := modify_eq_ok.mp hmodify
    have hput := (remove_discard_spec hg h).1.putFor hg (by simp [eraseAt, detach, clearPosition])
      (by simp)
    exact ⟨hput, by simp, by simp⟩

theorem argsReplaced_redirect {n : Nat} (h : redirect id v e g = .ok n g') :
    g.ArgsReplaced g' n := by
  obtain ⟨op, -, -, rfl, rfl⟩ := redirect_eq_ok.mp h
  by_cases hreads : 0 < op.occurrences v
  · rw [if_pos hreads]
    exact argsReplaced_redirectAt id v e hreads
  · rw [if_neg hreads, Nat.eq_zero_of_not_pos hreads]
    exact .refl g

/-- No redirection of a list fails after another one went through: what is attached stays so. -/
theorem exists_redirectEach_argsReplaced {ids : List OpId} (hg : g.Linked)
    (hatt : ∀ id ∈ ids, id ∈ g.attached) (v : VarId) (e : Expr) :
    ∃ n g', redirectEach v e ids g = .ok n g' ∧ g.ArgsReplaced g' n := by
  induction ids generalizing g with
  | nil => exact ⟨0, g, rfl, .refl g⟩
  | cons id ids ih =>
    obtain ⟨op, b, hop, hb⟩ := hg.exists_op_of_mem (hatt id List.mem_cons_self)
    obtain ⟨g₁, hfirst⟩ := exists_redirect hop (by simp [Operator.isAttached, hb]) v e
    have h₁ := argsReplaced_redirect hfirst
    have hrewired := redirect_spec hfirst
    obtain ⟨n, g₂, hrest, h₂⟩ := ih (hrewired.grows hg).1 fun x hx =>
      hrewired.attached_eq ▸ hatt x (List.mem_cons_of_mem id hx)
    exact ⟨_, g₂, bind_eq_ok.mpr ⟨_, g₁, hfirst, bind_eq_ok.mpr ⟨n, g₂, hrest, rfl⟩⟩, h₁.trans h₂⟩

theorem attached_of_attachedUses (hg : g.Linked) {ids : List OpId}
    (h : g.attachedUses c v = .ok ids) : ∀ id ∈ ids, id ∈ g.attached := by
  obtain ⟨-, rfl⟩ | ⟨-, chain, -, -, rfl⟩ := liveAnswer_eq_ok.mp h
  · exact fun id hid => (mem_readers.mp hid).1
  · exact fun id hid => hg.mem_attached.mpr (List.mem_filter.mp hid).2

/-- The edit goes through exactly where it applies, and then as stated. Elsewhere it fails and leaves
the graph as it was. -/
structure Atomic (edit : Edit α) (g : Graph) (Applies : Prop) (Done : α → Graph → Prop) : Prop where
  applies : Applies ↔ ∃ a g', edit g = .ok a g'
  done : ∀ {a g'}, edit g = .ok a g' → Done a g'
  failed : edit.Spares g

theorem atomic_substitute (hg : g.Linked) (old : OpId) (new : Operator) (policy : Policy) :
    (substitute old new policy).Atomic g (old ∈ g.attached) fun id g' =>
      g.PutFor g' old [id] ∧ (g'.op id).map (·.code) = some new.code where
  applies := by
    refine ⟨fun hold => exists_substitute hg hold new policy, ?_⟩
    rintro ⟨id, g', h⟩
    exact (putFor_substitute hg h).1.attached
  done := putFor_substitute hg
  failed := spares_substitute old new policy

theorem atomic_insertBefore (hg : g.Linked) (anchor : OpId) (new : Operator) :
    (insertBefore anchor new).Atomic g (anchor ∈ g.attached) fun id g' =>
      g.PutFor g' anchor [id, anchor] ∧ (g'.op id).map (·.code) = some new.code where
  applies := by
    constructor
    · intro hanchor
      obtain ⟨place, hplace⟩ := hg.exists_placeOf (hg.mem_attached.mp hanchor)
      exact ⟨_, _, query_bind_eq_ok.mpr ⟨place, hplace, rfl⟩⟩
    · rintro ⟨id, g', h⟩
      exact (putFor_insertBefore hg h).1.attached
  done := putFor_insertBefore hg
  failed := spares_insertBefore anchor new

theorem atomic_remove (hg : g.Linked) (id : OpId) (policy : Policy) :
    (remove id policy).Atomic g
      (id ∈ g.attached ∧ ∃ op, g.op id = some op ∧ op.isControl = false) fun left g' =>
      g.PutFor g' id left.toList ∧ (left.isSome ↔ policy = .keep) ∧
        ∀ new ∈ left, (g'.op new).map (·.code) = some Operator.nop.code where
  applies := by
    constructor
    · rintro ⟨hid, op, hop, hcontrol⟩
      cases policy with
      | keep =>
        obtain ⟨new, g', h⟩ := exists_substitute hg hid .nop .keep
        exact ⟨_, _, remove_eq_ok.mpr ⟨op, hop, hcontrol, bind_eq_ok.mpr ⟨new, g', h, rfl⟩⟩⟩
      | discard =>
        obtain ⟨place, hplace⟩ := hg.exists_placeOf (hg.mem_attached.mp hid)
        exact ⟨_, _, remove_eq_ok.mpr ⟨op, hop, hcontrol,
          query_bind_eq_ok.mpr ⟨place, hplace, rfl⟩⟩⟩
    · rintro ⟨left, g', h⟩
      obtain ⟨op, hop, hcontrol, -⟩ := remove_eq_ok.mp h
      exact ⟨(putFor_remove hg h).1.attached, op, hop, hcontrol⟩
  done := putFor_remove hg
  failed := spares_remove id policy

theorem atomic_redirect (hg : g.Linked) (id : OpId) (v : VarId) (e : Expr) :
    (redirect id v e).Atomic g (id ∈ g.attached) fun n g' => g.ArgsReplaced g' n where
  applies := by
    constructor
    · intro hid
      obtain ⟨op, b, hop, hb⟩ := hg.exists_op_of_mem hid
      exact ⟨_, exists_redirect hop (by simp [Operator.isAttached, hb]) v e⟩
    · rintro ⟨n, g', h⟩
      obtain ⟨op, hop, hatt, -⟩ := redirect_eq_ok.mp h
      exact hg.mem_attached.mpr (by simpa [isAttached, hop] using hatt)
  done := argsReplaced_redirect
  failed := spares_redirect id v e

/-- The readers can all be redirected if they can all be told. -/
theorem atomic_redirectAll (hg : g.Linked) (c : Chains) (v : VarId) (e : Expr) :
    (redirectAll c v e).Atomic g (∃ ids, g.attachedUses c v = .ok ids) fun n g' =>
      g.ArgsReplaced g' n := by
  have hall : ∀ {ids}, g.attachedUses c v = .ok ids →
      ∃ n g', redirectEach v e ids g = .ok n g' ∧ g.ArgsReplaced g' n := fun hids =>
    exists_redirectEach_argsReplaced hg (attached_of_attachedUses hg hids) v e
  refine ⟨⟨?_, ?_⟩, ?_, ?_⟩
  · rintro ⟨ids, hids⟩
    obtain ⟨n, g', hok, -⟩ := hall hids
    exact ⟨n, g', query_bind_eq_ok.mpr ⟨ids, hids, hok⟩⟩
  · rintro ⟨n, g', h⟩
    obtain ⟨ids, hids, -⟩ := query_bind_eq_ok.mp h
    exact ⟨ids, hids⟩
  · intro n g' h
    obtain ⟨ids, hids, h⟩ := query_bind_eq_ok.mp h
    obtain ⟨n', g'', hok, hreplaced⟩ := hall hids
    rw [hok] at h
    cases h
    exact hreplaced
  · refine spares_query_bind fun ids hids => ?_
    obtain ⟨n, g', hok, -⟩ := hall hids
    exact spares_of_ok hok

/-- Every edit of a graph that operations built is atomic, for any operands and by any snapshot. The
new operator is the one that was given, or a no-op for one that is removed but keeps its place. -/
theorem edits_atomic {g : Graph} (hg : g.Built) :
    (∀ old new policy, (substitute old new policy).Atomic g (old ∈ g.attached) fun id g' =>
      g.PutFor g' old [id] ∧ (g'.op id).map (·.code) = some new.code) ∧
    (∀ anchor new, (insertBefore anchor new).Atomic g (anchor ∈ g.attached) fun id g' =>
      g.PutFor g' anchor [id, anchor] ∧ (g'.op id).map (·.code) = some new.code) ∧
    (∀ id policy, (remove id policy).Atomic g
      (id ∈ g.attached ∧ ∃ op, g.op id = some op ∧ op.isControl = false) fun left g' =>
        g.PutFor g' id left.toList ∧ (left.isSome ↔ policy = .keep) ∧
          ∀ new ∈ left, (g'.op new).map (·.code) = some Operator.nop.code) ∧
    (∀ id v e, (redirect id v e).Atomic g (id ∈ g.attached) fun n g' => g.ArgsReplaced g' n) ∧
    ∀ c v e, (redirectAll c v e).Atomic g (∃ ids, g.attachedUses c v = .ok ids) fun n g' =>
      g.ArgsReplaced g' n := by
  have hlinked := hg.coherent.linked
  exact ⟨atomic_substitute hlinked, atomic_insertBefore hlinked, atomic_remove hlinked,
    atomic_redirect hlinked, atomic_redirectAll hlinked⟩

def sampleRemoved : Graph := (Graph.empty "f").changed (sampleProgram ++ [.remove ⟨0⟩ .discard])

/-- The definition has no place any more for another operator, the return cannot go, and the value
that it reads can be exchanged. -/
theorem edits_atomic_after_removal :
    (∃ g', substitute ⟨0⟩ .nop .discard sampleRemoved = .error (.graph (.detached ⟨0⟩)) g' ∧
      g' = sampleRemoved) ∧
    (∃ g', remove ⟨1⟩ .keep sampleRemoved = .error (.graph (.removesTerminator ⟨1⟩)) g' ∧
      g' = sampleRemoved) ∧
    (∃ id g', insertBefore ⟨1⟩ .nop sampleRemoved = .ok id g' ∧
      sampleRemoved.PutFor g' ⟨1⟩ [id, ⟨1⟩] ∧ (g'.op id).map (·.code) = some Operator.nop.code) ∧
    ∃ g', redirectAll (sampleRemoved.scan 0) ⟨0⟩ (.const (.int (.ofScalar .i32) 2)) sampleRemoved =
      .ok 1 g' ∧ g'.blocks = sampleRemoved.blocks ∧ sampleRemoved.version < g'.version := by
  have hbuilt : sampleRemoved.Built := (Built.empty "f").changed _
  obtain ⟨hsubstitute, hinsert, hremove, -, hredirect⟩ := edits_atomic hbuilt
  have hreplaced := (hredirect (sampleRemoved.scan 0) ⟨0⟩
    (.const (.int (.ofScalar .i32) 2))).done rfl
  refine ⟨⟨_, rfl, (hsubstitute ⟨0⟩ .nop .discard).failed _ _ rfl⟩,
    ⟨_, rfl, (hremove ⟨1⟩ .keep).failed _ _ rfl⟩, ⟨_, _, rfl, (hinsert ⟨1⟩ .nop).done rfl⟩, _, rfl,
    hreplaced.blocks, hreplaced.version (by decide)⟩

end Edit
end ScalarLowering
