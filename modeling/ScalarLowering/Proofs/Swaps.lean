import ScalarLowering.Proofs.Idempotence

/-! What a step of the lowering does to the operator lists. Every edit puts a short list of new
operators for one operator that does not end its block; of the other operators at most the
arguments change. What is put for an operation on a wrapper is none itself and carries the same
source position. -/

namespace ScalarLowering

/-- An operator without its arguments and its block. -/
def Operator.outline (op : Operator) : Operator := { op with args := [], block := none }

theorem Operator.outline_eq {op op' : Operator} : op.outline = op'.outline ↔ op.kind = op'.kind ∧
    op.results = op'.results ∧ op.flags = op'.flags ∧ op.position = op'.position := by
  simp [outline, Operator.mk.injEq]

/-- An operation on a scalar wrapper: a call of one of its methods, or a load or the address of
one of its fields. -/
def Pool.isWrapperOp (p : Pool) : OpKind → Bool
  | .call m => ((p.method m).bind fun method => p.isScalar method.owner) = some true
  | .loadField f | .loadFieldAddress f => p.isValueField f = some true
  | _ => false

theorem Pool.isControl_of_isWrapperOp {p : Pool} {kind : OpKind} (h : p.isWrapperOp kind) :
    kind.isControl = false := by
  unfold Pool.isWrapperOp at h
  split at h
  case h_4 => cases h
  all_goals rfl

theorem Pool.isWrapperOp_directLoad {p : Pool} {kind direct : OpKind}
    (h : kind.directLoad? = some direct) : p.isWrapperOp direct = p.isWrapperOp kind := by
  unfold OpKind.directLoad? at h
  split at h <;> cases h <;> rfl

theorem flatMap_flatMap_splice (l : List OpId) (old : OpId) (ids ids' : List OpId) :
    (l.flatMap (splice old ids)).flatMap (splice old ids') =
      l.flatMap (splice old (ids.flatMap (splice old ids'))) := by
  rw [List.flatMap_assoc]
  refine List.flatMap_congr fun id _ => ?_
  by_cases hid : id = old
  · rw [hid, splice_self, splice_self]
  · simp [splice_of_ne _ hid]

namespace Graph

variable {p : Pool} {g g₁ g' : Graph} {c : Chains} {id old new : OpId} {ids ids' : List OpId}
  {op : Operator} {test : OpKind → Bool}

theorem exists_of_outline {x y : Option Operator} (h : x.map (·.outline) = y.map (·.outline))
    (hop : y = some op) :
    ∃ op', x = some op' ∧ op'.kind = op.kind ∧ op'.position = op.position := by
  rw [hop, Option.map_some] at h
  obtain ⟨op', hop', houtline⟩ := Option.map_eq_some_iff.mp h
  obtain ⟨hkind, -, -, hposition⟩ := Operator.outline_eq.mp houtline
  exact ⟨op', hop', hkind, hposition⟩

theorem kind_of_outline {x y : Option Operator} (h : x.map (·.outline) = y.map (·.outline)) :
    x.map (·.kind) = y.map (·.kind) := by
  have hkind := congrArg (Option.map (·.kind)) h
  rw [Option.map_map, Option.map_map] at hkind
  exact hkind

theorem any_of_kind {x y : Option Operator} (h : x.map (·.kind) = y.map (·.kind)) :
    (x.any fun op => test op.kind) = y.any fun op => test op.kind := by
  have hany := congrArg (Option.any test) h
  rwa [Option.any_map, Option.any_map] at hany

theorem outline_updateReachability (id : OpId) :
    (g.updateReachability.2.op id).map (·.outline) = (g.op id).map (·.outline) := by
  obtain ⟨c, hop⟩ := op_updateReachability_eq (g := g) id
  rw [hop, Option.map_map]
  rfl

theorem kind_stripResult (target id : OpId) (v : VarId) :
    ((g.stripResult target v).op id).map (·.kind) = (g.op id).map (·.kind) := by
  rw [op_stripResult]
  split
  · rw [Option.map_map]
    rfl
  · rfl

/-- The second graph has a list of operators for one operator of the first, and the other
operators differ at most in their arguments. -/
structure Swapped (g g' : Graph) (old : OpId) (ids : List OpId) : Prop where
  grows : g.Grows g'
  attached : old ∈ g.attached
  block : ∀ b, g'.block b = (g.block b).map fun block =>
    { block with ops := block.ops.flatMap (splice old ids) }
  entry : g'.entry = g.entry
  fresh : ∀ id ∈ ids, id = old ∨ g.ops.size ≤ id.index
  outline : ∀ {id}, id ∈ g.attached → id ≠ old ∨ old ∈ ids →
    (g'.op id).map (·.outline) = (g.op id).map (·.outline)

theorem Spliced.swapped (hg : g.Linked) (h : g.Spliced g' old ids)
    (hfresh : ∀ id ∈ ids, id = old ∨ g.ops.size ≤ id.index) : g.Swapped g' old ids where
  grows := h.grows
  attached := h.attached
  block := h.block
  entry := h.entry
  fresh := hfresh
  outline := fun hid hne => by rw [h.op hne (hg.lt_of_mem hid)]

theorem Swapped.mem_attached (h : g.Swapped g' old ids) {x : OpId} :
    x ∈ g'.attached ↔ x ∈ ids ∨ x ≠ old ∧ x ∈ g.attached := by
  rw [attached_of_blocks h.block, mem_flatMap_splice]
  simp [h.attached]

/-- What is put for an operator that stayed in the list is put into the list. -/
theorem Swapped.trans (hg : g.Linked) (h : g.Swapped g₁ old ids) (hold : old ∈ ids)
    (h' : g₁.Swapped g' old ids') : g.Swapped g' old (ids.flatMap (splice old ids')) where
  grows := IsTrans.trans _ _ _ h.grows h'.grows
  attached := h.attached
  block := fun b => by
    rw [h'.block, h.block, Option.map_map]
    congr 1
    funext block
    simp only [Function.comp_apply, flatMap_flatMap_splice]
  entry := h'.entry.trans h.entry
  fresh := fun id hid => by
    have hsize := (h.grows hg).2.size_ops
    obtain ⟨-, hid⟩ | ⟨-, hid⟩ := mem_flatMap_splice.mp hid
    · exact (h'.fresh id hid).imp_right (Nat.le_trans hsize)
    · exact h.fresh id hid
  outline := fun {id} hid hne => by
    have hne' : id ≠ old ∨ old ∈ ids' := by
      refine hne.imp_right fun hmem => ?_
      obtain ⟨-, hmem⟩ | ⟨hself, -⟩ := mem_flatMap_splice.mp hmem
      · exact hmem
      · exact absurd rfl hself
    have hid₁ : id ∈ g₁.attached := by
      by_cases hself : id = old
      · exact h.mem_attached.mpr (.inl (hself ▸ hold))
      · exact h.mem_attached.mpr (.inr ⟨hself, hid⟩)
    rw [h'.outline hid₁ hne', h.outline hid (.inr hold)]

/-- Counting the attached operators of some kinds before and after. -/
theorem Swapped.length_attachedWhere (hg : g.Linked) (h : g.Swapped g' old ids)
    (test : OpKind → Bool) :
    (g'.attachedWhere test).length + ((g.op old).any fun op => test op.kind).toNat =
      (g.attachedWhere test).length +
        ids.countP fun id => (g'.op id).any fun op => test op.kind := by
  have hother : ∀ id ∈ g.attached, id ≠ old →
      (g'.op id).any (fun op => test op.kind) = (g.op id).any fun op => test op.kind :=
    fun id hid hne => any_of_kind (kind_of_outline (h.outline hid (.inl hne)))
  have hnodup := hg.nodup_attached
  have hattached := attached_of_blocks h.block
  obtain ⟨before, rest, hsplit⟩ := List.append_of_mem h.attached
  rw [hsplit] at hnodup
  rw [hsplit, flatMap_splice_split ids hnodup] at hattached
  have hcount : ∀ {l : List OpId}, (∀ id ∈ l, id ∈ g.attached ∧ id ≠ old) →
      (l.countP fun id => (g'.op id).any fun op => test op.kind) =
        l.countP fun id => (g.op id).any fun op => test op.kind :=
    fun hl => List.countP_congr fun id hid => by rw [hother id (hl id hid).1 (hl id hid).2]
  have hbefore := hcount (l := before) fun id hid => by grind
  have hrest := hcount (l := rest) fun id hid => by grind
  simp only [attachedWhere, ← List.countP_eq_length_filter, hattached, hsplit, List.countP_append,
    List.countP_cons, hbefore, hrest]
  cases (g.op old).any fun op => test op.kind <;> simp <;> omega

/-- Operators differ at most in their arguments and stand where they stood. -/
structure SameOutline (g g' : Graph) : Prop where
  grows : g.Grows g'
  blocks : g'.blocks = g.blocks
  entry : g'.entry = g.entry
  op : ∀ id, (g'.op id).map (·.outline) = (g.op id).map (·.outline)

theorem Rewired.sameOutline {v : VarId} {e : Expr} (h : g.Rewired g' ids v e) :
    g.SameOutline g' where
  grows := h.grows
  blocks := h.blocks
  entry := h.entry
  op := fun id => by
    rw [h.op]
    split
    · rw [Option.map_map]
      rfl
    · rfl

theorem sameOutline_addVar (g : Graph) (kind : VarKind) (t : TypeId) :
    g.SameOutline (g.addVar kind t).2 :=
  ⟨grows_addVar kind t, rfl, rfl, fun _ => rfl⟩

theorem SameOutline.swapped (hg : g.Linked) (h : g.SameOutline g₁) (hs : g₁.Swapped g' old ids) :
    g.Swapped g' old ids := by
  have hattached : g₁.attached = g.attached := by simp only [Graph.attached, h.blocks]
  have hblock : ∀ b, g₁.block b = g.block b := fun b => by simp only [Graph.block, h.blocks]
  refine ⟨IsTrans.trans _ _ _ h.grows hs.grows, hattached ▸ hs.attached, fun b => ?_,
    hs.entry.trans h.entry, fun id hid => ?_, fun {id} hid hne => ?_⟩
  · rw [hs.block, hblock]
  · exact (hs.fresh id hid).imp_right (Nat.le_trans (h.grows hg).2.size_ops)
  · rw [hs.outline (hattached ▸ hid) hne, h.op]

def Plain (g : Graph) (p : Pool) (position : Option Position) (id : OpId) : Prop :=
  ∃ op, g.op id = some op ∧ p.isWrapperOp op.kind = false ∧ op.position = position

/-- What is put for an operator: another one, which may need a load in front. Both carry its
source position. -/
inductive Lowered (g : Graph) (p : Pool) (position : Option Position) : List OpId → Prop
  | alone {new : OpId} : g.Plain p position new → Lowered g p position [new]
  | fetched {load new : OpId} {read : Operator} {t : TypeId} : g.op load = some read →
      read.kind = .loadIndirect t → read.position = position → g.Plain p position new →
      Lowered g p position [load, new]

theorem Lowered.plain {position : Option Position} (h : g.Lowered p position ids)
    (hid : id ∈ ids) : g.Plain p position id := by
  cases h with
  | alone hnew => exact List.mem_singleton.mp hid ▸ hnew
  | fetched hload hkind hposition hnew =>
    obtain rfl | hid := List.mem_cons.mp hid
    · exact ⟨_, hload, by rw [hkind]; rfl, hposition⟩
    · exact List.mem_singleton.mp hid ▸ hnew

theorem Plain.of_outline {position : Option Position} (h : g.Plain p position id)
    (hid : (g'.op id).map (·.outline) = (g.op id).map (·.outline)) : g'.Plain p position id := by
  obtain ⟨op, hop, hplain, hposition⟩ := h
  obtain ⟨op', hop', hkind, hposition'⟩ := exists_of_outline hid hop
  exact ⟨op', hop', by rw [hkind, hplain], hposition'.trans hposition⟩

/-- One operator that is no operation on a wrapper is put for another, at its position. -/
structure PutsPlain (g : Graph) (p : Pool) (g' : Graph) (old new : OpId) : Prop where
  swapped : g.Swapped g' old [new]
  version : g.version < g'.version
  plain : ∀ {op}, g.op old = some op → g'.Plain p op.position new

theorem SameOutline.puts (hg : g.Linked) (h : g.SameOutline g₁)
    (hputs : g₁.PutsPlain p g' old new) :
    g.PutsPlain p g' old new where
  swapped := h.swapped hg hputs.swapped
  version := Nat.lt_of_le_of_lt (h.grows hg).2.version hputs.version
  plain := fun {op} hop => by
    obtain ⟨op₁, hop₁, -, hposition⟩ := exists_of_outline (h.op old) hop
    exact hposition ▸ hputs.plain hop₁

structure Lowers (g : Graph) (p : Pool) (g' : Graph) (old : OpId) (op : Operator)
    (ids : List OpId) : Prop where
  found : g.op old = some op
  wrapper : p.isWrapperOp op.kind
  swapped : g.Swapped g' old ids
  lowered : g'.Lowered p op.position ids
  version : g.version < g'.version

theorem Lowers.fresh (h : g.Lowers p g' old op ids) {x : OpId} (hx : x ∈ ids) :
    g.ops.size ≤ x.index := by
  refine (h.swapped.fresh x hx).resolve_left ?_
  rintro rfl
  obtain ⟨op₁, hop₁, hplain, -⟩ := h.lowered.plain hx
  obtain ⟨op', hop', hkind, -⟩ :=
    exists_of_outline (h.swapped.outline h.swapped.attached (.inr hx)) h.found
  obtain rfl := Option.some.inj (hop₁.symm.trans hop')
  simp [hkind, h.wrapper] at hplain

theorem PutsPlain.lowers (h : g.PutsPlain p g' old new) (hop : g.op old = some op)
    (hwrapper : p.isWrapperOp op.kind) : g.Lowers p g' old op [new] :=
  ⟨hop, hwrapper, h.swapped, .alone (h.plain hop), h.version⟩

/-- An operator that does not end its block gives way to others, among them at most a number of
operations on wrappers. -/
structure GivesWay (g : Graph) (p : Pool) (g' : Graph) (old : OpId) (n : Nat) : Prop where
  swapped : ∃ ids, g.Swapped g' old ids ∧
    (ids.countP fun id => (g'.op id).any fun op => p.isWrapperOp op.kind) ≤ n
  op : ∃ op, g.op old = some op ∧ op.isControl = false

theorem GivesWay.linked (hg : g.Linked) {n : Nat} (h : g.GivesWay p g' old n) : g'.Linked := by
  obtain ⟨ids, hs, -⟩ := h.swapped
  exact (hs.grows hg).1

def wrapperOps (g : Graph) (p : Pool) : Nat := (g.attachedWhere p.isWrapperOp).length

theorem GivesWay.wrapperOps_add_le (hg : g.Linked) {n : Nat} (h : g.GivesWay p g' old n) :
    g'.wrapperOps p + ((g.op old).any fun op => p.isWrapperOp op.kind).toNat ≤
      g.wrapperOps p + n := by
  obtain ⟨ids, hs, hn⟩ := h.swapped
  have hcount := hs.length_attachedWhere hg p.isWrapperOp
  unfold wrapperOps
  omega

theorem Lowers.givesWay (h : g.Lowers p g' old op ids) : g.GivesWay p g' old 0 where
  swapped := by
    refine ⟨ids, h.swapped, Nat.le_of_eq (List.countP_eq_zero.mpr fun id hid => ?_)⟩
    obtain ⟨op', hop', hplain, -⟩ := h.lowered.plain hid
    simp [hop', hplain]
  op := ⟨op, h.found, Pool.isControl_of_isWrapperOp h.wrapper⟩

theorem PutsPlain.givesWay (h : g.PutsPlain p g' old new) (hop : g.op old = some op)
    (hcontrol : op.isControl = false) : g.GivesWay p g' old 0 where
  swapped := by
    obtain ⟨put, hput, hplain, -⟩ := h.plain hop
    exact ⟨[new], h.swapped, by simp [hput, hplain]⟩
  op := ⟨op, hop, hcontrol⟩

theorem GivesWay.mono {n m : Nat} (h : g.GivesWay p g' old n) (hnm : n ≤ m) :
    g.GivesWay p g' old m where
  swapped := by
    obtain ⟨ids, hs, hn⟩ := h.swapped
    exact ⟨ids, hs, Nat.le_trans hn hnm⟩
  op := h.op

theorem Lowers.wrapperOps_lt (hg : g.Linked) (h : g.Lowers p g' old op ids) :
    g'.wrapperOps p < g.wrapperOps p := by
  have hcount := h.givesWay.wrapperOps_add_le hg
  simp only [h.found, Option.any_some, h.wrapper, Bool.toNat_true] at hcount
  omega

theorem Spliced.givesWay (hg : g.Linked) (h : g.Spliced g' old []) (hop : g.op old = some op)
    (hcontrol : op.isControl = false) : g.GivesWay p g' old 0 :=
  ⟨⟨[], h.swapped hg (by simp), Nat.le_refl 0⟩, op, hop, hcontrol⟩

end Graph

namespace Edit

open ScalarLowering.Graph

variable {p : Pool} {g g₁ g' : Graph} {c : Chains} {id old new : OpId} {op : Operator}

/-- A new operator without a position of its own takes over that of the old one. -/
theorem puts_substitute (hg : g.Linked) {put : Operator}
    (h : substitute old put .keep g = .ok new g')
    (hposition : put.position = none) (hplain : p.isWrapperOp put.kind = false) :
    g.PutsPlain p g' old new := by
  obtain ⟨hs, rfl, -⟩ := substitute_spec hg h
  obtain ⟨place, hp, h⟩ := query_bind_eq_ok.mp h
  obtain ⟨prior, hprior, h⟩ := query_bind_eq_ok.mp h
  rw [modifyGet_eq_ok] at h
  obtain rfl := congrArg Prod.snd h
  refine ⟨hs.swapped hg (by simp), by simp [replaceAt, detach], fun {op} hop => ?_⟩
  rw [hop, Error.lift_some_bind] at hprior
  obtain rfl := Except.pure_eq_ok.mp hprior
  refine ⟨_, (op_replaceAt _ (lt_of_placeOf hp) _).trans (if_pos rfl), hplain, ?_⟩
  simp [hposition]

theorem swapped_substitute (hg : g.Linked) {put : Operator} {policy : Policy}
    (h : substitute old put policy g = .ok new g') :
    g.Swapped g' old [new] ∧ ∃ op, g'.op new = some op ∧ op.kind = put.kind := by
  obtain ⟨hs, rfl, hcode⟩ := substitute_spec hg h
  obtain ⟨op, hop, hcode⟩ := exists_of_code hcode
  exact ⟨hs.swapped hg (by simp), op, hop, (Operator.code_eq.mp hcode).1⟩

theorem puts_remove (hg : g.Linked) {left : Option OpId} (h : remove old .keep g = .ok left g') :
    ∃ new, g.PutsPlain p g' old new := by
  obtain ⟨op, hop, hcontrol, h⟩ := remove_eq_ok.mp h
  obtain ⟨new, g₁, hs, h⟩ := bind_eq_ok.mp h
  obtain ⟨-, rfl⟩ := pure_eq_ok.mp h
  exact ⟨new, puts_substitute hg hs rfl rfl⟩

theorem puts_forward (hg : g.Linked) (hc : Tracks c g) {result : VarId} {value : Expr}
    {stable b : Bool} (h : forward c id result value stable g = .ok b g') :
    ∃ new, g.PutsPlain p g' id new := by
  obtain ⟨-, -, -, -, n, g₁, left, hredirect, hremove⟩ | ⟨-, new, hsubstitute⟩ := forward_spec h
  · have hsame := (redirectAll_spec hg hc hredirect).1.sameOutline
    obtain ⟨new, hputs⟩ := puts_remove (hsame.grows hg).1 hremove
    exact ⟨new, hsame.puts hg hputs⟩
  · exact ⟨new, puts_substitute hg hsubstitute rfl rfl⟩

theorem swapped_fetch (hg : g.Linked) {check : Bool} {source : Source} {e : Expr}
    (hop : g.op id = some op) (h : fetch id check source g = .ok e g₁) :
    g₁ = g ∨ ∃ load read t, g.Swapped g₁ id [load, id] ∧ load ≠ id ∧ g₁.op load = some read ∧
      read.kind = .loadIndirect t ∧ read.position = op.position := by
  cases source with
  | value e => exact .inl (pure_eq_ok.mp h).2.symm
  | behind pointer t =>
    obtain ⟨position, hposition, h⟩ := query_bind_eq_ok.mp h
    obtain ⟨temp, g₂, hvar, h⟩ := bind_eq_ok.mp h
    obtain ⟨load, g₃, hinsert, h⟩ := bind_eq_ok.mp h
    obtain ⟨-, rfl⟩ := pure_eq_ok.mp h
    rw [modifyGet_eq_ok] at hvar
    obtain rfl : (g.addVar .temporary t).2 = g₂ := congrArg Prod.snd hvar
    rw [hop, Error.lift_some_bind] at hposition
    obtain rfl := Except.pure_eq_ok.mp hposition
    have hsame := sameOutline_addVar g .temporary t
    have hlinked := hg.addVar .temporary t
    obtain ⟨hs, rfl, -⟩ := insertBefore_spec hlinked hinsert
    obtain ⟨place, hp, hinsert⟩ := query_bind_eq_ok.mp hinsert
    rw [modifyGet_eq_ok] at hinsert
    obtain rfl := congrArg Prod.snd hinsert
    refine .inr ⟨_, _, t, hsame.swapped hg (hs.swapped hlinked (by simp)), ?_,
      (op_insertAt _ _).trans (if_pos rfl), rfl, rfl⟩
    rintro rfl
    exact Nat.lt_irrefl _ (hlinked.lt_of_mem hs.attached)

theorem lowers_fetch (hg : g.Linked) {check : Bool} {source : Source} {e : Expr}
    (hop : g.op id = some op) (hwrapper : p.isWrapperOp op.kind)
    (hfetch : fetch id check source g = .ok e g₁) (hputs : g₁.PutsPlain p g' id new) :
    ∃ ids, g.Lowers p g' id op ids := by
  obtain rfl | ⟨load, read, t, hs, hne, hread, hkind, hposition⟩ := swapped_fetch hg hop hfetch
  · exact ⟨[new], hputs.lowers hop hwrapper⟩
  · have hmem : id ∈ [load, id] := by simp
    obtain ⟨op₁, hop₁, -, hposition₁⟩ := exists_of_outline (hs.outline hs.attached (.inr hmem)) hop
    have hload : load ∈ g₁.attached := hs.mem_attached.mpr (.inl (by simp))
    obtain ⟨read', hread', hkind', hposition'⟩ :=
      exists_of_outline (hputs.swapped.outline hload (.inl hne)) hread
    have hswapped := hs.trans hg hmem hputs.swapped
    have hlist : [load, id].flatMap (splice id [new]) = [load, new] := by simp [splice_of_ne _ hne]
    rw [hlist] at hswapped
    refine ⟨[load, new], hop, hwrapper, hswapped, ?_, ?_⟩
    · exact .fetched hread' (hkind'.trans hkind) (hposition'.trans hposition)
        (hposition₁ ▸ hputs.plain hop₁)
    · exact Nat.lt_of_le_of_lt (hs.grows hg).2.version hputs.version

theorem pure_false_ne_true {g g' : Graph} : (pure false : Edit Bool) g ≠ .ok true g' := by
  intro h
  cases (pure_eq_ok.mp h).1

theorem lowers_lowerConstructor (hg : g.Linked) (h : lowerConstructor p c id g = .ok true g') :
    ∃ op ids, g.Lowers p g' id op ids := by
  obtain ⟨found, hfound, h⟩ := query_bind_eq_ok.mp h
  cases found with
  | none => exact absurd h pure_false_ne_true
  | some copy =>
    obtain ⟨op, m, method, _, value, _, _, x, _, _, hop, hkind, hm, -, hscalar, -, -, -, -, -, -,
      -, -, -, -, -, -, rfl⟩ := constructorCopy_spec hfound
    have hwrapper : p.isWrapperOp op.kind := by simp [Pool.isWrapperOp, hkind, hm, hscalar]
    obtain ⟨new, g₁, hs, h⟩ := bind_eq_ok.mp h
    obtain ⟨-, rfl⟩ := pure_eq_ok.mp h
    exact ⟨op, [new], (puts_substitute hg hs rfl rfl).lowers hop hwrapper⟩

theorem lowers_lowerEquality (hg : g.Linked) (h : lowerEquality p c id g = .ok true g') :
    ∃ op ids, g.Lowers p g' id op ids := by
  obtain ⟨found, hfound, h⟩ := query_bind_eq_ok.mp h
  cases found with
  | none => exact absurd h pure_false_ne_true
  | some cmp =>
    obtain ⟨op, m, method, hop, hkind, hm, hscalar, -⟩ := equalityComparison_spec hfound
    have hwrapper : p.isWrapperOp op.kind := by simp [Pool.isWrapperOp, hkind, hm, hscalar]
    obtain ⟨check, -, h⟩ := query_bind_eq_ok.mp h
    obtain ⟨left, g₁, hfetch, h⟩ := bind_eq_ok.mp h
    obtain ⟨new, g₂, hs, h⟩ := bind_eq_ok.mp h
    obtain ⟨-, rfl⟩ := pure_eq_ok.mp h
    have hg₁ := ((grows_fetch id check cmp.left).ok hfetch hg).1
    exact ⟨op, lowers_fetch hg hop hwrapper hfetch (puts_substitute hg₁ hs rfl rfl)⟩

theorem lowers_lowerFieldLoad (hg : g.Linked) (hc : Tracks c g)
    (h : lowerFieldLoad p c id g = .ok true g') : ∃ op ids, g.Lowers p g' id op ids := by
  obtain ⟨found, hfound, h⟩ := query_bind_eq_ok.mp h
  cases found with
  | none => exact absurd h pure_false_ne_true
  | some read =>
    obtain ⟨op, f, receiver, info, hop, hkind, hvalue, -⟩ := fieldRead_spec hfound
    have hwrapper : p.isWrapperOp op.kind := by simp [Pool.isWrapperOp, hkind, hvalue]
    obtain ⟨result, source⟩ := read
    obtain ⟨check, -, h⟩ := query_bind_eq_ok.mp h
    obtain ⟨value, g₁, hfetch, h⟩ := bind_eq_ok.mp h
    obtain ⟨hg₁, hext⟩ := (grows_fetch id check source).ok hfetch hg
    have hrest : ∃ stable b, forward c id result value stable g₁ = .ok b g' := by
      cases source with
      | value e =>
        obtain ⟨stable, -, h⟩ := query_bind_eq_ok.mp h
        obtain ⟨b, g₂, hforward, h⟩ := bind_eq_ok.mp h
        obtain ⟨-, rfl⟩ := pure_eq_ok.mp h
        exact ⟨stable, b, hforward⟩
      | behind pointer t =>
        obtain ⟨stable, g₂, hstable, h⟩ := bind_eq_ok.mp h
        obtain ⟨-, rfl⟩ := pure_eq_ok.mp hstable
        obtain ⟨b, g₃, hforward, h⟩ := bind_eq_ok.mp h
        obtain ⟨-, rfl⟩ := pure_eq_ok.mp h
        exact ⟨stable, b, hforward⟩
    obtain ⟨stable, b, hforward⟩ := hrest
    obtain ⟨new, hputs⟩ := puts_forward (p := p) hg₁ (hc.extends hext hg₁) hforward
    exact ⟨op, lowers_fetch hg hop hwrapper hfetch hputs⟩

theorem lowers_lowerFieldAddress (hg : g.Linked) (hc : Tracks c g)
    (h : lowerFieldAddress p c id g = .ok true g') : ∃ op ids, g.Lowers p g' id op ids := by
  obtain ⟨found, hfound, h⟩ := query_bind_eq_ok.mp h
  cases found with
  | none => exact absurd h pure_false_ne_true
  | some found =>
    obtain ⟨op, f, receiver, result, t, hop, hkind, hvalue, -⟩ := fieldAddress_spec hfound
    have hwrapper : p.isWrapperOp op.kind := by simp [Pool.isWrapperOp, hkind, hvalue]
    cases found with
    | ofVariable result x =>
      obtain ⟨new, g₁, hs, h⟩ := bind_eq_ok.mp h
      obtain ⟨-, rfl⟩ := pure_eq_ok.mp h
      exact ⟨op, [new], (puts_substitute hg hs rfl rfl).lowers hop hwrapper⟩
    | ofPointer result pointer stable =>
      obtain ⟨b, g₁, hforward, h⟩ := bind_eq_ok.mp h
      obtain ⟨-, rfl⟩ := pure_eq_ok.mp h
      obtain ⟨new, hputs⟩ := puts_forward (p := p) hg hc hforward
      exact ⟨op, [new], hputs.lowers hop hwrapper⟩

/-- An edit of a wrapper operation lowers it or changes nothing. -/
theorem lowers_or_eq_of_edit {w : WrapperUse} (hg : g.Linked) (hc : Tracks c g) {b : Bool}
    (h : w.edit p c id g = .ok b g') :
    b = true ∧ (∃ op ids, g.Lowers p g' id op ids) ∨ b = false ∧ g' = g := by
  cases b with
  | false => exact .inr ⟨rfl, edit_eq_false h⟩
  | true =>
    refine .inl ⟨rfl, ?_⟩
    cases w with
    | constructor => exact lowers_lowerConstructor hg h
    | equality => exact lowers_lowerEquality hg h
    | load => exact lowers_lowerFieldLoad hg hc h
    | address => exact lowers_lowerFieldAddress hg hc h

theorem givesWay_remove (hg : g.Linked) {left : Option OpId}
    (h : remove old .discard g = .ok left g') : g.GivesWay p g' old 0 := by
  obtain ⟨hs, op, hop, hcontrol⟩ := remove_discard_spec hg h
  exact hs.givesWay hg hop hcontrol

theorem givesWay_erase (hg : g.Linked) {b : Bool}
    (h : (do let _ ← remove old .discard; return true : Edit Bool) g = .ok b g') :
    g.GivesWay p g' old 0 := by
  obtain ⟨left, g₁, hremove, h⟩ := bind_eq_ok.mp h
  obtain ⟨-, rfl⟩ := pure_eq_ok.mp h
  exact givesWay_remove hg hremove

/-- Folding the address of a variable: the load through it, if there is one, gives way to an
operator that is no operation on a wrapper, and then the address goes. -/
theorem givesWay_foldLocal (hg : g.Linked) (hc : Tracks c g) {b : Bool}
    (h : foldLocal p c id g = .ok b g') :
    g' = g ∨ ∃ g₁, (g₁ = g ∨ ∃ load, g.GivesWay p g₁ load 0) ∧ g₁.GivesWay p g' id 0 := by
  obtain ⟨found, hfound, h⟩ := query_bind_eq_ok.mp h
  cases found with
  | none => exact .inl (pure_eq_ok.mp h).2.symm
  | some fold =>
    obtain ⟨op, pointer, hop, hpointer, hcase⟩ := localFold_spec hfound
    obtain ⟨-, rfl⟩ | ⟨load, addressed, read, hload, -, hread, hcase⟩ := hcase
    · exact .inr ⟨g, .inl rfl, givesWay_erase hg h⟩
    · obtain ⟨-, -, read', t, -, -, -, -, hread', hkind⟩ := loneLoad_spec hload
      obtain rfl := Option.some.inj (hread.symm.trans hread')
      obtain ⟨-, rfl⟩ | ⟨loaded, stable, -, -, -, rfl⟩ := hcase
      · obtain ⟨left, g₁, hremove, h⟩ := bind_eq_ok.mp h
        exact .inr ⟨g₁, .inr ⟨load, givesWay_remove hg hremove⟩,
          givesWay_erase ((grows_remove load .discard).ok hremove hg).1 h⟩
      · obtain ⟨redirects, g₁, hforward, h⟩ := bind_eq_ok.mp h
        obtain ⟨new, hputs⟩ := puts_forward (p := p) hg hc hforward
        have hcontrol : read.isControl = false := by
          simp [Operator.isControl, hkind, OpKind.isControl]
        exact .inr ⟨g₁, .inr ⟨load, hputs.givesWay hread hcontrol⟩,
          givesWay_erase (hputs.swapped.grows hg).1 h⟩

/-- Folding the address of a place: the load through it gives way to a direct load, which is an
operation on a wrapper only if the address was one, and then the address goes. -/
theorem givesWay_foldPlace (hg : g.Linked) {b : Bool} (h : foldPlace p c id g = .ok b g') :
    g' = g ∨ ∃ g₁ load,
      g.GivesWay p g₁ load ((g₁.op id).any fun op => p.isWrapperOp op.kind).toNat ∧
        g₁.GivesWay p g' id 0 := by
  obtain ⟨found, hfound, h⟩ := query_bind_eq_ok.mp h
  cases found with
  | none => exact .inl (pure_eq_ok.mp h).2.symm
  | some found =>
    obtain ⟨load, operator⟩ := found
    obtain ⟨op, read, kind, hload, hop, hkind, -, -, hread, hcase⟩ := directLoad_spec hfound
    obtain ⟨-, -, read', t, -, -, -, -, hread', hloadKind⟩ := loneLoad_spec hload
    obtain rfl := Option.some.inj (hread.symm.trans hread')
    have hcontrol : read.isControl = false := by
      simp [Operator.isControl, hloadKind, OpKind.isControl]
    refine .inr ?_
    obtain ⟨-, -, rfl⟩ | ⟨-, rfl⟩ := hcase
    · obtain ⟨left, g₁, hremove, h⟩ := bind_eq_ok.mp h
      exact ⟨g₁, load, (givesWay_remove hg hremove).mono (Nat.zero_le _),
        givesWay_erase ((grows_remove load .discard).ok hremove hg).1 h⟩
    · obtain ⟨new, g₁, hsubstitute, h⟩ := bind_eq_ok.mp h
      obtain ⟨hs, put, hput, hputKind⟩ := swapped_substitute hg hsubstitute
      obtain ⟨hg₁, hext⟩ := hs.grows hg
      have herase := givesWay_erase (p := p) hg₁ h
      obtain ⟨op₁, hop₁, -⟩ := herase.op
      obtain ⟨op', hop', hkind₁, -⟩ := hext.oldOp (op_eq_some_lt hop) hop₁
      obtain rfl := Option.some.inj (hop.symm.trans hop')
      refine ⟨g₁, load, ⟨⟨[new], hs, ?_⟩, read, hread, hcontrol⟩, herase⟩
      have hsame : p.isWrapperOp put.kind = p.isWrapperOp op₁.kind := by
        rw [hputKind, hkind₁, ← Pool.isWrapperOp_directLoad hkind]
        rfl
      rw [List.countP_singleton, hput, hop₁, Option.any_some, Option.any_some, hsame]
      cases p.isWrapperOp op₁.kind <;> simp

end Edit
end ScalarLowering
