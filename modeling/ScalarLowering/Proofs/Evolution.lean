import ScalarLowering.Proofs.Discipline

/-! Changes of a graph that keep the discipline. Every operator of the changed graph has an
operator of the old one as its origin, at the same place of its block; an operator that is not its
own origin is new. -/

namespace ScalarLowering
namespace Graph

variable {g g' : Graph} {p : Pool} {origin : OpId → OpId} {id a b : OpId} {op op' : Operator}

/-- Where the operators of the second graph come from. -/
structure Evolves (g g' : Graph) (origin : OpId → OpId) : Prop where
  attached : ∀ {id}, id ∈ g'.attached → origin id ∈ g.attached
  code : ∀ {id}, id ∈ g'.attached → origin id = id →
    (g'.op id).map (·.code) = (g.op id).map (·.code)
  type : ∀ {id op}, id ∈ g.attached → g.op id = some op → ∀ x ∈ op.mentions,
    g'.typeOf (.var x) = g.typeOf (.var x)
  before : ∀ {a b}, a ∈ g'.attached → b ∈ g'.attached → g.Before (origin a) (origin b) →
    g'.Before a b
  before_origin : ∀ {a b}, g'.Before a b → g.Before (origin a) (origin b) ∨ origin a = origin b

/-- What a new operator has to respect. -/
structure Welcomes (g g' : Graph) (p : Pool) (origin : OpId) (new : Operator) : Prop where
  typed : new.wellTyped p g'
  escapes : new.escapes p g' = false
  place : new.isPlace = false
  reads : ∀ q ∈ new.reads, ∀ {id op}, id ∈ g.attached → g.op id = some op → q ∈ op.results →
    (op.escapes p g → p.readsThrough q new = some true) ∧
      (op.isPlace → (op.mayFault ∨ g.Before id origin) ∧ new.kind ≠ .addressOf)
  loads : new.isLoad → ∀ x ∈ new.results, ∀ {id op}, id ∈ g.attached → g.op id = some op →
    x ∈ op.reads → op.escapes p g → op.kind = .addressOf

theorem Evolves.exists_op (h : g.Evolves g' origin) (hid : id ∈ g'.attached)
    (horigin : origin id = id) (hop' : g'.op id = some op') :
    ∃ op, id ∈ g.attached ∧ g.op id = some op ∧ op'.kind = op.kind ∧ op'.args = op.args ∧
      op'.results = op.results ∧ op'.flags = op.flags := by
  have hcode := h.code hid horigin
  rw [hop', Option.map_some] at hcode
  obtain ⟨op, hop, hcode⟩ := Option.map_eq_some_iff.mp hcode.symm
  have hid := h.attached hid
  rw [horigin] at hid
  exact ⟨op, hid, hop, Operator.code_eq.mp hcode.symm⟩

end Graph

namespace Operator

variable {op op' : Operator} {g g' : Graph} {p : Pool}

theorem escapes_congr (hkind : op'.kind = op.kind)
    (hhead : op'.args.head? = op.args.head?)
    (htype : ∀ x ∈ op.reads, g'.typeOf (.var x) = g.typeOf (.var x)) :
    op'.escapes p g' = op.escapes p g := by
  have htype' : ∀ {e}, op.args.head? = some e → g'.typeOf e = g.typeOf e := by
    intro e he
    cases e with
    | const c => rfl
    | var x => exact htype x (mem_reads_of_mem (List.mem_of_mem_head? he))
  unfold escapes
  rw [hkind, hhead]
  cases he : op.args.head? with
  | none => rfl
  | some e =>
    simp only [Option.any_some, Graph.pointeeOf_congr (htype' he),
      Graph.isScalarExpr_congr (htype' he)]

theorem readsThrough_congr (hkind : op'.kind = op.kind) (hargs : op'.args = op.args) (q : VarId) :
    p.readsThrough q op' = p.readsThrough q op := by
  simp only [Pool.readsThrough, hkind, hargs]

end Operator

namespace Graph

variable {g g' : Graph} {p : Pool} {origin : OpId → OpId} {id a b : OpId} {op op' : Operator}

theorem Evolves.mem_readers {q : VarId} (h : g.Evolves g' origin) (hid : origin id = id)
    (hread : id ∈ g'.readers q) : id ∈ g.readers q := by
  obtain ⟨hatt, op', hop', -⟩ := Graph.mem_readers.mp hread
  obtain ⟨op, hatt, hop, -, hargs, -⟩ := h.exists_op hatt hid hop'
  refine mem_readers_of_reads hatt hop ?_
  simpa [Operator.reads, hargs] using mem_reads_of_mem_readers hread hop'

theorem Evolves.mem_definers {q : VarId} (h : g.Evolves g' origin) (hid : origin id = id)
    (hdef : id ∈ g'.definers q) : id ∈ g.definers q := by
  obtain ⟨hatt, op', hop', -⟩ := Graph.mem_definers.mp hdef
  obtain ⟨op, hatt, hop, -, -, hresults, -⟩ := h.exists_op hatt hid hop'
  exact mem_definers_of_results hatt hop (hresults ▸ mem_results_of_mem_definers hdef hop')

theorem Evolves.escapes_eq (h : g.Evolves g' origin) (hid : id ∈ g.attached)
    (hop : g.op id = some op) (hkind : op'.kind = op.kind) (hargs : op'.args = op.args) :
    op'.escapes p g' = op.escapes p g :=
  Operator.escapes_congr hkind (by rw [hargs]) fun x hx =>
    h.type hid hop x (List.mem_append_left _ hx)

section Evolve

variable (hd : g.Disciplined p) (h : g.Evolves g' origin)
  (hnew : ∀ {id op'}, id ∈ g'.attached → origin id ≠ id → g'.op id = some op' →
    g.Welcomes g' p (origin id) op')
include h hnew

theorem Evolves.exists_op_of_escapes (hid : id ∈ g'.attached) (hop' : g'.op id = some op')
    (hescapes : op'.escapes p g') : ∃ op, id ∈ g.attached ∧ g.op id = some op ∧
      op'.kind = op.kind ∧ op'.args = op.args ∧ op'.results = op.results ∧ op.escapes p g := by
  have horigin : origin id = id := by
    by_contra hne
    simp [(hnew hid hne hop').escapes] at hescapes
  obtain ⟨op, hid, hop, hkind, hargs, hresults, -⟩ := h.exists_op hid horigin hop'
  exact ⟨op, hid, hop, hkind, hargs, hresults, h.escapes_eq hid hop hkind hargs ▸ hescapes⟩

theorem Evolves.exists_op_of_isPlace (hid : id ∈ g'.attached) (hop' : g'.op id = some op')
    (hplace : op'.isPlace) : origin id = id ∧ ∃ op, id ∈ g.attached ∧ g.op id = some op ∧
      op'.results = op.results ∧ op'.mayFault = op.mayFault ∧ op.isPlace := by
  have horigin : origin id = id := by
    by_contra hne
    simp [(hnew hid hne hop').place] at hplace
  obtain ⟨op, hid, hop, hkind, -, hresults, hflags⟩ := h.exists_op hid horigin hop'
  refine ⟨horigin, op, hid, hop, hresults, by simp only [Operator.mayFault, hflags], ?_⟩
  simpa [Operator.isPlace, hkind] using hplace

include hd

theorem Disciplined.typed_evolve (hid : id ∈ g'.attached) (hop' : g'.op id = some op') :
    op'.wellTyped p g' := by
  by_cases horigin : origin id = id
  · obtain ⟨op, hid, hop, hkind, hargs, hresults, -⟩ := h.exists_op hid horigin hop'
    refine Operator.wellTyped_of_types (f := fun e => e) hkind (by simpa using hargs)
      (fun e he => ?_) (fun x hx => ?_) (hd.typed id hid op hop)
    · cases e with
      | const c => rfl
      | var x => exact h.type hid hop x (List.mem_append_left _ (Operator.mem_reads_of_mem he))
    · rw [hresults] at hx
      exact ⟨hx, h.type hid hop x (List.mem_append_right _ hx)⟩
  · exact (hnew hid horigin hop').typed

theorem Disciplined.readOnly_evolve {q : VarId} {user : OpId} {userOp' : Operator}
    (hid : id ∈ g'.attached) (hop' : g'.op id = some op') (hescapes : op'.escapes p g')
    (hq : q ∈ op'.results) (huser : user ∈ g'.readers q) (huserOp' : g'.op user = some userOp') :
    p.readsThrough q userOp' = some true := by
  obtain ⟨op, hid, hop, -, -, hresults, hescapes⟩ := h.exists_op_of_escapes hnew hid hop' hescapes
  rw [hresults] at hq
  have huseratt := (mem_readers.mp huser).1
  by_cases horigin : origin user = user
  · obtain ⟨userOp, -, huserOp, hkind, hargs, -⟩ := h.exists_op huseratt horigin huserOp'
    rw [Operator.readsThrough_congr hkind hargs]
    exact hd.readOnly id hid op hop hescapes q hq user (h.mem_readers horigin huser) userOp huserOp
  · exact ((hnew huseratt horigin huserOp').reads q (mem_reads_of_mem_readers huser huserOp')
      hid hop hq).1 hescapes

theorem Disciplined.notLoaded_evolve {x : VarId} {d : OpId} {defOp' : Operator}
    (hid : id ∈ g'.attached) (hop' : g'.op id = some op') (hescapes : op'.escapes p g')
    (haddress : op'.kind ≠ .addressOf) (hx : x ∈ op'.reads) (hdef : d ∈ g'.definers x)
    (hdefOp' : g'.op d = some defOp') : defOp'.isLoad = false := by
  obtain ⟨op, hid, hop, hkind, hargs, -, hescapes⟩ :=
    h.exists_op_of_escapes hnew hid hop' hescapes
  have hx : x ∈ op.reads := by simpa [Operator.reads, hargs] using hx
  have hdatt := (mem_definers.mp hdef).1
  by_cases horigin : origin d = d
  · obtain ⟨defOp, -, hdefOp, hdefKind, -⟩ := h.exists_op hdatt horigin hdefOp'
    have hload := hd.notLoaded id hid op hop hescapes (hkind ▸ haddress) x hx d
      (h.mem_definers horigin hdef) defOp hdefOp
    simpa [Operator.isLoad, hdefKind] using hload
  · refine Bool.eq_false_iff.mpr fun hload => haddress (hkind.trans ?_)
    exact (hnew hdatt horigin hdefOp').loads hload x (mem_results_of_mem_definers hdef hdefOp')
      hid hop hx hescapes

theorem Disciplined.nearby_evolve {q : VarId} {user : OpId} (hid : id ∈ g'.attached)
    (hop' : g'.op id = some op') (hplace : op'.isPlace) (hq : q ∈ op'.results)
    (huser : user ∈ g'.readers q) : (op'.mayFault ∨ g'.Before id user) ∧
      ∀ userOp' ∈ g'.op user, userOp'.kind ≠ .addressOf := by
  obtain ⟨horigin, op, hatt, hop, hresults, hfault, hplace⟩ :=
    h.exists_op_of_isPlace hnew hid hop' hplace
  rw [hresults] at hq
  obtain ⟨huseratt, userOp', huserOp', -⟩ := mem_readers.mp huser
  have hold : (op.mayFault ∨ g.Before id (origin user)) ∧ userOp'.kind ≠ .addressOf := by
    by_cases huserOrigin : origin user = user
    · obtain ⟨userOp, -, huserOp, hkind, -⟩ := h.exists_op huseratt huserOrigin huserOp'
      obtain ⟨hbefore, hkinds⟩ :=
        hd.nearby id hatt op hop hplace q hq user (h.mem_readers huserOrigin huser)
      exact ⟨by rwa [huserOrigin], hkind ▸ hkinds userOp huserOp⟩
    · exact ((hnew huseratt huserOrigin huserOp').reads q (mem_reads_of_mem_readers huser huserOp')
        hatt hop hq).2 hplace
  refine ⟨hfault ▸ hold.1.imp_right fun hb => h.before hid huseratt ?_, fun userOp huserOp => ?_⟩
  · rwa [horigin]
  · exact Option.some.inj (huserOp'.symm.trans huserOp) ▸ hold.2

/-- A change keeps the discipline if the new operators respect it. -/
theorem Disciplined.evolve : g'.Disciplined p where
  typed _ hid _ hop' := hd.typed_evolve h hnew hid hop'
  readOnly _ hid _ hop' hescapes _ hq _ huser _ huserOp' :=
    hd.readOnly_evolve h hnew hid hop' hescapes hq huser huserOp'
  notLoaded _ hid _ hop' hescapes haddress _ hx _ hdef _ hdefOp' :=
    hd.notLoaded_evolve h hnew hid hop' hescapes haddress hx hdef hdefOp'
  nearby _ hid _ hop' hplace _ hq _ huser := hd.nearby_evolve h hnew hid hop' hplace hq huser

end Evolve

theorem pair_sublist_flatMap {l : List OpId} {f : OpId → List OpId} {a' b' : OpId}
    (h : [a', b'].Sublist (l.flatMap f)) :
    (∃ a b, [a, b].Sublist l ∧ a' ∈ f a ∧ b' ∈ f b) ∨ ∃ a ∈ l, [a', b'].Sublist (f a) := by
  induction l with
  | nil => simp at h
  | cons x l ih =>
    rw [List.flatMap_cons] at h
    obtain ⟨l₁, l₂, heq, h₁, h₂⟩ := List.sublist_append_iff.mp h
    match l₁, heq with
    | [], heq =>
      obtain rfl : [a', b'] = l₂ := by simpa using heq
      obtain ⟨a, b, hsub, ha, hb⟩ | ⟨a, ha, hsub⟩ := ih h₂
      · exact .inl ⟨a, b, hsub.cons x, ha, hb⟩
      · exact .inr ⟨a, List.mem_cons_of_mem x ha, hsub⟩
    | [c], heq =>
      obtain ⟨rfl, rfl⟩ : a' = c ∧ [b'] = l₂ := by simpa using heq
      obtain ⟨b, hb, hb'⟩ := List.mem_flatMap.mp (List.singleton_sublist.mp h₂)
      exact .inl ⟨x, b, (List.singleton_sublist.mpr hb).cons_cons x, List.singleton_sublist.mp h₁, hb'⟩
    | [c, d], heq =>
      obtain ⟨rfl, rfl, -⟩ : a' = c ∧ b' = d ∧ [] = l₂ := by simpa using heq
      exact .inr ⟨x, List.mem_cons_self, h₁⟩
    | _ :: _ :: _ :: _, heq => simp at heq

def spliceOrigin (old : OpId) (ids : List OpId) (id : OpId) : OpId := if id ∈ ids then old else id

section Spliced

variable {old : OpId} {ids : List OpId} (h : g.Spliced g' old ids)
include h

theorem Spliced.mem_splice_spliceOrigin (hid : id ∈ g'.attached) :
    id ∈ splice old ids (spliceOrigin old ids id) := by
  unfold spliceOrigin
  split
  · rwa [splice_self]
  · rename_i hnot
    obtain ⟨hne, -⟩ := (h.mem_attached.mp hid).resolve_left hnot
    simp [splice_of_ne ids hne]

theorem Spliced.before_of_origin (ha : a ∈ g'.attached) (hb : b ∈ g'.attached)
    (hbefore : g.Before (spliceOrigin old ids a) (spliceOrigin old ids b)) : g'.Before a b := by
  obtain ⟨block, hblock, hsub⟩ := hbefore
  obtain ⟨c, hc⟩ := mem_blocks.mp hblock
  obtain ⟨block', hc', hops⟩ := h.block_eq_some hc
  refine ⟨block', mem_blocks.mpr ⟨c, hc'⟩, ?_⟩
  obtain ⟨l, r, hlr, hl, hr⟩ := List.cons_sublist_iff.mp hsub
  rw [hops, hlr, List.flatMap_append]
  refine List.cons_sublist_iff.mpr
    ⟨_, _, rfl, List.mem_flatMap.mpr ⟨_, hl, h.mem_splice_spliceOrigin ha⟩, ?_⟩
  exact List.singleton_sublist.mpr
    (List.mem_flatMap.mpr ⟨_, List.singleton_sublist.mp hr, h.mem_splice_spliceOrigin hb⟩)

variable (hfresh : ∀ n ∈ ids, n ≠ old → n ∉ g.attached)
include hfresh

omit h in
theorem spliceOrigin_of_mem_splice {x : OpId} (hx : x ∈ g.attached) (hid : id ∈ splice old ids x) :
    spliceOrigin old ids id = x := by
  unfold spliceOrigin
  by_cases hxo : x = old
  · subst hxo
    rw [splice_self] at hid
    rw [if_pos hid]
  · rw [splice_of_ne ids hxo, List.mem_singleton] at hid
    subst hid
    exact if_neg fun hmem => hfresh id hmem hxo hx

theorem Spliced.origin_before (hbefore : g'.Before a b) :
    g.Before (spliceOrigin old ids a) (spliceOrigin old ids b) ∨
      spliceOrigin old ids a = spliceOrigin old ids b := by
  obtain ⟨block', hblock', hsub⟩ := hbefore
  obtain ⟨c, hc'⟩ := mem_blocks.mp hblock'
  rw [h.block] at hc'
  obtain ⟨block, hc, rfl⟩ := Option.map_eq_some_iff.mp hc'
  have horigin : ∀ {x id}, x ∈ block.ops → id ∈ splice old ids x → spliceOrigin old ids id = x :=
    fun hx => spliceOrigin_of_mem_splice hfresh (Graph.mem_attached.mpr ⟨c, block, hc, hx⟩)
  obtain ⟨x, y, hxy, hx, hy⟩ | ⟨x, hx, hsub⟩ := pair_sublist_flatMap hsub
  · rw [horigin (hxy.subset (by simp)) hx, horigin (hxy.subset (by simp)) hy]
    exact .inl ⟨block, mem_blocks.mpr ⟨c, hc⟩, hxy⟩
  · rw [horigin hx (hsub.subset (by simp)), horigin hx (hsub.subset (by simp))]
    exact .inr rfl

theorem Spliced.evolves (hg : g.Linked) : g.Evolves g' (spliceOrigin old ids) where
  attached {id} hid := by
    unfold spliceOrigin
    split
    · exact h.attached
    · rename_i hnot
      exact ((h.mem_attached.mp hid).resolve_left hnot).2
  code {id} hid hsame := by
    unfold spliceOrigin at hsame
    split at hsame
    · rename_i hmem
      subst hsame
      rw [h.op (.inr hmem) (hg.lt_of_mem h.attached)]
    · rename_i hnot
      obtain ⟨hne, hatt⟩ := (h.mem_attached.mp hid).resolve_left hnot
      rw [h.op (.inl hne) (hg.lt_of_mem hatt)]
  type _ _ x _ := (sameVars_of_vars_eq h.vars).typeOf _
  before := h.before_of_origin
  before_origin := h.origin_before hfresh

end Spliced

theorem before_of_blocks_eq (h : g'.blocks = g.blocks) : g'.Before a b ↔ g.Before a b := by
  simp only [Before, h]

theorem SameCode.evolves (h : g.SameCode g') : g.Evolves g' fun id => id := by
  refine ⟨fun {id} hid => ?_, fun {id} _ _ => ?_, fun _ _ x _ => ?_, fun _ _ => ?_, fun hb => ?_⟩
  · rwa [h.attached_eq] at hid
  · rw [h.op_eq]
  · simpa [Graph.typeOf, Function.comp_def] using congrArg (Option.map (·.type)) (h.var x)
  · exact (before_of_blocks_eq h.blocks).mpr
  · exact .inl ((before_of_blocks_eq h.blocks).mp hb)

theorem WellShaped.evolves_addVar (hg : g.WellShaped) (kind : VarKind) (t : TypeId) :
    g.Evolves (g.addVar kind t).2 fun id => id := by
  refine ⟨fun hid => hid, fun _ _ => rfl, fun {id op} hid hop x hx => ?_, fun _ _ hb => hb,
    fun hb => .inl hb⟩
  obtain ⟨info, hinfo, -⟩ := (hg.fits hid hop).live x hx
  simp only [typeOf, var_addVar, if_neg (Nat.ne_of_lt (var_eq_some_lt hinfo))]

theorem Linked.evolves_updateReachability (hg : g.Linked) :
    g.Evolves g.updateReachability.2 fun id => id := by
  have hatt : ∀ {id}, id ∈ g.updateReachability.2.attached → id ∈ g.attached ∧ id ∉ g.swept := by
    intro id hid
    rw [hg.attached_updateReachability] at hid
    simpa using List.mem_filter.mp hid
  refine ⟨fun hid => (hatt hid).1, fun {id} hid _ => ?_, fun _ _ x _ => ?_, fun {a b} ha _ hb => ?_,
    fun {a b} hb => .inl ?_⟩
  · rw [op_updateReachability, if_neg (hatt hid).2]
  · exact (sameVars_of_vars_eq vars_updateReachability).typeOf _
  · obtain ⟨block, hblock, hsub⟩ := hb
    obtain ⟨c, hc⟩ := mem_blocks.mp hblock
    have hreached : c ∉ g.unreached := fun hmem =>
      (hatt ha).2 (hg.mem_swept.mpr ⟨c, hmem, (hg.listed hc).mp (hsub.subset (by simp))⟩)
    refine ⟨{ block with reachable := true }, mem_blocks.mpr ⟨c, ?_⟩, hsub⟩
    rw [block_updateReachability, hc, Option.map_some, if_neg hreached]
  · obtain ⟨block, hblock, hsub⟩ := hb
    obtain ⟨c, hc⟩ := mem_blocks.mp hblock
    rw [block_updateReachability] at hc
    obtain ⟨block', hc', rfl⟩ := Option.map_eq_some_iff.mp hc
    split at hsub
    · simp at hsub
    · exact ⟨block', mem_blocks.mpr ⟨c, hc'⟩, hsub⟩

end Graph

namespace Operator

variable {op : Operator} {g : Graph} {p : Pool} {v x q : VarId} {e : Expr}

theorem mem_reads_substitute : x ∈ (op.substitute v e).reads ↔
    (x ∈ op.reads ∧ x ≠ v) ∨ (v ∈ op.reads ∧ e = .var x) := by
  simp only [Graph.mem_reads, substitute, List.mem_map]
  constructor
  · rintro ⟨a, ha, hax⟩
    split at hax
    · rename_i hav
      exact .inr ⟨hav ▸ ha, hax⟩
    · rename_i hav
      subst hax
      exact .inl ⟨ha, fun h => hav (by rw [h])⟩
  · rintro (⟨hx, hne⟩ | ⟨hv, rfl⟩)
    · exact ⟨.var x, hx, if_neg (by simpa using hne)⟩
    · exact ⟨.var v, hv, if_pos rfl⟩

theorem wellTyped_substitute {g' : Graph} (htypes : ∀ e, g'.typeOf e = g.typeOf e)
    (htype : g.typeOf e = g.typeOf (.var v)) (h : op.wellTyped p g) :
    (op.substitute v e).wellTyped p g' := by
  refine wellTyped_of_types (f := fun a => if a = .var v then e else a) ?_ ?_ (fun a _ => ?_)
    (fun x hx => ?_) h
  · rfl
  · rfl
  · split
    · rename_i hav
      rw [htypes, htype, hav]
    · exact htypes a
  · exact ⟨hx, htypes _⟩

theorem escapes_of_substitute {g' : Graph} (htypes : ∀ e, g'.typeOf e = g.typeOf e)
    (htype : g.typeOf e = g.typeOf (.var v)) (h : (op.substitute v e).escapes p g') :
    op.escapes p g := by
  have hhead : (op.substitute v e).args.head? =
      op.args.head?.map fun a => if a = .var v then e else a := List.head?_map
  have hkind : (op.substitute v e).kind = op.kind := rfl
  unfold escapes at h ⊢
  rw [hkind, hhead] at h
  cases ha : op.args.head? with
  | none => simpa [ha] using h
  | some a =>
    rw [ha, Option.map_some] at h
    by_cases hav : a = .var v
    · subst hav
      have htype' : g'.typeOf e = g.typeOf (.var v) := (htypes e).trans htype
      simp only [if_pos, Option.any_some, Graph.pointeeOf_congr htype',
        Graph.isScalarExpr_congr htype'] at h ⊢
      split at h
      · exact h
      · simp only [Bool.and_eq_true] at h ⊢
        exact ⟨rfl, h.2⟩
      · cases h
    · simpa only [if_neg hav, Option.any_some, Graph.pointeeOf_congr (htypes a),
        Graph.isScalarExpr_congr (htypes a)] using h

theorem readsThrough_substitute (hqv : q ≠ v) (hqe : e ≠ .var q)
    (h : p.readsThrough q op = some true) : p.readsThrough q (op.substitute v e) = some true := by
  have hmem : ∀ l : List Expr, .var q ∉ l → .var q ∉ l.map fun a => if a = .var v then e else a := by
    intro l hl hmem
    obtain ⟨a, ha, haq⟩ := List.mem_map.mp hmem
    split at haq
    · exact hqe haq
    · exact hl (haq ▸ ha)
  have hhead : op.args.head? = some (.var q) →
      (op.args.map fun a => if a = .var v then e else a).head? = some (.var q) := by
    intro hhead
    rw [List.head?_map, hhead, Option.map_some, if_neg (by simpa using hqv)]
  unfold Pool.readsThrough at h ⊢
  have hkind : (op.substitute v e).kind = op.kind := rfl
  rw [hkind]
  cases hk : op.kind <;> simp only [hk] at h ⊢ <;> try exact h
  obtain ⟨m, hm, h⟩ := Option.bind_eq_some_iff.mp h
  refine Option.bind_eq_some_iff.mpr ⟨m, hm, ?_⟩
  split at h
  · cases h
  rename_i hinstance
  rw [if_neg hinstance]
  obtain ⟨scalar, hscalar, h⟩ := Option.bind_eq_some_iff.mp h
  refine Option.bind_eq_some_iff.mpr ⟨scalar, hscalar, ?_⟩
  have h : (scalar && decide (op.args.head? = some (.var q)) &&
    !op.args.tail.contains (.var q)) = true := Option.some.inj h
  simp only [Bool.and_eq_true, decide_eq_true_eq, Bool.not_eq_true', List.contains_eq_mem,
    decide_eq_false_iff_not] at h
  refine congrArg some ?_
  simp only [Bool.and_eq_true, decide_eq_true_eq, Bool.not_eq_true', List.contains_eq_mem,
    decide_eq_false_iff_not]
  refine ⟨⟨h.1.1, hhead h.1.2⟩, ?_⟩
  simpa only [substitute, ← List.map_tail] using hmem _ h.2

end Operator

namespace Graph

variable {g g' : Graph} {p : Pool} {ids : List OpId} {v : VarId} {e : Expr}

theorem Rewired.mem_readers {id : OpId} {x : VarId} (h : g.Rewired g' ids v e)
    (hall : ∀ id ∈ g.attached, g'.op id = (g.op id).map (·.substitute v e)) :
    id ∈ g'.readers x ↔ (id ∈ g.readers x ∧ x ≠ v) ∨ (id ∈ g.readers v ∧ e = .var x) := by
  simp only [Graph.mem_readers, Operator.readsVar, List.contains_iff_mem]
  constructor
  · rintro ⟨hid, op', hop', hreads⟩
    obtain ⟨hid, op, hop, rfl⟩ := h.exists_op hall hid hop'
    refine (Operator.mem_reads_substitute.mp hreads).imp ?_ ?_
    · rintro ⟨hx, hne⟩
      exact ⟨⟨hid, op, hop, hx⟩, hne⟩
    · rintro ⟨hv, he⟩
      exact ⟨⟨hid, op, hop, hv⟩, he⟩
  · intro hcase
    obtain ⟨hid, op, hop, hx⟩ :
        id ∈ g.attached ∧ ∃ op, g.op id = some op ∧ x ∈ (op.substitute v e).reads := by
      obtain ⟨⟨hid, op, hop, hx⟩, hne⟩ | ⟨⟨hid, op, hop, hv⟩, he⟩ := hcase
      · exact ⟨hid, op, hop, Operator.mem_reads_substitute.mpr (.inl ⟨hx, hne⟩)⟩
      · exact ⟨hid, op, hop, Operator.mem_reads_substitute.mpr (.inr ⟨hv, he⟩)⟩
    exact ⟨h.attached_eq ▸ hid, op.substitute v e, by rw [hall id hid, hop]; rfl, hx⟩

/-- Readers of a variable can read an operand of the same type instead, if no rule says how the
operand is to be read that they do not keep. -/
theorem Disciplined.rewired (hd : g.Disciplined p) (h : g.Rewired g' ids v e)
    (hall : ∀ id ∈ g.attached, g'.op id = (g.op id).map (·.substitute v e))
    (htype : g.typeOf e = g.typeOf (.var v))
    (hfixed : ∀ {id op}, id ∈ g.attached → g.op id = some op → v ∈ op.reads →
      op.kind ≠ .addressOf ∧ op.escapes p g = false)
    (hvalue : ∀ {y}, e = .var y → ∀ {id op}, id ∈ g.attached → g.op id = some op → y ∈ op.results →
      op.escapes p g = false ∧
        (op.isPlace → ∀ {user}, user ∈ g.readers v → op.mayFault ∨ g.Before id user)) :
    g'.Disciplined p := by
  have htypes : ∀ e, g'.typeOf e = g.typeOf e := (sameVars_of_vars_eq h.vars).typeOf
  have hescapes : ∀ {id op}, id ∈ g.attached → g.op id = some op →
      (op.substitute v e).escapes p g' → op.escapes p g ∧ v ∉ op.reads := by
    intro id op hid hop hesc
    have hold := Operator.escapes_of_substitute htypes htype hesc
    exact ⟨hold, fun hv => by simp [(hfixed hid hop hv).2] at hold⟩
  refine ⟨?_, ?_, ?_, ?_⟩
  · intro id hid op' hop'
    obtain ⟨hid, op, hop, rfl⟩ := h.exists_op hall hid hop'
    exact Operator.wellTyped_substitute htypes htype (hd.typed id hid op hop)
  · intro id hid op' hop' hesc q hq user huser userOp' huserOp'
    obtain ⟨hid, op, hop, rfl⟩ := h.exists_op hall hid hop'
    obtain ⟨-, userOp, huserOp, rfl⟩ := h.exists_op hall (mem_readers.mp huser).1 huserOp'
    obtain ⟨hesc, -⟩ := hescapes hid hop hesc
    have hqe : e ≠ .var q := fun he => by simp [(hvalue he hid hop hq).1] at hesc
    obtain ⟨huser, hqv⟩ := ((h.mem_readers hall).mp huser).resolve_right fun hv => hqe hv.2
    exact Operator.readsThrough_substitute hqv hqe
      (hd.readOnly id hid op hop hesc q hq user huser userOp huserOp)
  · intro id hid op' hop' hesc hkind x hx d hdef defOp' hdefOp'
    obtain ⟨hid, op, hop, rfl⟩ := h.exists_op hall hid hop'
    obtain ⟨-, defOp, hdefOp, rfl⟩ := h.exists_op hall (mem_definers.mp hdef).1 hdefOp'
    obtain ⟨hesc, hv⟩ := hescapes hid hop hesc
    obtain ⟨hx, -⟩ := (Operator.mem_reads_substitute.mp hx).resolve_right fun h => hv h.1
    rw [h.definers_eq hall] at hdef
    exact hd.notLoaded id hid op hop hesc hkind x hx d hdef defOp hdefOp
  · intro id hid op' hop' hplace q hq user huser
    obtain ⟨hid, op, hop, rfl⟩ := h.exists_op hall hid hop'
    rw [before_of_blocks_eq h.blocks]
    obtain ⟨hread, -⟩ | ⟨hv, he⟩ := (h.mem_readers hall).mp huser
    · obtain ⟨hbefore, hkinds⟩ := hd.nearby id hid op hop hplace q hq user hread
      refine ⟨hbefore, fun userOp' huserOp' => ?_⟩
      obtain ⟨-, userOp, huserOp, rfl⟩ := h.exists_op hall (mem_readers.mp huser).1 huserOp'
      exact hkinds userOp huserOp
    · refine ⟨(hvalue he hid hop hq).2 hplace hv, fun userOp' huserOp' => ?_⟩
      obtain ⟨huseratt, userOp, huserOp, rfl⟩ := h.exists_op hall (mem_readers.mp huser).1 huserOp'
      exact (hfixed huseratt huserOp (mem_reads_of_mem_readers hv huserOp)).1

end Graph
end ScalarLowering
