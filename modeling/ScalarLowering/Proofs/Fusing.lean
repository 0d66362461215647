import ScalarLowering.Proofs.Freshness
import ScalarLowering.Proofs.Idempotence
import ScalarLowering.Proofs.Lockstep

/-! An address and the one load through it, fused into a direct load. If the address is fresh at the
load then the fused graph replays every run: it never writes the variable that held the address,
and the direct load reads the place that the address was of. What makes the addresses fresh stays
true of those that are still to be fused. -/

namespace ScalarLowering

/-- The second frame is the first one but for a variable, which it leaves undefined. -/
structure Frame.Without (q : VarId) (s s' : Frame) : Prop extends Frame.Agree (· = q) s s' where
  undefined : s'.read (.var q) = some .undefined

namespace Frame.Without

variable {q : VarId} {s s' t : Frame} {a : Option (Location × Value)} {v : Value}

theorem skip (h : Without q s s') (ht : s.perform (some (.var q, v)) = some t) : Without q t s' :=
  ⟨h.toAgree.write_left rfl ht, h.undefined⟩

theorem perform (h : Without q s s') (ht : s.perform a = some t) (ha : ∀ v, a ≠ some (.var q, v)) :
    ∃ t', s'.perform a = some t' ∧ Without q t t' := by
  obtain ⟨t', ht', hagree⟩ := h.toAgree.perform ht
  refine ⟨t', ht', hagree, ?_⟩
  rcases a with _ | ⟨l, v⟩
  · obtain rfl := Option.some.inj ht'
    exact h.undefined
  · rw [Frame.read_perform ht', if_neg, h.undefined]
    rintro rfl
    exact ha v rfl

theorem keepsApart {g : Graph} {p : Pool} (h : Without q s s') (hsize : s.vars.size = g.vars.size)
    (hs : g.keepsApart p s) : g.keepsApart p s' := by
  refine List.all_eq_true.mpr fun x hx => ?_
  by_cases hxq : x = q
  · subst hxq
    rw [Graph.holdsApart, show s'.vars[x.index]? = some .undefined from h.undefined]
    simp [Value.isPayload]
  · rw [Graph.holdsApart, show s'.vars[x.index]? = s.vars[x.index]? from
      h.var hxq (hsize ▸ (Graph.mem_varIds g).mp hx)]
    exact List.all_eq_true.mp hs x hx

end Frame.Without

def fuse (address load : OpId) (ids : List OpId) (id : OpId) : List OpId :=
  if id = address then [] else splice load ids id

theorem fuse_address (address load : OpId) (ids : List OpId) : fuse address load ids address = [] :=
  if_pos rfl

theorem fuse_load {address load : OpId} (ids : List OpId) (h : address ≠ load) :
    fuse address load ids load = ids := by
  rw [fuse, if_neg (Ne.symm h), splice_self]

theorem fuse_of_ne {address load id : OpId} (ids : List OpId) (h : id ≠ address) (h' : id ≠ load) :
    fuse address load ids id = [id] := by
  rw [fuse, if_neg h, splice_of_ne ids h']

theorem fuse_eq_splice {address load : OpId} (ids : List OpId) (h : address ≠ load)
    (hids : address ∉ ids) (id : OpId) :
    (splice load ids id).flatMap (splice address []) = fuse address load ids id := by
  by_cases hload : id = load
  · rw [hload, splice_self, flatMap_splice_of_notMem [] hids, fuse_load ids h]
  · rw [fuse, splice_of_ne ids hload, List.flatMap_singleton, splice]

theorem exists_split_of_flatMap {f : OpId → List OpId} (hf : ∀ y, (f y).length ≤ 1)
    {l pre rest : List OpId} {id : OpId} (h : l.flatMap f = pre ++ id :: rest) :
    ∃ before y after, l = before ++ y :: after ∧ before.flatMap f = pre ∧ f y = [id] ∧
      rest = after.flatMap f := by
  induction l generalizing pre with
  | nil => simp at h
  | cons z l ih =>
    rw [List.flatMap_cons] at h
    cases hz : f z with
    | nil =>
      obtain ⟨before, y, after, rfl, hpre, hy, hrest⟩ := ih (by simpa [hz] using h)
      exact ⟨z :: before, y, after, rfl, by simp [hz, hpre], hy, hrest⟩
    | cons z' tail =>
      obtain rfl : tail = [] := by simpa [hz] using hf z
      rw [hz, List.singleton_append] at h
      cases pre with
      | nil =>
        obtain ⟨rfl, hrest⟩ := List.cons.inj h
        exact ⟨[], z, l, rfl, rfl, hz, hrest.symm⟩
      | cons first pre =>
        rw [List.cons_append] at h
        obtain ⟨rfl, htail⟩ := List.cons.inj h
        obtain ⟨before, y, after, rfl, hpre, hy, hrest⟩ := ih htail
        exact ⟨z :: before, y, after, rfl, by simp [hz, hpre], hy, hrest⟩

namespace Graph

variable {g g' : Graph} {p : Pool} {address load id d : OpId} {op read op' : Operator} {q x : VarId}
  {direct : OpKind} {ids pre rest : List OpId} {s s' t : Frame}

theorem LoneLoad.isPlace_of_reads (h : g.LoneLoad address load op read q) (hg : g.WellShaped)
    (hkind : op.kind.directLoad? = some direct) (hx : x ∈ op.reads) : op.isPlace := by
  obtain hplace | ⟨f, hstatic⟩ := Operator.isPlace_or_static hkind
  · exact hplace
  · have hlength : (Arity.exactly 0).admits op.args.length :=
      (hg.fits h.attached h.found).args (by rw [hstatic]; rfl)
    simp [Operator.reads, List.length_eq_zero_iff.mp (Arity.admits_exactly.mp hlength)] at hx

/-- The second graph has a direct load for an address and the one load through it, or nothing if the
load has no result and nothing can fail. -/
structure Fused (g g' : Graph) (address load : OpId) (op read : Operator) (q : VarId)
    (direct : OpKind) (ids : List OpId) : Prop where
  lone : g.LoneLoad address load op read q
  place : op.kind.directLoad? = some direct
  block : ∀ b, g'.block b = (g.block b).map fun block =>
    { block with ops := block.ops.flatMap (fuse address load ids) }
  entry : g'.entry = g.entry
  vars : g'.vars = g.vars
  kept : ∀ {id}, id ∈ g.attached → id ≠ address → id ≠ load → g'.op id = g.op id
  fresh : ∀ n ∈ ids, n ∉ g.attached
  new : ids = [] ∧ read.results = [] ∧ direct.isStaticLoad ∨
    ∃ n new, ids = [n] ∧ g'.op n = some new ∧ new.code = (Operator.directLoad direct op read).code

theorem fused_of_spliced {g₁ : Graph} (hg : g.Linked) (hlone : g.LoneLoad address load op read q)
    (hplace : op.kind.directLoad? = some direct) (hs : g.Spliced g₁ load ids)
    (hs' : g₁.Spliced g' address []) (hfresh : ∀ n ∈ ids, n ∉ g.attached)
    (hnew : ids = [] ∧ read.results = [] ∧ direct.isStaticLoad ∨ ∃ n new, ids = [n] ∧
      g₁.op n = some new ∧ new.code = (Operator.directLoad direct op read).code) :
    g.Fused g' address load op read q direct ids := by
  have hne := hlone.ne hplace
  have hnot : ∀ n ∈ ids, n ≠ address := fun n hn heq => hfresh n hn (heq ▸ hlone.attached)
  have hsize := (hs.grows hg).2.size_ops
  refine ⟨hlone, hplace, fun b => ?_, hs'.entry.trans hs.entry, hs'.vars.trans hs.vars,
    fun {id} hid haddress hload => ?_, hfresh, ?_⟩
  · rw [hs'.block, hs.block, Option.map_map]
    refine Option.map_congr fun block _ => ?_
    simp only [Function.comp, List.flatMap_assoc, fuse_eq_splice ids hne fun h => hnot _ h rfl]
  · have hlt := hg.lt_of_mem hid
    exact (hs'.op (.inl haddress) (Nat.lt_of_lt_of_le hlt hsize)).trans (hs.op (.inl hload) hlt)
  · refine hnew.imp_right ?_
    rintro ⟨n, new, rfl, hn, hcode⟩
    exact ⟨n, new, rfl, (hs'.op (.inl (hnot n (by simp))) (op_eq_some_lt hn)).trans hn, hcode⟩

namespace Fused

variable (h : g.Fused g' address load op read q direct ids)
include h

theorem ne : address ≠ load := h.lone.ne h.place

theorem sameVars : g.SameVars g' := sameVars_of_vars_eq h.vars

theorem length_fuse_le (id : OpId) : (fuse address load ids id).length ≤ 1 := by
  unfold fuse splice
  obtain ⟨rfl, -, -⟩ | ⟨n, -, rfl, -, -⟩ := h.new <;> split_ifs <;> simp

theorem mem_attached : id ∈ g'.attached ↔ id ∈ ids ∨ id ≠ address ∧ id ≠ load ∧ id ∈ g.attached := by
  rw [attached_of_blocks h.block, List.mem_flatMap]
  constructor
  · rintro ⟨y, hy, hid⟩
    by_cases haddress : y = address
    · simp [haddress, fuse_address] at hid
    · by_cases hload : y = load
      · rw [hload, fuse_load ids h.ne] at hid
        exact .inl hid
      · rw [fuse_of_ne ids haddress hload, List.mem_singleton] at hid
        subst hid
        exact .inr ⟨haddress, hload, hy⟩
  · rintro (hid | ⟨haddress, hload, hid⟩)
    · exact ⟨load, h.lone.attachedLoad, by rwa [fuse_load ids h.ne]⟩
    · exact ⟨id, hid, by simp [fuse_of_ne ids haddress hload]⟩

theorem exists_new (hid : id ∈ ids) :
    ∃ new, g'.op id = some new ∧ new.code = (Operator.directLoad direct op read).code := by
  obtain ⟨rfl, -, -⟩ | ⟨n, new, rfl, hnew, hcode⟩ := h.new
  · cases hid
  · obtain rfl := List.mem_singleton.mp hid
    exact ⟨new, hnew, hcode⟩

theorem cases_op (hid : id ∈ g'.attached) (hop : g'.op id = some op') :
    (id ∈ ids ∧ op'.code = (Operator.directLoad direct op read).code) ∨
      (id ≠ address ∧ id ≠ load ∧ id ∈ g.attached ∧ g.op id = some op') := by
  obtain hmem | ⟨haddress, hload, hid⟩ := h.mem_attached.mp hid
  · obtain ⟨new, hnew, hcode⟩ := h.exists_new hmem
    obtain rfl := Option.some.inj (hop.symm.trans hnew)
    exact .inl ⟨hmem, hcode⟩
  · exact .inr ⟨haddress, hload, hid, h.kept hid haddress hload ▸ hop⟩

theorem not_mem_ids (hop : g'.op id = some op') (hkind : op'.isPlace ∨ (∃ t, op'.kind = .loadIndirect t) ∨
    op'.targets ≠ []) : id ∉ ids := by
  intro hid
  obtain ⟨new, hnew, hcode⟩ := h.exists_new hid
  obtain rfl := Option.some.inj (hop.symm.trans hnew)
  have hdirect : op'.kind = direct := (Operator.code_eq.mp hcode).1
  obtain ⟨f, -, rfl⟩ | ⟨f, -, rfl⟩ | ⟨-, rfl⟩ := OpKind.directLoad?_cases h.place <;>
    simp [Operator.isPlace, Operator.targets, OpKind.targets, hdirect] at hkind

theorem address_defines : op.definesOnly ∧ op.isControl = false := by
  obtain ⟨f, hk, -⟩ | ⟨f, hk, -⟩ | ⟨hk, -⟩ := OpKind.directLoad?_cases h.place <;>
    simp [Operator.definesOnly, Operator.isControl, hk, OpKind.isControl]

theorem load_defines : read.definesOnly ∧ read.isControl = false := by
  obtain ⟨t, hkind⟩ := h.lone.kind
  simp [Operator.definesOnly, Operator.isControl, hkind, OpKind.isControl]

theorem exists_new_of_isPlace (hplace : op.isPlace) :
    ∃ n new, ids = [n] ∧ g'.op n = some new ∧ new.code = (Operator.directLoad direct op read).code := by
  refine h.new.resolve_left fun hvoid => ?_
  obtain ⟨f, hk, rfl⟩ | ⟨f, hk, rfl⟩ | ⟨hk, rfl⟩ := OpKind.directLoad?_cases h.place
  · simp [OpKind.isStaticLoad] at hvoid
  · simp [Operator.isPlace, hk] at hplace
  · simp [OpKind.isStaticLoad] at hvoid

theorem exists_mem_ids (hg : g.WellShaped) (hx : x ∈ op.reads) : ∃ n, n ∈ ids := by
  obtain ⟨n, -, rfl, -⟩ := h.exists_new_of_isPlace (h.lone.isPlace_of_reads hg h.place hx)
  exact ⟨n, List.mem_singleton_self n⟩

theorem exists_op_iff {P : Operator → Prop} (hP : ∀ {o o' : Operator}, o.code = o'.code → P o → P o') :
    (id ∈ g'.attached ∧ ∃ o, g'.op id = some o ∧ P o) ↔
      id ∈ ids ∧ P (.directLoad direct op read) ∨
        id ≠ address ∧ id ≠ load ∧ id ∈ g.attached ∧ ∃ o, g.op id = some o ∧ P o := by
  constructor
  · rintro ⟨hid, o, ho, hPo⟩
    obtain ⟨hmem, hcode⟩ | ⟨haddress, hload, hid, ho⟩ := h.cases_op hid ho
    · exact .inl ⟨hmem, hP hcode hPo⟩
    · exact .inr ⟨haddress, hload, hid, o, ho, hPo⟩
  · rintro (⟨hmem, hPo⟩ | ⟨haddress, hload, hid, o, ho, hPo⟩)
    · obtain ⟨new, hnew, hcode⟩ := h.exists_new hmem
      exact ⟨h.mem_attached.mpr (.inl hmem), new, hnew, hP hcode.symm hPo⟩
    · exact ⟨h.mem_attached.mpr (.inr ⟨haddress, hload, hid⟩), o,
        (h.kept hid haddress hload).trans ho, hPo⟩

theorem mem_definers : d ∈ g'.definers x ↔
    d ∈ ids ∧ x ∈ read.results ∨ d ≠ address ∧ d ≠ load ∧ d ∈ g.definers x := by
  rw [Graph.mem_definers, Graph.mem_definers, h.exists_op_iff]
  · simp [Operator.definesVar, Operator.directLoad]
  · intro o o' hcode ho
    rwa [Operator.definesVar, ← (Operator.code_eq.mp hcode).2.2.1]

theorem mem_readers : d ∈ g'.readers x ↔
    d ∈ ids ∧ x ∈ op.reads ∨ d ≠ address ∧ d ≠ load ∧ d ∈ g.readers x := by
  rw [Graph.mem_readers, Graph.mem_readers, h.exists_op_iff]
  · simp [Operator.readsVar, Operator.reads, Operator.directLoad]
  · intro o o' hcode ho
    rwa [Operator.readsVar, Operator.reads, ← (Operator.code_eq.mp hcode).2.1]

theorem origin_of_mem (hid : id ∈ g.attached) : spliceOrigin load ids id = id :=
  if_neg fun hmem => h.fresh id hmem hid

theorem origin_of_fuse {y : OpId} (hy : y ∈ g.attached) (hid : fuse address load ids y = [id]) :
    spliceOrigin load ids id = y := by
  by_cases haddress : y = address
  · simp [haddress, fuse_address] at hid
  · by_cases hload : y = load
    · rw [hload, fuse_load ids h.ne] at hid
      simp [spliceOrigin, hid, hload]
    · rw [fuse_of_ne ids haddress hload] at hid
      obtain rfl : y = id := by simpa using hid
      exact h.origin_of_mem hy

theorem mem_definers_origin (hd : d ∈ g'.definers x) : spliceOrigin load ids d ∈ g.definers x := by
  obtain ⟨hmem, hresults⟩ | ⟨-, -, hd⟩ := h.mem_definers.mp hd
  · rw [spliceOrigin, if_pos hmem]
    exact mem_definers_of_results h.lone.attachedLoad h.lone.foundLoad hresults
  · rwa [h.origin_of_mem (Graph.mem_definers.mp hd).1]

theorem definers_origin (hg : g.WellShaped) (hx : x ≠ q) (hdefs : g'.definers x = [d]) :
    g.definers x = [spliceOrigin load ids d] := by
  refine (definers_eq_singleton hg.linked).mpr fun id => ⟨fun hid => ?_, ?_⟩
  · obtain ⟨hattached, source, hsource, hdefines⟩ := Graph.mem_definers.mp hid
    have hmem : x ∈ source.results := by simpa [Operator.definesVar] using hdefines
    by_cases haddress : id = address
    · subst haddress
      obtain rfl := Option.some.inj (h.lone.found.symm.trans hsource)
      exact absurd (by simpa [h.lone.results hg] using hmem) hx
    by_cases hload : id = load
    · subst hload
      obtain rfl := Option.some.inj (h.lone.foundLoad.symm.trans hsource)
      obtain ⟨-, hvoid, -⟩ | ⟨n, -, rfl, -⟩ := h.new
      · simp [hvoid] at hmem
      · have hn : n ∈ g'.definers x := h.mem_definers.mpr (.inl ⟨List.mem_singleton_self n, hmem⟩)
        rw [hdefs, List.mem_singleton] at hn
        simp [hn, spliceOrigin]
    · have hid' : id ∈ g'.definers x := h.mem_definers.mpr (.inr ⟨haddress, hload, hid⟩)
      rw [hdefs, List.mem_singleton] at hid'
      rw [← hid', h.origin_of_mem hattached]
  · rintro rfl
    exact h.mem_definers_origin (hdefs ▸ List.mem_singleton_self d)

theorem lone_origin {a l : OpId} {o r : Operator} (hg : g.WellShaped)
    (hlone : g'.LoneLoad a l o r x) (hplace : o.isPlace) :
    g.LoneLoad a l o r x ∧ (a ≠ address ∧ a ≠ load ∧ a ∉ ids) ∧ l ∉ ids := by
  have haids := h.not_mem_ids hlone.found (.inl hplace)
  have hlids := h.not_mem_ids hlone.foundLoad (.inr (.inl hlone.kind))
  obtain ⟨hmem, -⟩ | ⟨haddress, hload, ha, hao⟩ := h.cases_op hlone.attached hlone.found
  · exact absurd hmem haids
  obtain ⟨hmem, -⟩ | ⟨-, -, -, hlo⟩ := h.cases_op hlone.attachedLoad hlone.foundLoad
  · exact absurd hmem hlids
  have hx : x ≠ q := by
    rintro rfl
    obtain ⟨hmem, -⟩ | ⟨-, -, hd⟩ := h.mem_definers.mp (hlone.alone ▸ List.mem_singleton_self a)
    · exact haids hmem
    · exact haddress (by simpa [h.lone.alone] using hd)
  refine ⟨⟨hao, hlo, ?_, ?_, hlone.kind⟩, ⟨haddress, hload, haids⟩, hlids⟩
  · rw [h.definers_origin hg hx hlone.alone, h.origin_of_mem ha]
  · refine (readers_eq_singleton hg.linked).mpr fun id => ⟨fun hid => ?_, ?_⟩
    · obtain ⟨-, user, huser, hreads⟩ := Graph.mem_readers.mp hid
      have hmem : x ∈ user.reads := List.contains_iff_mem.mp hreads
      by_cases haddr : id = address
      · -- the direct load reads the operands of the address
        subst haddr
        obtain rfl := Option.some.inj (h.lone.found.symm.trans huser)
        obtain ⟨n, hn⟩ := h.exists_mem_ids hg hmem
        have hn' : n ∈ g'.readers x := h.mem_readers.mpr (.inl ⟨hn, hmem⟩)
        rw [hlone.sole, List.mem_singleton] at hn'
        exact absurd (hn' ▸ hn) hlids
      by_cases hl : id = load
      · subst hl
        obtain rfl := Option.some.inj (h.lone.foundLoad.symm.trans huser)
        exact absurd (by simpa [Operator.reads, h.lone.args hg] using hmem) hx
      · have hid' : id ∈ g'.readers x := h.mem_readers.mpr (.inr ⟨haddr, hl, hid⟩)
        simpa [hlone.sole] using hid'
    · rintro rfl
      obtain ⟨hmem, -⟩ | ⟨-, -, hr⟩ := h.mem_readers.mp (hlone.sole ▸ List.mem_singleton_self id)
      · exact absurd hmem hlids
      · exact hr

/-- What stands around an operator of the fused graph was put for what stood around its origin. -/
theorem at_origin (hat : g'.At pre (id :: rest)) : ∃ pre₀ rest₀,
    g.At pre₀ (spliceOrigin load ids id :: rest₀) ∧ pre = pre₀.flatMap (fuse address load ids) ∧
      rest = rest₀.flatMap (fuse address load ids) := by
  obtain ⟨b, block', hb', hops'⟩ := hat
  obtain ⟨block, hb, rfl⟩ := Option.map_eq_some_iff.mp ((h.block b).symm.trans hb')
  obtain ⟨before, y, after, hops, hpre, hy, hrest⟩ := exists_split_of_flatMap h.length_fuse_le hops'
  have hyattached : y ∈ g.attached := Graph.mem_attached.mpr ⟨b, block, hb, by simp [hops]⟩
  obtain rfl := h.origin_of_fuse hyattached hy
  exact ⟨before, after, ⟨b, block, hb, hops⟩, hpre.symm, hrest⟩

theorem before_origin {first second : OpId} (hbefore : g'.Before first second) :
    g.Before (spliceOrigin load ids first) (spliceOrigin load ids second) := by
  obtain ⟨pre, rest, hat, hmem⟩ := before_iff.mp hbefore
  obtain ⟨pre₀, rest₀, hat₀, rfl, -⟩ := h.at_origin hat
  obtain ⟨y, hy, hfirst⟩ := List.mem_flatMap.mp hmem
  have hsingle : fuse address load ids y = [first] := by
    obtain ⟨z, hz⟩ := List.length_eq_one_iff.mp
      (Nat.le_antisymm (h.length_fuse_le y) (List.length_pos_of_mem hfirst))
    rw [hz] at hfirst ⊢
    rw [List.mem_singleton.mp hfirst]
  obtain ⟨b, block, hb, hops⟩ := hat₀
  obtain rfl := h.origin_of_fuse (Graph.mem_attached.mpr ⟨b, block, hb, by simp [hops, hy]⟩) hsingle
  exact before_iff.mpr ⟨pre₀, rest₀, ⟨b, block, hb, hops⟩, hy⟩

theorem definedBetween_origin {first second : OpId} (hfirst : first ∉ ids) (hsecond : second ∉ ids)
    (hbetween : g'.DefinedBetween first second x) : g.DefinedBetween first second x := by
  obtain ⟨d, hd, hbefore, hbehind⟩ := hbetween
  have hbefore := h.before_origin hbefore
  have hbehind := h.before_origin hbehind
  rw [show spliceOrigin load ids first = first from if_neg hfirst] at hbefore
  rw [show spliceOrigin load ids second = second from if_neg hsecond] at hbehind
  exact ⟨_, h.mem_definers_origin hd, hbefore, hbehind⟩

/-- A way through the fused graph goes where a way went before. -/
theorem leads_origin {a l : OpId} (hleads : g'.Leads a l rest) (ha : a ≠ address) (ha' : a ≠ load)
    (hl : l ∉ ids) {rest₀ : List OpId} (hrest : rest = rest₀.flatMap (fuse address load ids))
    (hattached : ∀ id ∈ rest₀, id ∈ g.attached) : g.Leads a l rest₀ := by
  have hgone : ∀ {before : List OpId}, before.flatMap (fuse address load ids) = [] → a ∉ before := by
    intro before hbefore hmem
    simpa [fuse_of_ne ids ha ha'] using List.flatMap_eq_nil_iff.mp hbefore a hmem
  induction hleads generalizing rest₀ with
  | here =>
    obtain ⟨before, y, after, rfl, hbefore, hy, -⟩ :=
      exists_split_of_flatMap h.length_fuse_le (hrest.symm.trans (List.nil_append _).symm)
    have horigin := h.origin_of_fuse (hattached y (by simp)) hy
    rw [spliceOrigin, if_neg hl] at horigin
    subst horigin
    exact .append (hgone hbefore) .here
  | @next id rest hne _ ih =>
    obtain ⟨before, y, after, rfl, hbefore, hy, hafter⟩ :=
      exists_split_of_flatMap h.length_fuse_le (hrest.symm.trans (List.nil_append _).symm)
    refine .append (hgone hbefore) (.next ?_ (ih hafter fun z hz => hattached z (by simp [hz])))
    rintro rfl
    exact hne (by simpa [fuse_of_ne ids ha ha'] using hy.symm)
  | @goto id rest o b block' ho hb hblock' _ ih =>
    obtain ⟨before, y, after, rfl, hbefore, hy, -⟩ :=
      exists_split_of_flatMap h.length_fuse_le (hrest.symm.trans (List.nil_append _).symm)
    have hyattached := hattached y (by simp)
    have horigin := h.origin_of_fuse hyattached hy
    rw [spliceOrigin, if_neg (h.not_mem_ids ho (.inr (.inr (List.ne_nil_of_mem hb))))] at horigin
    subst horigin
    obtain ⟨block, hblock, rfl⟩ := Option.map_eq_some_iff.mp ((h.block b).symm.trans hblock')
    have haddress : id ≠ address := by
      rintro rfl
      simp [fuse_address] at hy
    have hload : id ≠ load := by
      rintro rfl
      rw [fuse_load ids h.ne] at hy
      exact h.fresh id (by simp [hy]) hyattached
    refine .append (hgone hbefore) (.goto (h.kept hyattached haddress hload ▸ ho) hb hblock ?_)
    exact ih rfl fun z hz => Graph.mem_attached.mpr ⟨b, block, hblock, hz⟩

theorem result?_ne (hid : id ∈ g.attached) (hop : g.op id = some op') (hne : id ≠ address) :
    op'.result? ≠ some q := by
  intro hresult
  have hmem := mem_definers_of_result? hid hop hresult
  rw [h.lone.alone, List.mem_singleton] at hmem
  exact hne hmem

theorem action_ne {a : Option (Location × Value)} (hs : g.Sane p s) (hid : id ∈ g.attached)
    (hop : g.op id = some op') (hne : id ≠ address) (ha : op'.action p g s = .ok a) (v : Value) :
    a ≠ some (.var q, v) := by
  rintro rfl
  obtain hresult | ⟨l, hl⟩ := Operator.action_target ha rfl
  · exact h.result?_ne hid hop hne hresult
  · exact h.lone.not_exposed (hs.exposed hl)

theorem mirrors {new : Operator} (hg : g.WellShaped) (hs : g.Sane p s) (hs' : s.Agree (· = q) s')
    (hcode : new.code = op'.code) (hreads : ∀ x ∈ op'.reads, x ≠ q ∧ x.index < g.vars.size) :
    op'.Mirrors new g g' s s' ∧ (op'.Safe p g s → new.Safe p g' s') :=
  mirrors_of_code op' hg (fun _ _ => h.sameVars.typeOf _) (fun x (hx : x = q) => hx ▸ h.lone.not_exposed)
    (fun x hx => hs.size ▸ hreads x hx) hcode hs hs'

theorem ne_of_mem_reads (hid : id ∈ g.attached) (hop : g.op id = some op') (hload : id ≠ load)
    (hx : x ∈ op'.reads) : x ≠ q := by
  rintro rfl
  exact hload (by simpa [h.lone.sole] using mem_readers_of_reads hid hop hx)

theorem action_direct {a : Option (Location × Value)} (hg : g.WellShaped) (hfits : op.fieldFits p g)
    (hapart : op.Apart p g s) (hfresh : op.Fresh p g q s) (ha : read.action p g s = .ok a) :
    (Operator.directLoad direct op read).action p g s = .ok a := by
  obtain ⟨ty, hkind⟩ := h.lone.kind
  obtain ⟨l, w, hl, hw, rfl⟩ := (Operator.loadIndirect_eq_ok hkind (x := q) (by simp [h.lone.args hg])).mp ha
  obtain hundefined | ⟨l', haction, hl'⟩ := hfresh
  · simp [hl] at hundefined
  obtain rfl : l = l' := by simpa [hl] using hl'
  exact Operator.directLoad_action h.place hfits hapart haction hw

/-- The direct load does in the fused graph what the load through the address did. -/
theorem step_direct {new : Operator} {control : Control} (hg : g.WellShaped)
    (hfits : op.fieldFits p g) (hapart : op.Apart p g s) (hfresh : op.Fresh p g q s) (hs : g.Sane p s)
    (hs' : s.Without q s') (hcode : new.code = (Operator.directLoad direct op read).code)
    (hstep : read.step p g s = .ok (control, t)) :
    ∃ t', new.step p g' s' = .ok (control, t') ∧ t.Without q t' := by
  obtain ⟨hcontrol, a, ha, ht⟩ := Operator.step_eq_ok.mp hstep
  obtain ⟨t', ht', hwithout⟩ :=
    hs'.perform ht (h.action_ne hs h.lone.attachedLoad h.lone.foundLoad h.ne.symm ha)
  have hdirect := h.action_direct hg hfits hapart hfresh ha
  obtain ⟨hm, -⟩ := h.mirrors hg hs hs'.toAgree hcode fun x hx =>
    ⟨h.lone.ne_of_mem_reads h.place hx, hg.known h.lone.attached h.lone.found hx⟩
  refine ⟨t', Operator.step_eq_ok.mpr ⟨?_, _, hm.action.trans hdirect, ht'⟩, hwithout⟩
  have hnext : (Operator.directLoad direct op read).isControl = false :=
    (directLoad?_operands h.place).2.2.1
  rw [hm.control, Operator.control_of_not_isControl hnext, ← hcontrol,
    Operator.control_of_not_isControl h.load_defines.2]

/-- The fused graph keeps up: it has nothing to do for the address, and its own load to do for the
load through it. -/
theorem keepsUp {I : List OpId → List OpId → Frame → Prop} (hg : g.WellShaped)
    (hI : g.WideInvariant p I) (hfits : op.fieldFits p g)
    (hfresh : ∀ {pre rest s}, g.At pre (load :: rest) → I pre (load :: rest) s → op.Fresh p g q s) :
    g.KeepsUp g' p (fun s => g.keepsApart p s) (fuse address load ids) fun pre rest s s' =>
      (g.Sane p s ∧ I pre rest s) ∧ s.Without q s' := by
  obtain ⟨info, hinfo, harg⟩ := h.lone.info hg
  refine ⟨h.sameVars.arguments, h.entry, fun {b block} hb => ?_, fun hb hclean => ?_, ?_⟩
  · rw [h.block, hb]
    exact ⟨_, rfl, rfl⟩
  · rw [h.sameVars.initial]
    exact ⟨⟨sane_initial hclean, hI.start hb hclean⟩, .refl _, read_initial hinfo harg⟩
  rintro pre id rest op' s s' control t pre' rest' hat ⟨⟨hs, hIs⟩, hs'⟩ hop hkeeps hstep hresumes
  have hid := mem_attached_of_at hat
  obtain ⟨hcontrol, a, ha, ht⟩ := Operator.step_eq_ok.mp hstep
  have hkept : g.Sane p t ∧ I pre' rest' t :=
    ⟨hs.step hid hop (apart_of_keepsApart hkeeps hs) ha ht,
      hI.resume hat hs hIs hop (apart_of_keepsApart hkeeps hs) hstep hresumes⟩
  by_cases haddress : id = address
  · subst haddress
    obtain rfl := Option.some.inj (h.lone.found.symm.trans hop)
    rw [Operator.control_of_not_isControl h.address_defines.2] at hcontrol
    refine .inl ⟨fuse_address _ _ _, (Except.ok.inj hcontrol).symm, hkept, ?_⟩
    obtain rfl | ⟨v, rfl⟩ := Operator.action_of_definesOnly h.address_defines.1 ha
    · exact Option.some.inj ht ▸ hs'
    · rw [Operator.into, hg.result?_eq hid hop (v := q) (by simp [h.lone.results hg])] at ht
      exact hs'.skip ht
  by_cases hload : id = load
  · subst hload
    obtain rfl := Option.some.inj (h.lone.foundLoad.symm.trans hop)
    obtain ⟨rfl, hvoid, -⟩ | ⟨n, new, rfl, hnew, hcode⟩ := h.new
    · rw [Operator.control_of_not_isControl h.load_defines.2] at hcontrol
      refine .inl ⟨fuse_load _ h.ne, (Except.ok.inj hcontrol).symm, hkept, ?_⟩
      obtain rfl : a = none := by
        obtain rfl | ⟨v, rfl⟩ := Operator.action_of_definesOnly h.load_defines.1 ha
        · rfl
        · simp [Operator.into, Operator.result?, hvoid]
      exact Option.some.inj ht ▸ hs'
    · obtain ⟨t', hstep', hwithout⟩ := h.step_direct hg hfits (apart_of_keepsApart hkeeps hs)
        (hfresh hat hIs) hs hs' hcode hstep
      exact .inr ⟨n, new, t', fuse_load _ h.ne, hnew, hstep', hkept, hwithout⟩
  · obtain ⟨hm, -⟩ := h.mirrors hg hs hs'.toAgree rfl fun x hx =>
      ⟨h.ne_of_mem_reads hid hop hload hx, hg.known hid hop hx⟩
    obtain ⟨t', ht', hwithout⟩ := hs'.perform ht (h.action_ne hs hid hop haddress ha)
    exact .inr ⟨id, op', t', fuse_of_ne _ haddress hload, (h.kept hid haddress hload).trans hop,
      Operator.step_eq_ok.mpr ⟨hm.control.trans hcontrol, a, hm.action.trans ha, ht'⟩, hkept, hwithout⟩

theorem fieldReadOnly (hx : g.FieldReadOnly p x) : g'.FieldReadOnly p x := by
  intro hscalar id hid o ho hkind hhead r hr user huser o' ho'
  have hplace : o.isPlace := by
    cases hk : o.kind <;> simp [hk, OpKind.isFieldAddress] at hkind
    simp [Operator.isPlace, hk]
  obtain ⟨hmem, -⟩ | ⟨-, -, hid, ho⟩ := h.cases_op hid ho
  · exact absurd hmem (h.not_mem_ids ho (.inl hplace))
  rw [isScalarExpr_congr (h.sameVars.typeOf _)] at hscalar
  have hthrough := hx hscalar id hid o ho hkind hhead r hr
  obtain ⟨-, hreads⟩ | ⟨haddress, hload, huser⟩ := h.mem_readers.mp huser
  · -- the address would have read more than through the pointer
    have hpasses := hthrough address (mem_readers_of_reads h.lone.attached h.lone.found hreads) op
      h.lone.found
    obtain ⟨f, hk, -⟩ | ⟨f, hk, -⟩ | ⟨hk, -⟩ := OpKind.directLoad?_cases h.place <;>
      simp [Pool.readsThrough, hk] at hpasses
  · exact hthrough user huser o' (h.kept (Graph.mem_readers.mp huser).1 haddress hload ▸ ho')

end Fused

/-- The addresses of fields and elements that are only loaded from, once, are fresh at the load. The
field can be loaded. If the address is not checked, it is taken again on every way from the
definition of an operand to the load. Nothing writes the operands through a pointer to the field of
a wrapper; of a checked address, only those that are defined between the address and the load. -/
structure SteadyPlaces (g : Graph) (p : Pool) : Prop where
  fits : ∀ {address load op read q}, g.LoneLoad address load op read q → op.isPlace →
    op.fieldFits p g
  readOnly : ∀ {address load op read q}, g.LoneLoad address load op read q → op.isPlace →
    ∀ y ∈ op.reads, (op.mayFault → g.DefinedBetween address load y) → g.FieldReadOnly p y
  retaken : ∀ {address load op read q}, g.LoneLoad address load op read q → op.isPlace →
    op.mayFault = false → ∀ y ∈ op.reads, ∀ {d}, g.definers y = [d] → ∀ {pre rest},
      g.At pre (d :: rest) → ¬g.Leads address load rest

theorem fieldFits_congr (h : g.SameVars g') (op : Operator) : op.fieldFits p g' = op.fieldFits p g := by
  simp only [Operator.fieldFits, isScalarExpr_congr (h.typeOf _)]

/-- Fusing one pair leaves the other addresses fresh. -/
theorem SteadyPlaces.fused (hsteady : g.SteadyPlaces p) (hg : g.WellShaped)
    (h : g.Fused g' address load op read q direct ids) : g'.SteadyPlaces p := by
  refine ⟨fun {a l o r x} hlone hplace => ?_, fun {a l o r x} hlone hplace y hy hbetween => ?_,
    fun {a l o r x} hlone hplace hfault y hy d hdefs pre rest hat hleads => ?_⟩ <;>
    obtain ⟨hlone₀, ⟨haddress, hload, ha⟩, hl⟩ := h.lone_origin hg hlone hplace
  · rw [fieldFits_congr h.sameVars]
    exact hsteady.fits hlone₀ hplace
  · exact h.fieldReadOnly (hsteady.readOnly hlone₀ hplace y hy fun hfault =>
      h.definedBetween_origin ha hl (hbetween hfault))
  · have hyq : y ≠ q := h.ne_of_mem_reads hlone₀.attached hlone₀.found hload hy
    obtain ⟨pre₀, rest₀, hat₀, -, rfl⟩ := h.at_origin hat
    refine hsteady.retaken hlone₀ hplace hfault y hy (h.definers_origin hg hyq hdefs) hat₀
      (h.leads_origin hleads haddress hload hl rfl fun z hz => ?_)
    obtain ⟨b, block, hb, hops⟩ := hat₀
    exact Graph.mem_attached.mpr ⟨b, block, hb, by simp [hops, hz]⟩

theorem SteadyPlaces.of_sameCode (hsteady : g.SteadyPlaces p) (h : g.SameCode g') :
    g'.SteadyPlaces p := by
  have hlone : ∀ {address load op read q}, g'.LoneLoad address load op read q →
      g.LoneLoad address load op read q := fun hlone =>
    ⟨h.op_eq ▸ hlone.found, h.op_eq ▸ hlone.foundLoad, h.definers_eq ▸ hlone.alone,
      h.readers_eq ▸ hlone.sole, hlone.kind⟩
  have hleads : ∀ {a l rest}, g'.Leads a l rest → g.Leads a l rest := by
    intro a l rest hleads
    induction hleads with
    | here => exact .here
    | next hne _ ih => exact .next hne ih
    | goto ho hb hblock' _ ih => exact .goto (h.op_eq ▸ ho) hb (h.block_eq ▸ hblock') ih
  refine ⟨fun hl hplace => ?_, fun hl hplace y hy hbetween => ?_,
    fun hl hplace hfault y hy d hdefs pre rest hat hway => ?_⟩
  · rw [fieldFits_congr h.sameVars]
    exact hsteady.fits (hlone hl) hplace
  · have hreadOnly := hsteady.readOnly (hlone hl) hplace y hy fun hfault => by
      obtain ⟨d, hd, hbefore, hbehind⟩ := hbetween hfault
      exact ⟨d, h.definers_eq ▸ hd, (before_of_blocks_eq h.blocks).mp hbefore,
        (before_of_blocks_eq h.blocks).mp hbehind⟩
    unfold FieldReadOnly OnlyReadThrough at hreadOnly ⊢
    rwa [h.attached_eq, h.op_eq, h.readers_eq, isScalarExpr_congr (h.sameVars.typeOf _)]
  · obtain ⟨b, block, hb, hops⟩ := hat
    have hat₀ : g.At pre (d :: rest) := ⟨b, block, h.block_eq ▸ hb, hops⟩
    exact hsteady.retaken (hlone hl) hplace hfault y hy (h.definers_eq ▸ hdefs) hat₀ (hleads hway)

/-- The fused graph replays the runs of a graph whose addresses stay fresh. -/
theorem Fused.replays {c : Chains} (h : g.Fused g' address load op read q direct ids)
    (hg : g.WellShaped) (hc : Tracks c g) (hsteady : g.SteadyPlaces p)
    (hstable : ∀ e ∈ op.args, g.isStable p c e = .ok true)
    (hnear : op.mayFault → g.faultMovesDown address load) : g.Replays g' p := by
  have hone : ∀ y ∈ op.reads, ∀ {d d'}, d ∈ g.definers y → d' ∈ g.definers y → d = d' :=
    fun y hy => (isStable_spec hc (hstable _ (mem_reads.mp hy))).1
  have hquiet : ∀ y ∈ op.reads, (op.mayFault → g.DefinedBetween address load y) → g.Quiet p y :=
    fun y hy hbetween => (hsteady.readOnly h.lone (h.lone.isPlace_of_reads hg h.place hy) y hy hbetween).quiet hg hc
      (hstable _ (mem_reads.mp hy))
  have hfits : op.fieldFits p g := by
    obtain hplace | ⟨f, hstatic⟩ := Operator.isPlace_or_static h.place
    · exact hsteady.fits h.lone hplace
    · simp [Operator.fieldFits, hstatic]
  obtain ⟨I, hI, hfresh⟩ := h.lone.exists_fresh hg h.place hnear hquiet hone
    fun hfault y hy d hd pre rest hat => hsteady.retaken h.lone (h.lone.isPlace_of_reads hg h.place hy) hfault y hy
      ((definers_eq_singleton hg.linked).mpr fun id =>
        ⟨fun hid => hone y hy hid hd, fun heq => heq ▸ hd⟩) hat
  refine (h.keepsUp hg hI hfits hfresh).replays ?_
  rintro pre rest s s' ⟨⟨hs, -⟩, hs'⟩
  refine ⟨hs'.heap, fun hkeeps => ?_⟩
  rw [h.sameVars.keepsApart]
  exact hs'.keepsApart hs.size hkeeps

end Graph

namespace Edit

open ScalarLowering.Graph

variable {g g' : Graph} {p : Pool} {c : Chains} {id : OpId} {args : List Value} {heap : Heap}
  {fuel : Nat} {o : Outcome}

theorem foldPlace_spec {b : Bool} (hc : Tracks c g) (h : foldPlace p c id g = .ok b g') :
    g' = g ∨ ∃ load op read q direct g₁ left, g.LoneLoad id load op read q ∧
      op.kind.directLoad? = some direct ∧ (∀ e ∈ op.args, g.isStable p c e = .ok true) ∧
      (op.mayFault → g.faultMovesDown id load) ∧ remove id .discard g₁ = .ok left g' ∧
      (read.results = [] ∧ direct.isStaticLoad ∧ (∃ left, remove load .discard g = .ok left g₁) ∨
        ∃ n, substitute load (.directLoad direct op read) .keep g = .ok n g₁) := by
  obtain ⟨found, hfound, h⟩ := query_bind_eq_ok.mp h
  rcases found with _ | ⟨load, operator⟩
  · exact .inl (pure_eq_ok.mp h).2.symm
  obtain ⟨op, read, direct, hload, hop, hplace, hstable, hfault, hread, hcase⟩ := directLoad_spec hfound
  obtain ⟨q, -, hlone⟩ := loneLoad_of_query hc hload hop hread
  have hrest : ∀ {g₁ : Graph}, (remove id .discard >>= fun _ => pure true : Edit Bool) g₁ = .ok b g' →
      ∃ left, remove id .discard g₁ = .ok left g' := by
    intro g₁ h
    obtain ⟨left, g₂, hremove, h⟩ := bind_eq_ok.mp h
    obtain ⟨-, rfl⟩ := pure_eq_ok.mp h
    exact ⟨left, hremove⟩
  refine .inr ⟨load, op, read, q, direct, ?_⟩
  obtain ⟨hvoid, hstatic, rfl⟩ | ⟨-, rfl⟩ := hcase
  · obtain ⟨left, g₁, hremove, h⟩ := bind_eq_ok.mp h
    obtain ⟨left', hremove'⟩ := hrest h
    exact ⟨g₁, left', hlone, hplace, allStable_spec hstable, hfault, hremove',
      .inl ⟨hvoid, hstatic, left, hremove⟩⟩
  · obtain ⟨n, g₁, hsubstitute, h⟩ := bind_eq_ok.mp h
    obtain ⟨left', hremove'⟩ := hrest h
    exact ⟨g₁, left', hlone, hplace, allStable_spec hstable, hfault, hremove', .inr ⟨n, hsubstitute⟩⟩

theorem fused_of_foldPlace {b : Bool} (hg : g.Linked) (hc : Tracks c g)
    (h : foldPlace p c id g = .ok b g') : g' = g ∨ ∃ load op read q direct ids,
      g.Fused g' id load op read q direct ids ∧ (∀ e ∈ op.args, g.isStable p c e = .ok true) ∧
      (op.mayFault → g.faultMovesDown id load) := by
  obtain rfl | ⟨load, op, read, q, direct, g₁, left, hlone, hplace, hstable, hfault, hremove, hcase⟩ :=
    foldPlace_spec hc h
  · exact .inl rfl
  refine .inr ⟨load, op, read, q, direct, ?_⟩
  obtain ⟨hvoid, hstatic, left, hload⟩ | ⟨n, hload⟩ := hcase
  · obtain ⟨hs, -⟩ := remove_discard_spec hg hload
    obtain ⟨hs', -⟩ := remove_discard_spec (hs.grows hg).1 hremove
    exact ⟨[], fused_of_spliced hg hlone hplace hs hs' (by simp) (.inl ⟨rfl, hvoid, hstatic⟩), hstable,
      hfault⟩
  · obtain ⟨hs, rfl, hcode⟩ := substitute_spec hg hload
    obtain ⟨hs', -⟩ := remove_discard_spec (hs.grows hg).1 hremove
    obtain ⟨new, hnew, hcode⟩ := Option.map_eq_some_iff.mp hcode
    refine ⟨[⟨g.ops.size⟩], fused_of_spliced hg hlone hplace hs hs' (fun n hn => ?_)
      (.inr ⟨_, new, rfl, hnew, hcode⟩), hstable, hfault⟩
    rw [List.mem_singleton.mp hn]
    exact notMem_attached_size hg

theorem replays_foldPlace {b : Bool} (hg : g.WellShaped) (hc : Tracks c g) (hsteady : g.SteadyPlaces p)
    (h : foldPlace p c id g = .ok b g') : g'.SteadyPlaces p ∧ g.Replays g' p := by
  obtain rfl | ⟨load, op, read, q, direct, ids, hfused, hstable, hnear⟩ := fused_of_foldPlace hg.linked hc h
  · exact ⟨hsteady, .refl _⟩
  · exact ⟨hsteady.fused hg hfused, hfused.replays hg hc hsteady hstable hnear⟩

/-- Where addresses stay fresh until they are loaded from, fusing the addresses of fields and elements
with the loads through them changes nothing about a run that returns and keeps payloads in scalar
variables: with the same fuel it returns the same value, leaves the same heap and takes no more
steps. -/
theorem run_foldPlaces {n m : Nat} {g₁ g₂ : Graph} (hg : g.Built) (hverify : g.verify = .ok ())
    (hmarked : ∀ {b block}, g.block b = some block → block.reachable) (hsteady : g.SteadyPlaces p)
    (hfields : batch (foldFields p) g = .ok n g₁) (helements : batch (foldElements p) g₁ = .ok m g₂)
    (hclean : Clean args heap) (hapart : ∀ s ∈ g.trace p args heap fuel, g.keepsApart p s)
    (hrun : g.run p args heap fuel = .ok o) :
    ∃ o', g₂.run p args heap fuel = .ok o' ∧ o'.returned = o.returned ∧ o'.heap = o.heap ∧
      o'.steps ≤ o.steps := by
  obtain ⟨entry, hentry⟩ := exists_entry_of_run hrun
  have hshaped : g.Shaped fun _ => false := shaped_of_verify hg.coherent.linked hverify
    ⟨entry, hentry, hmarked hentry⟩ fun hb hr => by simp [hmarked hb] at hr
  let I (g₁ : Graph) : Prop := g₁.Shaped (fun _ => false) ∧ g₁.SteadyPlaces p ∧ g.Replays g₁ p
  have hsame : ∀ {g₁ g₂ : Graph}, g₁.SameCode g₂ → g₂.Coherent → I g₁ → I g₂ :=
    fun hcode hg₂ hI => ⟨hI.1.of_sameCode hcode hg₂.linked, hI.2.1.of_sameCode hcode,
      hI.2.2.trans hcode.replays⟩
  have hedit : ∀ {g₁ g₂ c id b}, Tracks c g₁ → I g₁ → foldPlace p c id g₁ = .ok b g₂ → I g₂ := by
    rintro g₁ g₂ c id b hc ⟨hshaped, hsteady, hreplays⟩ h
    obtain ⟨hsteady', hreplays'⟩ := replays_foldPlace hshaped.toWellShaped hc hsteady h
    exact ⟨shaped_foldPlace hc hshaped h, hsteady', hreplays.trans hreplays'⟩
  obtain ⟨hcoherent₁, hI₁⟩ := batch_sweep_induction hsame (grows_foldPlace p)
    (fun _ _ hc hI h => hedit hc hI h) hg.coherent ⟨hshaped, hsteady, .refl g⟩ hfields
  obtain ⟨-, -, -, hreplays⟩ := batch_sweep_induction hsame (grows_foldPlace p)
    (fun _ _ hc hI h => hedit hc hI h) hcoherent₁ hI₁ helements
  exact (hreplays hclean hapart hrun).2

def placePool : Pool :=
  let (c, p) := Pool.new.named "C"
  let (_, p) := p.pointerTo (.ofScalar .i32)
  let (_, p) := p.arrayOf (.ofScalar .i32)
  let (_, p) := p.addField ⟨⟨0⟩, c, .ofScalar .i32, false⟩
  let (_, p) := p.addField ⟨⟨0⟩, c, c, true⟩
  (p.addField ⟨⟨0⟩, c, .ofScalar .bool, true⟩).2

/-- An array is read at the index that a field holds until there is a zero. The address of the field
is taken in a block of its own, in each round after the object is copied. -/
def readUntilZero : Graph := (Graph.empty "f").changed
  [.addVar .argument ⟨14⟩, .addVar .argument ⟨16⟩, .addVar .local ⟨14⟩, .addVar .local ⟨15⟩,
    .addVar .local (.ofScalar .i32), .addVar .local ⟨15⟩, .addVar .local (.ofScalar .i32),
    .addBlock, .addBlock, .addBlock,
    .append ⟨0⟩ (.copy ⟨2⟩ (.var ⟨0⟩)), .append ⟨0⟩ (.jump ⟨1⟩),
    .append ⟨1⟩ (.loadFieldAddress ⟨0⟩ ⟨3⟩ (.var ⟨2⟩) false), .append ⟨1⟩ (.jump ⟨2⟩),
    .append ⟨2⟩ (.loadIndirect (.ofScalar .i32) ⟨4⟩ (.var ⟨3⟩) false),
    .append ⟨2⟩ (.loadElementAddress ⟨5⟩ (.var ⟨1⟩) (.var ⟨4⟩)),
    .append ⟨2⟩ (.loadIndirect (.ofScalar .i32) ⟨6⟩ (.var ⟨5⟩) false),
    .append ⟨2⟩ (.branch (.var ⟨6⟩) ⟨0⟩ ⟨3⟩), .append ⟨3⟩ (.ret (some (.var ⟨4⟩)))]

theorem steadyPlaces_readUntilZero (hbuilt : readUntilZero.Built) :
    readUntilZero.SteadyPlaces placePool := by
  have hplaces : ∀ id ∈ readUntilZero.attached, ∀ op ∈ readUntilZero.op id, op.isPlace →
      op.fieldFits placePool readUntilZero ∧
      (∀ y ∈ op.reads, readUntilZero.FieldReadOnly placePool y) ∧
      (op.mayFault = false → id = ⟨2⟩ ∧ op.reads = [⟨2⟩]) := by decide +kernel
  refine ⟨fun h hplace => (hplaces _ h.attached _ h.found hplace).1,
    fun h hplace y hy _ => (hplaces _ h.attached _ h.found hplace).2.1 y hy, ?_⟩
  intro address load op read q h hplace hfault y hy d hd pre rest hat hleads
  obtain ⟨rfl, hreads⟩ := (hplaces _ h.attached _ h.found hplace).2.2 hfault
  obtain rfl : y = ⟨2⟩ := by simpa [hreads] using hy
  have hdefiners : readUntilZero.definers ⟨2⟩ = [⟨0⟩] := by decide +kernel
  obtain rfl : ⟨0⟩ = d := by simpa [hdefiners] using hd
  have hat₀ : readUntilZero.At [] [⟨0⟩, ⟨1⟩] :=
    ⟨⟨0⟩, { ops := [⟨0⟩, ⟨1⟩] }, by decide +kernel, rfl⟩
  obtain ⟨-, rfl⟩ := hat.unique hbuilt.coherent.linked hat₀
  have hjump : readUntilZero.op ⟨1⟩ = some { Operator.jump ⟨1⟩ with block := some ⟨0⟩ } := by
    decide +kernel
  have hblock : readUntilZero.block ⟨1⟩ = some { ops := [⟨2⟩, ⟨3⟩] } := by decide +kernel
  obtain ⟨t, hkind⟩ := h.kind
  cases hleads with
  | here =>
    cases hjump.symm.trans h.foundLoad
    cases hkind
  | next _ hleads => cases hleads
  | goto hop hb hblock' hleads =>
    cases hjump.symm.trans hop
    obtain rfl := List.mem_singleton.mp hb
    cases hblock.symm.trans hblock'
    cases hleads with
    | here =>
      obtain rfl := Option.some.inj (h.found.symm.trans h.foundLoad)
      simp [Operator.isPlace, hkind] at hplace
    | next hne _ => exact hne rfl
    | goto hop hb _ _ =>
      obtain rfl := Option.some.inj (h.found.symm.trans hop)
      cases hk : op.kind <;> simp [Operator.isPlace, hk] at hplace <;>
        simp [Operator.targets, OpKind.targets, hk] at hb

def objectAndArray : Heap where
  objects := #[⟨[(⟨0⟩, .bits 1)]⟩]
  arrays := #[#[.bits 7, .bits 0]]

theorem run_foldPlaces_readUntilZero : ∃ g₁ g₂ o,
    batch (foldFields placePool) readUntilZero = .ok 1 g₁ ∧
      batch (foldElements placePool) g₁ = .ok 1 g₂ ∧ readUntilZero.SteadyPlaces placePool ∧
      g₂.run placePool [.object 0, .array 0] objectAndArray 9 = .ok o ∧
      o.returned = some (.bits 1) ∧ o.steps ≤ 9 := by
  have hbuilt : readUntilZero.Built := (Built.empty "f").changed _
  have hsteady := steadyPlaces_readUntilZero hbuilt
  have hfields : (batch (foldFields placePool)).result? readUntilZero = some 1 := by decide +kernel
  have helements : (batch (foldElements placePool)).result?
      ((batch (foldFields placePool)).after readUntilZero) = some 1 := by decide +kernel
  have hmarked : ∀ block ∈ readUntilZero.blocks, block.reachable := by decide +kernel
  have hanswer : readUntilZero.answer? placePool [.object 0, .array 0] objectAndArray 9 =
      some (some (.bits 1), 9) := by decide +kernel
  have hapart : ∀ s ∈ readUntilZero.trace placePool [.object 0, .array 0] objectAndArray 9,
      readUntilZero.keepsApart placePool s := by decide +kernel
  obtain ⟨o, hrun, hreturned, hsteps⟩ := exists_run_of_answer? hanswer
  obtain ⟨o', hrun', hreturned', -, hsteps'⟩ := run_foldPlaces hbuilt (by decide +kernel)
    (fun hb => hmarked _ (Array.mem_of_getElem? hb)) hsteady (eq_ok_of_result? hfields)
    (eq_ok_of_result? helements) (clean_of_stored (by decide)) hapart hrun
  exact ⟨_, _, o', eq_ok_of_result? hfields, eq_ok_of_result? helements, hsteady, hrun',
    hreturned'.trans hreturned, hsteps ▸ hsteps'⟩

/-- In each round an object is fetched from a static field; the address of its field is taken, and
another object is put into the static field. The address is loaded from after the last round. -/
def movedOn : Graph := (Graph.empty "f").changed
  [.addVar .argument ⟨14⟩, .addVar .local ⟨14⟩, .addVar .local (.ofScalar .bool), .addVar .local ⟨15⟩,
    .addVar .local ⟨15⟩, .addVar .local ⟨15⟩, .addVar .local (.ofScalar .i32), .addBlock, .addBlock,
    .append ⟨0⟩ (.loadStatic ⟨1⟩ ⟨1⟩), .append ⟨0⟩ (.loadStatic ⟨2⟩ ⟨2⟩),
    .append ⟨0⟩ (.branch (.var ⟨2⟩) ⟨1⟩ ⟨2⟩),
    .append ⟨1⟩ (.loadFieldAddress ⟨0⟩ ⟨3⟩ (.var ⟨1⟩) false),
    .append ⟨1⟩ (.loadStaticAddress ⟨1⟩ ⟨4⟩),
    .append ⟨1⟩ (.storeIndirect (.var ⟨4⟩) (.var ⟨0⟩) false),
    .append ⟨1⟩ (.loadStaticAddress ⟨2⟩ ⟨5⟩),
    .append ⟨1⟩ (.storeIndirect (.var ⟨5⟩) (.const (.bool false)) false), .append ⟨1⟩ (.jump ⟨0⟩),
    .append ⟨2⟩ (.loadIndirect (.ofScalar .i32) ⟨6⟩ (.var ⟨3⟩) false),
    .append ⟨2⟩ (.ret (some (.var ⟨6⟩)))]

/-- Two objects, of which the first is in the static field, and a flag for one round. -/
def twoObjects : Heap where
  objects := #[⟨[(⟨0⟩, .bits 10)]⟩, ⟨[(⟨0⟩, .bits 20)]⟩]
  statics := ⟨[(⟨1⟩, .object 0), (⟨2⟩, .bits 1)]⟩

/-- The object has one definition, but it runs again between the address and the load: the fused load
reads the field of the other object. -/
theorem run_foldPlaces_movedOn : ∃ g₁ g₂, movedOn.Built ∧ movedOn.verify = .ok () ∧
    (∀ block ∈ movedOn.blocks, block.reachable) ∧ batch (foldFields placePool) movedOn = .ok 1 g₁ ∧
    batch (foldElements placePool) g₁ = .ok 0 g₂ ∧ Clean [.object 1] twoObjects ∧
    (∀ s ∈ movedOn.trace placePool [.object 1] twoObjects 14,
      movedOn.respects placePool s ∧ movedOn.keepsApart placePool s) ∧
    movedOn.answer? placePool [.object 1] twoObjects 14 = some (some (.bits 10), 14) ∧
    g₂.answer? placePool [.object 1] twoObjects 14 = some (some (.bits 20), 13) := by
  have hfields : (batch (foldFields placePool)).result? movedOn = some 1 := by decide +kernel
  have helements : (batch (foldElements placePool)).result?
      ((batch (foldFields placePool)).after movedOn) = some 0 := by decide +kernel
  exact ⟨_, _, (Built.empty "f").changed _, by decide +kernel, by decide +kernel,
    eq_ok_of_result? hfields, eq_ok_of_result? helements, clean_of_stored (by decide),
    by decide +kernel, by decide +kernel, by decide +kernel⟩

end Edit
end ScalarLowering
