import ScalarLowering.Proofs.Candidates
import ScalarLowering.Proofs.DeadCode
import ScalarLowering.Proofs.Reachability
import ScalarLowering.Proofs.RoundTrips

/-! No step of a run gives it more to do. In an orderly graph, whatever a step leaves to lower was
there to be lowered before the step, and the graph stays orderly. -/

namespace ScalarLowering

namespace Operator

variable {op op' : Operator} {p : Pool} {g g' : Graph}

/-- The run may put another operand for the result, or make it the address of a variable. -/
def forwards (op : Operator) (p : Pool) : Bool :=
  match op.kind with
  | .loadIndirect _ => true
  | .loadField f | .loadFieldAddress f => p.isValueField f = some true
  | _ => false

theorem usesReceiver_congr (h : op'.kind = op.kind) : op'.usesReceiver = op.usesReceiver := by
  simp only [usesReceiver, h]

theorem isConstructor_congr (h : op'.kind = op.kind) : op'.isConstructor p = op.isConstructor p := by
  simp only [isConstructor, h]

theorem forwards_congr (h : op'.kind = op.kind) : op'.forwards p = op.forwards p := by
  simp only [forwards, h]

theorem resolved_of_types {f : Expr → Expr} (hkind : op'.kind = op.kind)
    (hargs : op'.args = op.args.map f) (hf : ∀ e ∈ op.args, g'.typeOf (f e) = g.typeOf e)
    (h : op.resolved p g) : op'.resolved p g' := by
  have hall : (op'.args.all fun e => ((g'.typeOf e).bind p.kind).isSome) =
      op.args.all fun e => ((g.typeOf e).bind p.kind).isSome := by
    rw [hargs, List.all_map, Bool.eq_iff_iff, List.all_eq_true, List.all_eq_true]
    exact forall₂_congr fun e he => by simp [hf e he]
  rw [resolved, usesReceiver_congr hkind, hall, hkind, hargs, List.length_map]
  exact h

theorem usesReceiver_of_isConstructor (h : op.isConstructor p) : op.usesReceiver := by
  unfold isConstructor at h
  split at h
  · rename_i m hkind
    simp [usesReceiver, hkind]
  · cases h

end Operator

namespace Graph

/-- What makes one run enough, next to the shape of the graph. -/
structure Orderly (g : Graph) (p : Pool) : Prop where
  typed : ∀ id ∈ g.attached, ∀ op ∈ g.op id, op.wellTyped p g
  resolved : ∀ id ∈ g.attached, ∀ op ∈ g.op id, op.resolved p g
  void : ∀ id ∈ g.attached, ∀ op ∈ g.op id, op.isConstructor p → op.results = []
  /-- A constructor is not called on a variable whose definition the run takes away. -/
  receivers : ∀ id ∈ g.attached, ∀ op ∈ g.op id, op.isConstructor p →
    ∀ this ∈ op.args.head?.bind Expr.var?, ∀ d ∈ g.definers this, ∀ source ∈ g.op d,
      source.forwards p = false

/-- The graph is orderly and in good shape, and its reachable blocks are marked. -/
structure Tended (g : Graph) (p : Pool) : Prop extends Shaped OpKind.isStatic g, Orderly g p where
  marked : ∀ {b : BlockId} {block : Block}, g.block b = some block → block.reachable → g.Reaches b

/-- The second graph is in order, and what is left to lower in it was left in the first. -/
structure Advances (g g' : Graph) (p : Pool) : Prop where
  tended : g'.Tended p
  pending : ∀ {w : WrapperUse} {id : OpId}, g'.Pending p w id → g.Pending p w id

variable {g g' g'' : Graph} {p : Pool} {c : Chains} {id d : OpId} {op op' new source : Operator}
  {v x : VarId} {e : Expr} {b : BlockId} {old : OpId} {ids : List OpId} {f : Expr → Expr}

theorem Tended.refl (hg : g.Tended p) : g.Advances g p := ⟨hg, id⟩

theorem Advances.trans (h : g.Advances g' p) (h' : g'.Advances g'' p) : g.Advances g'' p :=
  ⟨h'.tended, fun hw => h.pending (h'.pending hw)⟩

theorem Orderly.notMem_definers (hg : g.Orderly p) (hid : id ∈ g.attached) (hop : g.op id = some op)
    (hctor : op.isConstructor p) (hthis : op.args.head? = some (.var x))
    (hsource : g.op d = some source) (hforwards : source.forwards p) : d ∉ g.definers x := by
  intro hd
  have h := hg.receivers id hid op hop hctor x (head?_bind_var?.mpr hthis) d hd source hsource
  simp [h] at hforwards

theorem Reaches.mono (h : g.Reaches b) (hentry : g'.entry = g.entry)
    (hknown : ∀ t : BlockId, t.index < g.blocks.size → t.index < g'.blocks.size)
    (hlast : ∀ {b block id op}, g.block b = some block → block.last? = some id →
      g.op id = some op → op.isControl → ∃ block' op', g'.block b = some block' ∧
        block'.last? = some id ∧ g'.op id = some op' ∧ op'.kind = op.kind) : g'.Reaches b := by
  induction h with
  | entry => exact hentry ▸ .entry
  | target _ hb hlastb hop ht hlt ih =>
    obtain ⟨block', op', hb', hlast', hop', hkind⟩ :=
      hlast hb hlastb hop (isControl_of_mem_targets ht)
    exact ih.target hb' hlast' hop' (by rw [Operator.targets, hkind]; exact ht)
      (hknown _ hlt)

/-- The variable is read, or at least no wrapper operation defines it. -/
def Readable (g : Graph) (x : VarId) : Prop :=
  g.readers x ≠ [] ∨ ∀ {d op}, d ∈ g.definers x → g.op d = some op → op.usesReceiver = false

/-- An operator that a step may put into the graph without giving the run more to do. -/
structure Fitting (g : Graph) (p : Pool) (new : Operator) : Prop extends Sound g new where
  typed : new.wellTyped p g
  resolved : new.resolved p g
  inert : new.usesReceiver → ∃ f, new.kind = .loadField f ∧
    (p.isValueField f = some true → ∀ x, new.args = [.var x] → ¬g.Wraps p x)
  /-- It brings no address to a constructor. -/
  aside : new.kind = .addressOf ∨ new.forwards p → ∀ {x id op}, x ∈ new.results →
    id ∈ g.attached → g.op id = some op → op.isConstructor p → op.args.head? ≠ some (.var x)
  readable : ∀ x ∈ new.reads, g.Readable x

theorem Fitting.isConstructor (h : g.Fitting p new) : new.isConstructor p = false := by
  cases hctor : new.isConstructor p with
  | false => rfl
  | true =>
    obtain ⟨f, hkind, -⟩ := h.inert (Operator.usesReceiver_of_isConstructor hctor)
    simp [Operator.isConstructor, hkind] at hctor

theorem Fitting.not_lowerable (h : g.Fitting p new) (hvars : g'.vars = g.vars) {w : WrapperUse} :
    ¬g'.Lowerable p id new w := by
  intro hlower
  obtain ⟨f, hkind, hwraps⟩ := h.inert hlower.usesReceiver
  cases w with
  | constructor =>
    obtain ⟨m, -, -, -, -, hcall, -⟩ := hlower
    simp [hkind] at hcall
  | equality =>
    obtain ⟨m, -, -, -, hcall, -⟩ := hlower
    simp [hkind] at hcall
  | load =>
    obtain ⟨f', receiver, -, hload, hvalue, hargs, hw, -⟩ := hlower
    obtain rfl : f = f' := by simpa [hkind] using hload
    have htype := (sameVars_of_vars_eq hvars).typeOf (.var receiver)
    rw [Wraps, isScalarExpr_congr htype, pointeeOf_congr htype] at hw
    exact hwraps hvalue receiver hargs hw
  | address =>
    obtain ⟨f', -, -, haddress, -⟩ := hlower
    simp [hkind] at haddress

theorem Fitting.of_code (h : g.Fitting p new) (hcode : op.code = new.code) : g.Fitting p op := by
  obtain ⟨hkind, hargs, hresults, -⟩ := Operator.code_eq.mp hcode
  have hmap : op.args = new.args.map id := by rw [List.map_id, hargs]
  refine ⟨h.toSound.of_code hcode.symm, ?_, ?_, ?_, ?_, ?_⟩
  · exact Operator.wellTyped_of_types hkind hmap (fun _ _ => rfl) (fun x hx => ⟨hresults ▸ hx, rfl⟩)
      h.typed
  · exact Operator.resolved_of_types hkind hmap (fun _ _ => rfl) h.resolved
  · rw [Operator.usesReceiver_congr hkind, hkind, hargs]
    exact h.inert
  · rw [Operator.forwards_congr hkind, hkind, hresults]
    exact h.aside
  · rw [Operator.reads, hargs]
    exact h.readable

section Splicing

variable (hg : g.Tended p) (hs : g.Spliced g' old ids)
  (hold : g.op old = some op) (hcontrol : op.isControl = false)
  (hnew : ∀ n ∈ ids, n ≠ old → n ∉ g.attached ∧ ∃ new, g'.op n = some new ∧ g.Fitting p new)
  (hlost : old ∉ ids → ∀ x ∈ op.results, g'.readers x = [] ∨
    ∃ n ∈ ids, ∃ new, g'.op n = some new ∧ x ∈ new.results)
include hg hs hnew

theorem Tended.spliced_cases (hid : id ∈ g'.attached) (hop' : g'.op id = some op') :
    (id ∈ ids ∧ id ∉ g.attached ∧ g.Fitting p op') ∨ (id ∈ g.attached ∧ g.op id = some op') := by
  have hlinked := hg.linked
  obtain hmem | ⟨hne, hatt⟩ := hs.mem_attached.mp hid
  · by_cases hne : id = old
    · subst hne
      exact .inr ⟨hs.attached, hs.op (.inr hmem) (hlinked.lt_of_mem hs.attached) ▸ hop'⟩
    · obtain ⟨hfresh, new, hnewop, hfit⟩ := hnew id hmem hne
      obtain rfl := Option.some.inj (hop'.symm.trans hnewop)
      exact .inl ⟨hmem, hfresh, hfit⟩
  · exact .inr ⟨hatt, hs.op (.inl hne) (hlinked.lt_of_mem hatt) ▸ hop'⟩

include hold hlost

omit hlost in
include hcontrol in
theorem Tended.spliced : g'.Tended p := by
  have hshaped : g'.Shaped OpKind.isStatic := by
    refine hg.toShaped.spliced hs ⟨op, hold, hcontrol⟩ fun n hn => ?_
    by_cases hne : n = old
    · exact .inl hne
    · obtain ⟨-, new, hnewop, hfit⟩ := hnew n hn hne
      exact .inr ⟨new, hnewop, hfit.toSound⟩
  have htypes := (sameVars_of_vars_eq hs.vars).typeOf
  have hmap : ∀ op : Operator, op.args = op.args.map fun e => e := fun op => (List.map_id _).symm
  refine ⟨hshaped, ⟨fun id hid op' hop' => ?_, fun id hid op' hop' => ?_, fun id hid op' hop' => ?_,
    fun id hid op' hop' hctor this hthis d hd source hsource => ?_⟩, fun {b block'} hb hr => ?_⟩
  · refine Operator.wellTyped_of_types rfl (hmap op') (fun e _ => htypes e)
      (fun x hx => ⟨hx, htypes _⟩) (g := g) ?_
    obtain ⟨-, -, hfit⟩ | ⟨hatt, hsame⟩ := hg.spliced_cases hs hnew hid hop'
    · exact hfit.typed
    · exact hg.typed id hatt op' hsame
  · refine Operator.resolved_of_types rfl (hmap op') (fun e _ => htypes e) (g := g) ?_
    obtain ⟨-, -, hfit⟩ | ⟨hatt, hsame⟩ := hg.spliced_cases hs hnew hid hop'
    · exact hfit.resolved
    · exact hg.resolved id hatt op' hsame
  · intro hctor
    obtain ⟨-, -, hfit⟩ | ⟨hatt, hsame⟩ := hg.spliced_cases hs hnew hid hop'
    · simp [hfit.isConstructor] at hctor
    · exact hg.void id hatt op' hsame hctor
  · obtain ⟨-, -, hfit⟩ | ⟨hatt, hsame⟩ := hg.spliced_cases hs hnew hid hop'
    · simp [hfit.isConstructor] at hctor
    · obtain ⟨hdatt, source', hsource', hdefines⟩ := mem_definers.mp hd
      obtain rfl := Option.some.inj (Option.mem_def.mp hsource ▸ hsource')
      obtain ⟨-, -, hfit⟩ | ⟨hdatt, hdsame⟩ := hg.spliced_cases hs hnew hdatt hsource'
      · by_contra hforwards
        exact hfit.aside (.inr (by simpa using hforwards))
          (by simpa [Operator.definesVar] using hdefines) hatt hsame hctor (head?_bind_var?.mp hthis)
      · exact hg.receivers id hatt op' hsame hctor this hthis d
          (mem_definers.mpr ⟨hdatt, _, hdsame, hdefines⟩) _ hdsame
  · rw [hs.block] at hb
    obtain ⟨block, hblock, rfl⟩ := Option.map_eq_some_iff.mp hb
    refine (hg.marked hblock hr).mono hs.entry ?_ fun {b block id opid} hb hlast hopid hc => ?_
    · intro t ht
      obtain ⟨block, hblock⟩ := exists_block ht
      exact block_eq_some_lt (by rw [hs.block, hblock]; rfl)
    · have hne : id ≠ old := by
        rintro rfl
        obtain rfl := Option.some.inj (hold.symm.trans hopid)
        simp [hcontrol] at hc
      refine ⟨{ block with ops := block.ops.flatMap (splice old ids) }, opid,
        by rw [hs.block, hb]; rfl, getLast?_flatMap_splice hlast hne, ?_, rfl⟩
      exact (hs.op (.inl hne) (op_eq_some_lt hopid)).trans hopid

/-- The only definition of a variable that is still read was its only definition before. -/
theorem Tended.definers_of_spliced (hd : d ∈ g.attached) (hdefs : g'.definers x = [d])
    (hread : g'.readers x ≠ []) : g.definers x = [d] := by
  refine (definers_eq_singleton hg.linked).mpr fun id => ⟨fun hid => ?_, ?_⟩
  · obtain ⟨hatt, opid, hopid, hdefines⟩ := mem_definers.mp hid
    by_cases hgone : id = old ∧ old ∉ ids
    · obtain ⟨rfl, hnotMem⟩ := hgone
      obtain rfl := Option.some.inj (hold.symm.trans hopid)
      obtain hunread | ⟨n, hn, new, hnewop, hx⟩ :=
        hlost hnotMem x (by simpa [Operator.definesVar] using hdefines)
      · exact absurd hunread hread
      · have hmem := mem_definers_of_results (hs.mem_attached.mpr (.inl hn)) hnewop hx
        obtain rfl := List.mem_singleton.mp (hdefs ▸ hmem)
        exact absurd hd (hnew n hn fun h => hnotMem (h ▸ hn)).1
    · have hkept : id ≠ old ∨ old ∈ ids := by
        by_cases hne : id = old
        · exact .inr (by_contra fun h => hgone ⟨hne, h⟩)
        · exact .inl hne
      have hatt' : id ∈ g'.attached := by
        refine hs.mem_attached.mpr ?_
        by_cases hne : id = old
        · exact .inl (hne ▸ hkept.resolve_left (not_not.mpr hne))
        · exact .inr ⟨hne, hatt⟩
      have hmem : id ∈ g'.definers x := mem_definers.mpr
        ⟨hatt', opid, (hs.op hkept (hg.linked.lt_of_mem hatt)).trans hopid, hdefines⟩
      exact List.mem_singleton.mp (hdefs ▸ hmem)
  · rintro rfl
    obtain ⟨hatt', opid, hopid, hdefines⟩ := mem_definers.mp (hdefs ▸ List.mem_singleton_self id)
    obtain ⟨-, hfresh, -⟩ | ⟨-, hsame⟩ := hg.spliced_cases hs hnew hatt' hopid
    · exact absurd hd hfresh
    · exact mem_definers.mpr ⟨hd, opid, hsame, hdefines⟩

theorem Tended.pending_of_spliced {w : WrapperUse} (hp : g'.Pending p w id) : g.Pending p w id := by
  obtain ⟨opid, hid, hopid, hlower, hread⟩ := hp
  obtain ⟨-, -, hfit⟩ | ⟨hatt, hsame⟩ := hg.spliced_cases hs hnew hid hopid
  · exact absurd hlower (hfit.not_lowerable hs.vars)
  have htypes := (sameVars_of_vars_eq hs.vars).typeOf
  refine ⟨opid, hatt, hsame, ?_, fun x hx hnone => ?_⟩
  · refine hlower.of_types (f := fun e => e) rfl (List.map_id _).symm (fun e _ => htypes e)
      (fun e _ y hy => ⟨y, hy⟩) (fun x hx => hx) ?_ fun x hx halone => ?_
    · rintro this value owner hctor hargs ⟨⟨info, hinfo, harg⟩, d, source, y, infoy, hdefs, hsource,
        hkind, hhead, hinfoy, hrest⟩
      have hthis : opid.args.head? = some (.var this) := by simp [hargs]
      refine ⟨hthis, ⟨info, by simpa [var, hs.vars] using hinfo, harg⟩, ?_⟩
      have hmem : d ∈ g'.definers this := hdefs ▸ List.mem_singleton_self d
      obtain ⟨-, -, hfit⟩ | ⟨hd, hdsame⟩ :=
        hg.spliced_cases hs hnew (mem_definers.mp hmem).1 hsource
      · -- a new operator that takes an address keeps away from constructors
        exact absurd hthis (hfit.aside (.inl hkind) (mem_results_of_mem_definers hmem hsource)
          hatt hsame hctor)
      · have hreadThis : g'.readers this ≠ [] := List.ne_nil_of_mem (mem_readers_of_reads hid hopid
          (mem_reads.mpr (List.mem_of_mem_head? hthis)))
        exact ⟨d, source, y, infoy, hg.definers_of_spliced hs hold hnew hlost hd hdefs hreadThis,
          hdsame, hkind, hhead, by simpa [var, hs.vars] using hinfoy, hrest⟩
    · exact hg.definers_of_spliced hs hold hnew hlost hatt halone
        (hread x (List.mem_of_mem_head? hx))
  · -- only a new operator can have started to read the result
    obtain ⟨r, hr⟩ := List.exists_mem_of_ne_nil _ (hread x hx)
    obtain ⟨hratt, rop, hrop, hreads⟩ := mem_readers.mp hr
    obtain ⟨-, -, hfit⟩ | ⟨hratt', hrsame⟩ := hg.spliced_cases hs hnew hratt hrop
    · obtain hne | hdefs := hfit.readable x (List.contains_iff_mem.mp hreads)
      · exact hne hnone
      · have hdef := mem_definers_of_results hatt hsame hx
        exact absurd (hdefs hdef hsame) (by simp [hlower.usesReceiver])
    · have hmem : r ∈ g.readers x := mem_readers.mpr ⟨hratt', rop, hrsame, hreads⟩
      simp [hnone] at hmem

include hcontrol in
theorem Tended.advances_spliced : g.Advances g' p :=
  ⟨hg.spliced hs hold hcontrol hnew, hg.pending_of_spliced hs hold hnew hlost⟩

end Splicing

/-- The operators of the second graph are those of the first, with other operands of the same types
and perhaps fewer results. -/
structure Recast (g g' : Graph) (f : Expr → Expr) : Prop where
  blocks : g'.blocks = g.blocks
  entry : g'.entry = g.entry
  op : ∀ {id : OpId} {op : Operator}, id ∈ g.attached → g.op id = some op → ∃ op',
    g'.op id = some op' ∧ op'.kind = op.kind ∧ op'.args = op.args.map f ∧
      ∀ x ∈ op'.results, x ∈ op.results
  type : ∀ {id : OpId} {op : Operator} {e : Expr}, id ∈ g.attached → g.op id = some op →
    e ∈ op.args → g'.typeOf (f e) = g.typeOf e
  resultType : ∀ v ∈ g.mentioned, g'.typeOf (.var v) = g.typeOf (.var v)

theorem Recast.attached (h : g.Recast g' f) : g'.attached = g.attached := by
  simp [Graph.attached, h.blocks]

theorem Recast.exists_op (h : g.Recast g' f) (hg : g.Linked) (hid : id ∈ g'.attached)
    (hop' : g'.op id = some op') : id ∈ g.attached ∧ ∃ op, g.op id = some op ∧
      op'.kind = op.kind ∧ op'.args = op.args.map f ∧ ∀ x ∈ op'.results, x ∈ op.results := by
  rw [h.attached] at hid
  obtain ⟨op, hop⟩ := Graph.exists_op (hg.lt_of_mem hid)
  obtain ⟨op'', hop'', hrest⟩ := h.op hid hop
  obtain rfl := Option.some.inj (hop'.symm.trans hop'')
  exact ⟨hid, op, hop, hrest⟩

theorem Recast.definers (h : g.Recast g' f) (hg : g.Linked) (hd : d ∈ g'.definers x) :
    d ∈ g.definers x := by
  obtain ⟨hdatt, source', hsource', hdefines⟩ := mem_definers.mp hd
  obtain ⟨hdatt, source, hsource, -, -, hresults⟩ := h.exists_op hg hdatt hsource'
  exact mem_definers.mpr ⟨hdatt, source, hsource, List.contains_iff_mem.mpr
    (hresults x (List.contains_iff_mem.mp hdefines))⟩

theorem Tended.recast (hg : g.Tended p) (h : g.Recast g' f) (hshaped : g'.Shaped OpKind.isStatic)
    (hreceiver : ∀ {id op x}, id ∈ g.attached → g.op id = some op → op.isConstructor p →
      (op.args.map f).head? = some (.var x) → op.args.head? = some (.var x)) : g'.Tended p := by
  have hlinked := hg.linked
  refine ⟨hshaped, ⟨fun id hid op' hop' => ?_, fun id hid op' hop' => ?_,
    fun id hid op' hop' hctor => ?_,
    fun id hid op' hop' hctor this hthis d hd source' hsource' => ?_⟩, fun {b block} hb hr => ?_⟩
  · obtain ⟨hid, op, hop, hkind, hargs, hresults⟩ := h.exists_op hlinked hid hop'
    refine Operator.wellTyped_of_types hkind hargs (fun e he => h.type hid hop he)
      (fun x hx => ⟨hresults x hx, h.resultType x ?_⟩) (hg.typed id hid op hop)
    exact mem_mentioned_of_result hid hop (hresults x hx)
  · obtain ⟨hid, op, hop, hkind, hargs, -⟩ := h.exists_op hlinked hid hop'
    exact Operator.resolved_of_types hkind hargs (fun e he => h.type hid hop he)
      (hg.resolved id hid op hop)
  · obtain ⟨hid, op, hop, hkind, -, hresults⟩ := h.exists_op hlinked hid hop'
    rw [Operator.isConstructor_congr hkind] at hctor
    refine List.eq_nil_iff_forall_not_mem.mpr fun x hx => ?_
    have hmem := hresults x hx
    rw [hg.void id hid op hop hctor] at hmem
    cases hmem
  · obtain ⟨hid, op, hop, hkind, hargs, -⟩ := h.exists_op hlinked hid hop'
    rw [Operator.isConstructor_congr hkind] at hctor
    rw [hargs] at hthis
    have hhead := hreceiver hid hop hctor (head?_bind_var?.mp hthis)
    obtain ⟨-, source, hsource, hkinds, -⟩ :=
      h.exists_op hlinked (mem_definers.mp hd).1 hsource'
    rw [Operator.forwards_congr hkinds]
    exact hg.receivers id hid op hop hctor this (head?_bind_var?.mpr hhead) d (h.definers hlinked hd)
      source hsource
  · have hblock : ∀ b, g'.block b = g.block b := fun b => by simp [Graph.block, h.blocks]
    refine (hg.marked (hblock b ▸ hb) hr).mono h.entry (fun t ht => by rwa [h.blocks])
      fun {b block id op} hb hlast hop _ => ?_
    obtain ⟨op', hop', hkind, -⟩ :=
      h.op (Graph.mem_attached.mpr ⟨b, block, hb, List.mem_of_getLast? hlast⟩) hop
    exact ⟨block, op', by rw [hblock, hb], hlast, hop', hkind⟩

section Rewiring

variable (hg : g.Tended p) (hs : g.Rewired g' ids v e)
  (hall : ∀ id ∈ g.attached, g'.op id = (g.op id).map (·.substitute v e))
  (hdefined : d ∈ g.definers v) (hsource : g.op d = some source) (hforwards : source.forwards p)
  (htype : g.typeOf e = g.typeOf (.var v))
include hs hall

include hg hdefined hsource hforwards

omit hs hall in
theorem Tended.receiver_of_rewired (hid : id ∈ g.attached) (hop : g.op id = some op)
    (hctor : op.isConstructor p) (hthis : (op.substitute v e).args.head? = some (.var x)) :
    op.args.head? = some (.var x) := by
  have hhead : op.args.head?.map (fun a => if a = .var v then e else a) = some (.var x) := by
    rw [← List.head?_map]
    exact hthis
  obtain ⟨a, ha, hax⟩ := Option.map_eq_some_iff.mp hhead
  have hne : a ≠ .var v := by
    rintro rfl
    exact hg.notMem_definers hid hop hctor ha hsource hforwards hdefined
  rw [ha, ← hax, if_neg hne]

include htype

theorem Tended.rewired (hlive : g.LiveExpr e) : g'.Tended p := by
  have htypes := (sameVars_of_vars_eq hs.vars).typeOf
  refine hg.recast (f := fun a => if a = .var v then e else a) ⟨hs.blocks, hs.entry,
    fun {id op} hid hop => ⟨op.substitute v e, ?_, rfl, rfl, fun x hx => hx⟩,
    fun {id op a} _ _ _ => ?_, fun x _ => htypes _⟩ (hg.toShaped.rewired hs hlive)
    fun hid hop hctor hthis => hg.receiver_of_rewired hdefined hsource hforwards hid hop hctor hthis
  · rw [hall id hid, hop]
    rfl
  · split
    · rename_i hav
      rw [htypes, htype, hav]
    · exact htypes a

/-- Redirecting the readers of a result that is not addressed leaves no more to lower. -/
theorem Tended.advances_rewired (hlive : g.LiveExpr e)
    (haddressed : ∀ {r op}, r ∈ g.readers v → g.op r = some op → op.kind ≠ .addressOf)
    (hreadable : ∀ x, e = .var x → g.Readable x) : g.Advances g' p := by
  refine ⟨hg.rewired hs hall hdefined hsource hforwards htype hlive, fun {w id} hp => ?_⟩
  have htypes := (sameVars_of_vars_eq hs.vars).typeOf
  obtain ⟨op', hid', hop', hlower, hread⟩ := hp
  obtain ⟨hid, op, hop, rfl⟩ := hs.exists_op hall hid' hop'
  refine ⟨op, hid, hop, ?_, fun x hx hnone => ?_⟩
  · refine hlower.of_types rfl rfl (fun a _ => ?_) (fun a _ y hy => ?_) (fun x hx => hx) ?_
      fun x _ halone => by rwa [hs.definers_eq hall] at halone
    · split
      · rename_i hav
        rw [htypes, htype, hav]
      · exact htypes a
    · split at hy
      · exact ⟨v, ‹_›⟩
      · exact ⟨y, hy⟩
    · rintro this value owner hctor hargs ⟨⟨info, hinfo, harg⟩, d', source', y, infoy, hdefs,
        hsource', hkind, hhead, hinfoy, hrest⟩
      refine ⟨hg.receiver_of_rewired hdefined hsource hforwards hid hop hctor (by rw [hargs]; rfl),
        ⟨info, by simpa [var, hs.vars] using hinfo, harg⟩, ?_⟩
      have hd' : d' ∈ g'.attached := (mem_definers.mp (hdefs ▸ List.mem_singleton_self d')).1
      obtain ⟨hd', s₀, hs₀, rfl⟩ := hs.exists_op hall hd' hsource'
      rw [hs.definers_eq hall] at hdefs
      have hnot : s₀.readsVar v = false := by
        by_contra hreads
        exact haddressed (mem_readers.mpr ⟨hd', s₀, hs₀, by simpa using hreads⟩) hs₀ hkind
      rw [substitute_of_not_readsVar e hnot] at hkind hhead
      exact ⟨d', s₀, y, infoy, hdefs, hs₀, hkind, hhead, by simpa [var, hs.vars] using hinfoy, hrest⟩
  · obtain ⟨r, hr⟩ := List.exists_mem_of_ne_nil _ (hread x hx)
    obtain ⟨hr, -⟩ | ⟨-, he⟩ := (hs.mem_readers hall).mp hr
    · simp [hnone] at hr
    · obtain hne | hdefs := hreadable x he
      · exact hne hnone
      · have hdef := mem_definers_of_results hid hop hx
        have huses : op.usesReceiver := hlower.usesReceiver
        simp [hdefs hdef hop] at huses

end Rewiring

/-- Two graphs with the same code, in which the variables it mentions are declared alike. -/
structure SameProgram (g g' : Graph) : Prop where
  ops : ∀ id, g'.op id = g.op id
  blocks : g'.blocks = g.blocks
  entry : g'.entry = g.entry
  declared : ∀ v ∈ g.mentioned, (g'.var v).map (fun info => (info.kind, info.type)) =
    (g.var v).map fun info => (info.kind, info.type)

namespace SameProgram

variable (h : g.SameProgram g')
include h

theorem attached_eq : g'.attached = g.attached := by simp [attached, h.blocks]

theorem readers_eq : g'.readers x = g.readers x := by simp only [readers, h.attached_eq, h.ops]

theorem definers_eq : g'.definers x = g.definers x := by simp only [definers, h.attached_eq, h.ops]

theorem exists_var {info : Variable} (hv : v ∈ g.mentioned) (hinfo : g'.var v = some info) :
    ∃ info', g.var v = some info' ∧ info'.isArgument = info.isArgument ∧ info'.type = info.type := by
  have hdeclared := h.declared v hv
  rw [hinfo, Option.map_some] at hdeclared
  obtain ⟨info', hinfo', heq⟩ := Option.map_eq_some_iff.mp hdeclared.symm
  obtain ⟨hkind, htype⟩ := Prod.mk.injEq .. ▸ heq
  exact ⟨info', hinfo', by rw [Variable.isArgument, hkind, Variable.isArgument], htype⟩

theorem typeOf_of_mentions (he : g.Mentions e) : g'.typeOf e = g.typeOf e := by
  cases e with
  | const k => rfl
  | var y =>
    simpa [Graph.typeOf, Function.comp_def] using
      congrArg (Option.map Prod.snd) (h.declared y (he y rfl))

end SameProgram

theorem SameProgram.recast (h : g.SameProgram g') : g.Recast g' fun e => e where
  blocks := h.blocks
  entry := h.entry
  op _ hop := ⟨_, (h.ops _).trans hop, rfl, (List.map_id _).symm, fun _ hx => hx⟩
  type hid hop he := h.typeOf_of_mentions (mentions_of_arg hid hop he)
  resultType _ hv := h.typeOf_of_mentions fun _ hy => Expr.var.inj hy ▸ hv

theorem Tended.advances_of_sameProgram (hg : g.Tended p) (h : g.SameProgram g')
    (hshaped : g'.Shaped OpKind.isStatic) : g.Advances g' p := by
  refine ⟨hg.recast h.recast hshaped fun _ _ _ hthis => by simpa using hthis, fun {w id} hp => ?_⟩
  obtain ⟨op, hid, hop, hlower, hread⟩ := hp
  rw [h.attached_eq] at hid
  rw [h.ops] at hop
  refine ⟨op, hid, hop, ?_, fun x hx => h.readers_eq ▸ hread x hx⟩
  refine hlower.of_types rfl (List.map_id _).symm (fun e he => h.recast.type hid hop he)
    (fun e _ y hy => ⟨y, hy⟩) (fun x hx => hx) ?_ fun x _ halone => h.definers_eq ▸ halone
  rintro this value owner hctor hargs ⟨⟨info, hinfo, harg⟩, d, source, y, infoy, hdefs, hsource,
    hkind, hhead, hinfoy, harg', htype⟩
  rw [h.definers_eq] at hdefs
  rw [h.ops] at hsource
  have hd : d ∈ g.attached := (mem_definers.mp (hdefs ▸ List.mem_singleton_self d)).1
  obtain ⟨info', hinfo', heq, -⟩ := h.exists_var (mentions_of_arg hid hop (e := .var this)
    (by simp [hargs]) this rfl) hinfo
  obtain ⟨infoy', hinfoy', heqy, htypey⟩ := h.exists_var (mentions_of_arg hd hsource (e := .var y)
    (List.mem_of_mem_head? hhead) y rfl) hinfoy
  exact ⟨by simp [hargs], ⟨info', hinfo', heq.trans harg⟩, d, source, y, infoy', hdefs, hsource,
    hkind, hhead, hinfoy', heqy.trans harg', htypey.trans htype⟩

theorem Tended.advances_sameCode (hg : g.Tended p) (h : g.SameCode g') (hg' : g'.Linked) :
    g.Advances g' p :=
  hg.advances_of_sameProgram
    ⟨fun id => by simp [Graph.op, h.ops], h.blocks, h.entry, fun v _ => h.sameVars v⟩
    (hg.toShaped.of_sameCode h hg')

theorem Tended.advances_addVar (hg : g.Tended p) (kind : VarKind) (t : TypeId) :
    g.Advances (g.addVar kind t).2 p := by
  refine hg.advances_of_sameProgram ⟨fun _ => rfl, rfl, rfl, fun v hv => ?_⟩
    (hg.toShaped.addVar kind t)
  obtain ⟨id, hid, op, hop, hmem⟩ := mem_mentioned.mp hv
  obtain ⟨info, hinfo, -⟩ := (hg.fits hid hop).live v hmem
  rw [var_addVar, if_neg (Nat.ne_of_lt (var_eq_some_lt hinfo))]

theorem Tended.advances_dropUnmentioned (hg : g.Tended p) : g.Advances g.dropUnmentioned.2 p :=
  hg.advances_of_sameProgram ⟨op_dropUnmentioned, blocks_dropUnmentioned, entry_dropUnmentioned,
    fun v _ => sameVars_dropUnmentioned v⟩ hg.toShaped.dropUnmentioned

theorem exists_of_stripResult {id' : OpId} (hop' : (g.stripResult id v).op id' = some op') :
    ∃ op, g.op id' = some op ∧ op'.kind = op.kind ∧ op'.args = op.args ∧
      (op' = op ∨ op' = op.withoutResult v) := by
  rw [op_stripResult] at hop'
  split at hop'
  · obtain ⟨op, hop, rfl⟩ := Option.map_eq_some_iff.mp hop'
    exact ⟨op, hop, rfl, rfl, .inr rfl⟩
  · exact ⟨op', hop', rfl, rfl, .inl rfl⟩

theorem recast_stripResult : g.Recast (g.stripResult id v) fun e => e where
  blocks := rfl
  entry := rfl
  op {id' op} _ hop := by
    rw [op_stripResult, hop]
    split
    · exact ⟨op.withoutResult v, rfl, rfl, (List.map_id _).symm,
        fun _ hx => List.mem_of_mem_filter hx⟩
    · exact ⟨op, rfl, rfl, (List.map_id _).symm, fun _ hx => hx⟩
  type _ _ _ := rfl
  resultType _ _ := rfl

theorem Tended.advances_stripResult (hg : g.Tended p) (hunread : g.readers v = [])
    (hshaped : (g.stripResult id v).Shaped OpKind.isStatic) : g.Advances (g.stripResult id v) p := by
  refine ⟨hg.recast recast_stripResult hshaped fun _ _ _ hthis => by simpa using hthis,
    fun {w id'} hp => ?_⟩
  have hlinked := hg.linked
  have hdefiners : ∀ {x}, (g.stripResult id v).readers x ≠ [] →
      (g.stripResult id v).definers x = g.definers x := by
    intro x hread
    refine definers_stripResult hlinked ?_
    rintro rfl
    exact hread ((Edit.readers_stripResult hlinked id x x).trans hunread)
  obtain ⟨op', hid, hop', hlower, hread⟩ := hp
  obtain ⟨op, hop, hkind, hargs, hcase⟩ := exists_of_stripResult hop'
  have hresults : op'.results = op.results := by
    obtain rfl | rfl := hcase
    · rfl
    · refine List.filter_eq_self.mpr fun x hx => decide_eq_true ?_
      rintro rfl
      have hsingle := (results_eq_singleton (hg.fits hid hop) hx).1
      obtain hctor | ⟨y, hy⟩ := hlower.isConstructor_or
      · rw [Operator.isConstructor_congr hkind] at hctor
        simp [hg.void id' hid op hop hctor] at hx
      · simp [Operator.result?, Operator.withoutResult, hsingle] at hy
  refine ⟨op, hid, hop, ?_, fun x hx => ?_⟩
  · refine hlower.of_types (f := fun e => e) hkind (by rw [hargs, List.map_id']) (fun _ _ => rfl)
      (fun e _ y hy => ⟨y, hy⟩) (fun x hx => ?_) ?_ fun x hx halone => ?_
    · rwa [Operator.result?, ← hresults]
    · rintro this value owner hctor hargs' ⟨hthis, d, source, y, infoy, hdefs, hsource, hkinds, hhead,
        hrest⟩
      have hreadThis : (g.stripResult id v).readers this ≠ [] :=
        readers_ne_nil hid hop' (mem_reads.mpr (by simp [hargs']))
      obtain ⟨s₀, hs₀, hkind₀, hargs₀, -⟩ := exists_of_stripResult hsource
      exact ⟨by rw [← hargs, hargs']; rfl, hthis, d, s₀, y, infoy, hdefiners hreadThis ▸ hdefs, hs₀,
        hkind₀ ▸ hkinds, hargs₀ ▸ hhead, hrest⟩
    · exact hdefiners (hread x (List.mem_of_mem_head? hx)) ▸ halone
  · rw [← Edit.readers_stripResult hlinked id v x]
    exact hread x (hresults ▸ hx)

end Graph
end ScalarLowering
