import ScalarLowering.Proofs.LiveQueries
import ScalarLowering.Proofs.PassInduction
import ScalarLowering.Proofs.WellShaped

/-! The lowering keeps graphs well formed, but for one thing: the elimination of dead variables
can strip the only result of a load from a static field, or of its address. -/

namespace ScalarLowering

/-- A place that is known without operands: a static field or its address. -/
def OpKind.isStatic : OpKind → Bool
  | .loadStatic _ | .loadStaticAddress _ => true
  | _ => false

theorem OpKind.resultArity_of_isStatic {kind : OpKind} (h : kind.isStatic) :
    kind.resultArity = .exactly 1 := by
  cases kind <;> first | rfl | cases h

namespace Graph

variable {g g' : Graph} {p : Pool} {c : Chains} {op new : Operator} {old id : OpId}
  {ids : List OpId} {skip : OpKind → Bool}

/-- A shape in which the operators whose kind is not skipped have all their results. -/
structure Shaped (skip : OpKind → Bool) (g : Graph) : Prop extends WellShaped g where
  complete : ∀ {id : OpId} {op : Operator}, id ∈ g.attached → g.op id = some op →
    skip op.kind = false → op.kind.resultArity.least ≤ op.results.length

theorem forM_eq_ok {α : Type} {f : α → Except Error Unit} {l : List α} :
    l.forM f = .ok () ↔ ∀ a ∈ l, f a = .ok () := by
  induction l with
  | nil => simp [pure, Except.pure]
  | cons a l ih =>
    show (f a >>= fun _ => l.forM f) = .ok () ↔ _
    rw [Except.bind_unit_eq_ok, ih, List.forall_mem_cons]

theorem forM_eq_error {α : Type} {f : α → Except Error Unit} {l : List α} {e : Error}
    (h : l.forM f = .error e) : ∃ a ∈ l, f a = .error e := by
  induction l with
  | nil => cases h
  | cons a l ih =>
    have h : (f a >>= fun _ => l.forM f) = .error e := h
    obtain h | ⟨_, -, h⟩ := Except.bind_eq_error.mp h
    · exact ⟨a, List.mem_cons_self, h⟩
    · obtain ⟨a', ha', h⟩ := ih h
      exact ⟨a', List.mem_cons_of_mem _ ha', h⟩

theorem checkArity_eq_ok {kind : OpKind} {side : Side} {n : Nat} {a : Arity} :
    checkArity id kind side n a = .ok () ↔ a.admits n := by
  unfold checkArity
  split <;> simp_all

/-- The operands fit and no result is missing. -/
theorem checkOperator_eq_ok : g.checkOperator id op = .ok () ↔
    (∀ {a}, op.kind.argArity? = some a → a.admits op.args.length) ∧
      op.kind.resultArity.admits op.results.length ∧ (∀ b ∈ op.targets, b.index < g.blocks.size) ∧
      (∀ v ∈ op.mentions, ∃ info, g.var v = some info ∧ info.dropped = false) ∧
      (∀ v ∈ op.results, ∃ info, g.var v = some info ∧ info.isArgument = false) := by
  have htarget : ∀ b : BlockId, (if b.index < g.blocks.size then .ok () else
      throw (.graph (.unknownTarget id b)) : Except Error Unit) = .ok () ↔
      b.index < g.blocks.size := by
    intro b
    by_cases hb : b.index < g.blocks.size <;> simp [hb]
  have hvar : ∀ (v : VarId) (test : Variable → Bool) (e : GraphError),
      (do if test (← g.var v) then throw (.graph e) : Except Error Unit) = .ok () ↔
        ∃ info, g.var v = some info ∧ test info = false := by
    intro v test e
    simp only [Except.bind_eq_ok, Error.lift_eq_ok]
    refine exists_congr fun info => and_congr_right fun _ => ?_
    cases test info <;> simp
  unfold checkOperator
  dsimp only
  cases hargs : op.kind.argArity? with
  | none =>
    simp only [Except.bind_unit_eq_ok, checkArity_eq_ok, forM_eq_ok, htarget, reduceCtorEq,
      hvar _ (·.dropped), hvar _ (·.isArgument), false_implies, implies_true, true_and]
  | some a =>
    simp only [Except.bind_unit_eq_ok, checkArity_eq_ok, forM_eq_ok, htarget, Option.some.injEq,
      hvar _ (·.dropped), hvar _ (·.isArgument), forall_eq']

theorem checkListed_eq_ok {b : BlockId} {last : OpId} : g.checkListed b last id = .ok () ↔
    ∃ op, g.op id = some op ∧ op.block = some b ∧ (op.isControl → id = last) ∧
      g.checkOperator id op = .ok () := by
  simp only [checkListed, Except.bind_eq_ok, Error.lift_eq_ok]
  refine exists_congr fun op => and_congr_right fun _ => ?_
  by_cases hb : op.block = some b
  · by_cases hc : op.isControl ∧ id ≠ last
    · simp [hb, hc, bind, Except.bind, throw, throwThe, MonadExceptOf.throw]
    · have hlast : op.isControl → id = last := fun h => by_contra fun hne => hc ⟨h, hne⟩
      simp only [hb, hc, ne_eq, not_true, if_false, true_and]
      exact (and_iff_right hlast).symm
  · simp [hb, bind, Except.bind, throw, throwThe, MonadExceptOf.throw]

theorem checkBlock_eq_ok {b : BlockId} : g.checkBlock b ids = .ok () ↔
    ∃ last op, ids.getLast? = some last ∧ (∀ id ∈ ids, g.checkListed b last id = .ok ()) ∧
      g.op last = some op ∧ op.isControl := by
  unfold checkBlock
  split
  · rename_i last hlast
    rw [Except.bind_unit_eq_ok, forM_eq_ok]
    simp only [Except.bind_eq_ok, Error.lift_eq_ok]
    constructor
    · rintro ⟨hlisted, op, hop, hc⟩
      refine ⟨last, op, hlast, hlisted, hop, ?_⟩
      by_contra h
      rw [if_pos (by simpa using h)] at hc
      exact Except.throw_ne_ok.mp hc
    · rintro ⟨last', op, hlast', hlisted, hop, hc⟩
      obtain rfl : last = last' := Option.some.inj (hlast.symm.trans hlast')
      exact ⟨hlisted, op, hop, by simp [hc]⟩
  · rename_i hnone
    cases hlast : ids.getLast? with
    | none => simp
    | some last => exact absurd hlast (hnone last)

theorem verify_eq_ok : g.verify = .ok () ↔ ∀ b block, g.block b = some block →
    block.reachable → g.checkBlock b block.ops = .ok () := by
  unfold verify
  rw [forM_eq_ok]
  simp only [Except.bind_eq_ok, Error.lift_eq_ok, mem_blockIds]
  constructor
  · intro h b block hb hr
    obtain ⟨block', hb', hcheck⟩ := h b (block_eq_some_lt hb)
    obtain rfl : block' = block := Option.some.inj (hb'.symm.trans hb)
    simpa [hr] using hcheck
  · intro h b hb
    obtain ⟨block, hblock⟩ := exists_block hb
    refine ⟨block, hblock, ?_⟩
    by_cases hr : block.reachable
    · simpa [hr] using h b block hblock hr
    · simp [hr]

theorem checkOperator_of_verify (hverify : g.verify = .ok ()) {b : BlockId} {block : Block}
    (hb : g.block b = some block) (hr : block.reachable) (hid : id ∈ block.ops)
    (hop : g.op id = some op) :
    (op.isControl → block.ops.getLast? = some id) ∧ g.checkOperator id op = .ok () := by
  obtain ⟨last, -, hlast, hlisted, -⟩ := checkBlock_eq_ok.mp (verify_eq_ok.mp hverify b block hb hr)
  obtain ⟨op', hop', -, hc, hchecked⟩ := checkListed_eq_ok.mp (hlisted id hid)
  obtain rfl : op' = op := Option.some.inj (hop'.symm.trans hop)
  exact ⟨fun h => hc h ▸ hlast, hchecked⟩

/-- A graph of a good shape verifies exactly if no result is missing. -/
theorem Shaped.verify_eq_ok_iff (hg : g.Shaped skip) : g.verify = .ok () ↔
    ∀ {id op}, id ∈ g.attached → g.op id = some op →
      op.kind.resultArity.least ≤ op.results.length := by
  constructor
  · intro h id op hid hop
    obtain ⟨b, block, hb, hid⟩ := mem_attached.mp hid
    have hr : block.reachable := by
      by_contra hr
      rw [hg.unreachable hb (by simpa using hr)] at hid
      cases hid
    have hadmits := (checkOperator_eq_ok.mp (checkOperator_of_verify h hb hr hid hop).2).2.1
    simp only [Arity.admits, Bool.and_eq_true, decide_eq_true_eq] at hadmits
    exact hadmits.1
  · intro h
    refine verify_eq_ok.mpr fun b block hb hr => ?_
    obtain ⟨last, op, hlast, hop, hc⟩ := hg.last hb hr
    refine checkBlock_eq_ok.mpr ⟨last, op, hlast, fun id hid => ?_, hop, hc⟩
    have hatt : id ∈ g.attached := mem_attached.mpr ⟨b, block, hb, hid⟩
    obtain ⟨op', hop', hblock⟩ := blockOf_eq_some.mp ((hg.linked.listed hb).mp hid)
    have hfits := hg.fits hatt hop'
    refine checkListed_eq_ok.mpr ⟨op', hop', hblock, fun hc' => ?_, checkOperator_eq_ok.mpr
      ⟨hfits.args, ?_, fun t ht => ?_, hfits.live, hfits.written⟩⟩
    · exact Option.some.inj ((hg.control hb hid hop' hc').symm.trans hlast)
    · simp only [Arity.admits, Bool.and_eq_true, decide_eq_true_eq]
      exact ⟨h hatt hop', hfits.results⟩
    · obtain ⟨target, htarget, -⟩ := hfits.targets t ht
      exact block_eq_some_lt htarget

/-- A graph that verifies has a good shape if no reachable block leads to an unreachable one. -/
theorem shaped_of_verify (hg : g.Linked) (hverify : g.verify = .ok ())
    (hentry : ∃ block, g.block g.entry = some block ∧ block.reachable)
    (hunreachable : ∀ {b block}, g.block b = some block → block.reachable = false →
      block.ops = [] ∧ ∀ {b' block'}, g.block b' = some block' → block'.reachable →
        b ∉ g.targetsOf block'.ops) : g.Shaped skip := by
  have hreach : ∀ {b block id}, g.block b = some block → id ∈ block.ops → block.reachable := by
    intro b block id hb hid
    by_contra hr
    rw [(hunreachable hb (by simpa using hr)).1] at hid
    cases hid
  have hlisted : ∀ {b block id op}, g.block b = some block → id ∈ block.ops → g.op id = some op →
      (op.isControl → block.ops.getLast? = some id) ∧ g.checkOperator id op = .ok () :=
    fun hb hid hop => checkOperator_of_verify hverify hb (hreach hb hid) hid hop
  refine ⟨⟨hg, hentry, fun hb hr => (hunreachable hb hr).1, fun hb hr => ?_,
    fun hb hid hop hc => (hlisted hb hid hop).1 hc, fun {id op} hid hop => ?_⟩,
    fun {id op} hid hop _ => ?_⟩
  · obtain ⟨last, op, hlast, -, hop, hc⟩ :=
      checkBlock_eq_ok.mp (verify_eq_ok.mp hverify _ _ hb hr)
    exact ⟨last, op, hlast, hop, hc⟩
  · obtain ⟨b, block, hb, hid⟩ := mem_attached.mp hid
    obtain ⟨hc, hchecked⟩ := hlisted hb hid hop
    obtain ⟨hargs, hresults, htargets, hlive, hwritten⟩ := checkOperator_eq_ok.mp hchecked
    simp only [Arity.admits, Bool.and_eq_true, decide_eq_true_eq] at hresults
    refine ⟨hargs, hresults.2, fun t ht => ?_, hlive, hwritten⟩
    obtain ⟨target, htarget⟩ := exists_block (htargets t ht)
    refine ⟨target, htarget, ?_⟩
    by_contra hr
    have hcontrol : op.isControl := isControl_of_mem_targets ht
    have hmem : t ∈ g.targetsOf block.ops := by simpa [targetsOf, hc hcontrol, hop] using ht
    exact (hunreachable htarget (by simpa using hr)).2 hb (hreach hb hid) hmem
  · obtain ⟨b, block, hb, hid⟩ := mem_attached.mp hid
    obtain ⟨-, hresults, -⟩ := checkOperator_eq_ok.mp (hlisted hb hid hop).2
    simp only [Arity.admits, Bool.and_eq_true, decide_eq_true_eq] at hresults
    exact hresults.1

theorem exists_of_code {o : Option Operator} (h : o.map (·.code) = some new.code) :
    ∃ op, o = some op ∧ op.code = new.code := Option.map_eq_some_iff.mp h

structure Sound (g : Graph) (new : Operator) : Prop where
  fits : new.Fits g
  control : new.isControl = false
  complete : new.kind.resultArity.least ≤ new.results.length

theorem Sound.of_code (h : new.code = op.code) (hnew : g.Sound new) : g.Sound op := by
  obtain ⟨hk, -, hr, -⟩ := Operator.code_eq.mp h
  exact ⟨fits_of_code h hnew.fits, by rw [isControl_of_code h]; exact hnew.control,
    by rw [← hk, ← hr]; exact hnew.complete⟩

theorem Shaped.spliced (hg : g.Shaped skip) (h : g.Spliced g' old ids)
    (hold : ∃ op, g.op old = some op ∧ op.isControl = false)
    (hnew : ∀ id ∈ ids, id = old ∨ ∃ op, g'.op id = some op ∧ g.Sound op) : g'.Shaped skip := by
  refine ⟨hg.toWellShaped.spliced h hold fun id hid => ?_, fun {id op} hid hop hskip => ?_⟩
  · exact (hnew id hid).imp_right fun ⟨op, hop, hs⟩ => ⟨op, hop, hs.control, hs.fits⟩
  · have hkeep : id ∈ g.attached → id ≠ old ∨ old ∈ ids →
        op.kind.resultArity.least ≤ op.results.length := by
      intro hid hcase
      rw [h.op hcase (hg.linked.lt_of_mem hid)] at hop
      exact hg.complete hid hop hskip
    obtain hid | ⟨hne, hid⟩ := h.mem_attached.mp hid
    · obtain rfl | ⟨op', hop', hs⟩ := hnew id hid
      · exact hkeep h.attached (.inr hid)
      · rw [Option.some.inj (hop.symm.trans hop')]
        exact hs.complete
    · exact hkeep hid (.inl hne)

theorem Shaped.rewired (hg : g.Shaped skip) {v : VarId} {e : Expr} (h : g.Rewired g' ids v e)
    (he : g.LiveExpr e) : g'.Shaped skip := by
  refine ⟨hg.toWellShaped.rewired h he, fun {id op} hid hop hskip => ?_⟩
  rw [h.attached_eq] at hid
  rw [h.op] at hop
  split at hop
  · obtain ⟨op, hop', rfl⟩ := Option.map_eq_some_iff.mp hop
    have hle := hg.complete hid hop' hskip
    exact hle
  · exact hg.complete hid hop hskip

theorem Shaped.addVar (hg : g.Shaped skip) (kind : VarKind) (t : TypeId) :
    (g.addVar kind t).2.Shaped skip :=
  ⟨hg.toWellShaped.addVar kind t, hg.complete⟩

theorem Shaped.updateReachability (hg : g.Shaped skip) : g.updateReachability.2.Shaped skip := by
  refine ⟨hg.toWellShaped.updateReachability, fun {id op} hid hop hskip => ?_⟩
  rw [hg.linked.attached_updateReachability] at hid
  have hid := (List.mem_filter.mp hid).1
  rw [op_updateReachability] at hop
  split at hop
  · obtain ⟨op, hop', rfl⟩ := Option.map_eq_some_iff.mp hop
    have hle := hg.complete hid hop' hskip
    exact hle
  · exact hg.complete hid hop hskip

theorem Shaped.dropUnmentioned (hg : g.Shaped skip) : g.dropUnmentioned.2.Shaped skip := by
  refine ⟨hg.toWellShaped.dropUnmentioned, fun {id op} hid hop hskip => ?_⟩
  rw [op_dropUnmentioned] at hop
  exact hg.complete (attached_dropUnmentioned ▸ hid) hop hskip

def Writable (g : Graph) (v : VarId) : Prop :=
  ∃ info, g.var v = some info ∧ info.dropped = false ∧ info.isArgument = false

theorem sound_of_operands (hkind : op.targets = [] ∧ op.isControl = false)
    (hargs : ∀ {a}, op.kind.argArity? = some a → a.admits op.args.length)
    (hresults : op.kind.resultArity.admits op.results.length)
    (hread : ∀ e ∈ op.args, g.LiveExpr e) (hwritten : ∀ v ∈ op.results, g.Writable v) :
    g.Sound op := by
  simp only [Arity.admits, Bool.and_eq_true, decide_eq_true_eq] at hresults
  refine ⟨⟨hargs, hresults.2, by simp [hkind.1], fun v hv => ?_, fun v hv => ?_⟩, hkind.2,
    hresults.1⟩
  · obtain hv | hv := List.mem_append.mp hv
    · exact hread _ (mem_reads.mp hv) v rfl
    · obtain ⟨info, hinfo, hd, -⟩ := hwritten v hv
      exact ⟨info, hinfo, hd⟩
  · obtain ⟨info, hinfo, -, ha⟩ := hwritten v hv
    exact ⟨info, hinfo, ha⟩

theorem sound_nop : g.Sound .nop :=
  sound_of_operands ⟨rfl, rfl⟩ (by rintro _ ⟨⟩; rfl) rfl nofun nofun

theorem sound_copy {x : VarId} {value : Expr} (hx : g.Writable x) (hvalue : g.LiveExpr value) :
    g.Sound (.copy x value) :=
  sound_of_operands ⟨rfl, rfl⟩ (by rintro _ ⟨⟩; rfl) rfl (by simpa [Operator.copy] using hvalue)
    (by simpa [Operator.copy] using hx)

theorem sound_addressOf {x y : VarId} (hx : g.Writable x) (hy : g.LiveExpr (.var y)) :
    g.Sound (.addressOf x y) :=
  sound_of_operands ⟨rfl, rfl⟩ (by rintro _ ⟨⟩; rfl) rfl (by simpa [Operator.addressOf] using hy)
    (by simpa [Operator.addressOf] using hx)

theorem sound_compare {condition : Condition} {x : VarId} {left right : Expr} (hx : g.Writable x)
    (hl : g.LiveExpr left) (hr : g.LiveExpr right) :
    g.Sound (.compare condition x left right) :=
  sound_of_operands ⟨rfl, rfl⟩ (by rintro _ ⟨⟩; rfl) rfl
    (by simpa [Operator.compare] using ⟨hl, hr⟩) (by simpa [Operator.compare] using hx)

theorem sound_loadIndirect (t : TypeId) {x : VarId} {pointer : Expr} (check : Bool)
    (hx : g.Writable x) (hp : g.LiveExpr pointer) : g.Sound (.loadIndirect t x pointer check) :=
  sound_of_operands ⟨rfl, rfl⟩ (by rintro _ ⟨⟩; rfl) rfl
    (by simpa [Operator.loadIndirect] using hp) (by simpa [Operator.loadIndirect] using hx)

theorem writable_of_fits (h : op.Fits g) {v : VarId} (hv : v ∈ op.results) : g.Writable v := by
  obtain ⟨info, hinfo, hd⟩ := h.live v (List.mem_append_right _ hv)
  obtain ⟨info', hinfo', ha⟩ := h.written v hv
  obtain rfl : info = info' := Option.some.inj (hinfo.symm.trans hinfo')
  exact ⟨info, hinfo, hd, ha⟩

theorem directLoad?_operands {k kind : OpKind} (h : k.directLoad? = some kind) :
    kind.argArity? = k.argArity? ∧ kind.targets = [] ∧ kind.isControl = false ∧
      kind.resultArity.most = 1 ∧ kind.resultArity.least = kind.isStaticLoad.toNat := by
  cases k <;> simp [OpKind.directLoad?] at h <;> subst h <;> exact ⟨rfl, rfl, rfl, rfl, rfl⟩

theorem sound_directLoad {address read : Operator} {kind : OpKind} {t : TypeId}
    (hkind : address.kind.directLoad? = some kind) (haddress : address.Fits g)
    (hread : read.Fits g) (hload : read.kind = .loadIndirect t)
    (hvoid : ¬(read.results = [] ∧ kind.isStaticLoad)) :
    g.Sound (.directLoad kind address read) := by
  obtain ⟨hargs, htargets, hcontrol, hmost, hleast⟩ := directLoad?_operands hkind
  refine sound_of_operands ⟨htargets, hcontrol⟩ (fun {a} ha => haddress.args (hargs ▸ ha)) ?_
    (fun e he => liveExpr_of_fits haddress he) fun v hv => writable_of_fits hread hv
  have hlen : read.results.length ≤ 1 := by
    simpa [hload, OpKind.resultArity, Arity.optional] using hread.results
  have hpos : kind.isStaticLoad.toNat ≤ read.results.length := by
    cases hs : kind.isStaticLoad with
    | false => exact Nat.zero_le _
    | true => exact List.length_pos_iff.mpr fun h => hvoid ⟨h, hs⟩
  simp only [Operator.directLoad, Arity.admits, hmost, hleast, Bool.and_eq_true, decide_eq_true_eq]
  exact ⟨hpos, hlen⟩

theorem LiveExpr.of_var_eq {e : Expr} (h : g.LiveExpr e)
    (hvar : ∀ v, v.index < g.vars.size → g'.var v = g.var v) : g'.LiveExpr e := by
  intro v hv
  obtain ⟨info, hinfo, hd⟩ := h v hv
  exact ⟨info, (hvar v (var_eq_some_lt hinfo)).trans hinfo, hd⟩

theorem Writable.of_var_eq {v : VarId} (h : g.Writable v)
    (hvar : ∀ v, v.index < g.vars.size → g'.var v = g.var v) : g'.Writable v := by
  obtain ⟨info, hinfo, hd, ha⟩ := h
  exact ⟨info, (hvar v (var_eq_some_lt hinfo)).trans hinfo, hd, ha⟩

end Graph

namespace Edit

open ScalarLowering.Graph

variable {g g' : Graph} {p : Pool} {c : Chains} {old id : OpId} {new : Operator}
  {skip : OpKind → Bool}

theorem shaped_substitute (hg : g.Shaped skip) {policy : Policy}
    (h : substitute old new policy g = .ok id g')
    (hold : ∃ op, g.op old = some op ∧ op.isControl = false) (hnew : g.Sound new) :
    g'.Shaped skip := by
  obtain ⟨hs, -, hcode⟩ := substitute_spec hg.linked h
  refine hg.spliced hs hold fun x hx => .inr ?_
  obtain rfl := List.mem_singleton.mp hx
  obtain ⟨op, hop, hcode⟩ := exists_of_code hcode
  exact ⟨op, hop, hnew.of_code hcode.symm⟩

theorem shaped_remove (hg : g.Shaped skip) {policy : Policy} {left : Option OpId}
    (h : remove old policy g = .ok left g') : g'.Shaped skip := by
  cases policy with
  | keep =>
    obtain ⟨⟨hs, hcode⟩, hold⟩ := remove_keep_spec hg.linked h
    refine hg.spliced hs hold fun x hx => .inr ?_
    obtain rfl := List.mem_singleton.mp hx
    obtain ⟨op, hop, hcode⟩ := Option.map_eq_some_iff.mp hcode
    have hcode : op.code = Operator.nop.code := hcode
    exact ⟨op, hop, sound_nop.of_code hcode.symm⟩
  | discard =>
    obtain ⟨hs, hold⟩ := remove_discard_spec hg.linked h
    exact hg.spliced hs hold nofun

theorem shaped_forward (hg : g.Shaped skip) (hc : Tracks c g) {result : VarId} {value : Expr}
    {stable b : Bool} (h : forward c id result value stable g = .ok b g')
    (hold : ∃ op, g.op id = some op ∧ op.isControl = false) (hresult : g.Writable result)
    (hvalue : g.LiveExpr value) : g'.Shaped skip := by
  obtain ⟨-, -, -, -, n, g₁, left, hredirect, hremove⟩ | ⟨-, new, hsubstitute⟩ := forward_spec h
  · exact shaped_remove (hg.rewired (redirectAll_spec hg.linked hc hredirect).1 hvalue) hremove
  · exact shaped_substitute hg hsubstitute hold (sound_copy hresult hvalue)

theorem shaped_fetch (hg : g.Shaped skip) {check : Bool} {source : Source} {e : Expr}
    (h : fetch id check source g = .ok e g')
    (hid : ∃ op, g.op id = some op ∧ op.isControl = false)
    (hsource : g.LiveExpr source.operand) :
    g'.Shaped skip ∧ g'.LiveExpr e ∧ g'.op id = g.op id ∧
      ∀ v, v.index < g.vars.size → g'.var v = g.var v := by
  cases source with
  | value e' =>
    obtain ⟨rfl, rfl⟩ := pure_eq_ok.mp h
    exact ⟨hg, hsource, rfl, fun _ _ => rfl⟩
  | behind pointer t =>
    obtain ⟨rfl, load, op, hcode, hinsert⟩ := fetch_behind_spec h
    have hg₁ := hg.addVar .temporary t
    obtain ⟨hs, rfl, hnew⟩ := insertBefore_spec hg₁.linked hinsert
    obtain ⟨idOp, hidOp, hcontrol⟩ := hid
    have hvar : ∀ v, v.index < g.vars.size → (g.addVar .temporary t).2.var v = g.var v :=
      fun v hv => by rw [var_addVar, if_neg (Nat.ne_of_lt hv)]
    have hvar' : ∀ v, g'.var v = (g.addVar .temporary t).2.var v :=
      fun v => by simp [var, hs.vars]
    have htemp : (g.addVar .temporary t).2.var ⟨g.vars.size⟩ = some { kind := .temporary, type := t } := by
      rw [var_addVar, if_pos rfl]
    have hpointer : (g.addVar .temporary t).2.LiveExpr (.var pointer) := by
      rintro v ⟨⟩
      obtain ⟨info, hinfo, hd⟩ := hsource pointer rfl
      exact ⟨info, (hvar pointer (var_eq_some_lt hinfo)).trans hinfo, hd⟩
    refine ⟨hg₁.spliced hs ⟨idOp, hidOp, hcontrol⟩ fun x hx => ?_, ?_, ?_, fun v hv => ?_⟩
    · obtain rfl | hx := List.mem_cons.mp hx
      · obtain ⟨op', hop', hcode'⟩ := exists_of_code hnew
        have hsound := sound_loadIndirect t check ⟨_, htemp, rfl, rfl⟩ hpointer
        exact .inr ⟨op', hop', hsound.of_code (hcode.symm.trans hcode'.symm)⟩
      · exact .inl (List.mem_singleton.mp hx)
    · rintro v ⟨⟩
      exact ⟨_, (hvar' _).trans htemp, rfl⟩
    · exact hs.op (.inr (by simp)) (op_eq_some_lt hidOp)
    · rw [hvar', hvar v hv]

theorem mem_attached_of_defCount (hc : Tracks c g) {v : VarId} {d : OpId}
    (h : g.defCount c v = .ok (.one d)) : d ∈ g.attached :=
  (mem_definers.mp (hc.definers_eq h ▸ List.mem_singleton.mpr rfl)).1

theorem mem_attached_of_definesAlone (hc : Tracks c g) {v : VarId} {d : OpId}
    (h : g.definesAlone c d v = .ok true) :
    d ∈ g.attached ∧ ∀ {op}, g.op d = some op → v ∈ op.results := by
  obtain ⟨hd, op, hop, hdefines⟩ := mem_definers.mp (hc.definesAlone h ▸ List.mem_singleton.mpr rfl)
  refine ⟨hd, fun {op'} hop' => ?_⟩
  obtain rfl : op = op' := Option.some.inj (hop.symm.trans hop')
  simpa [Operator.definesVar] using hdefines

theorem live_of_sourceOf (hg : g.Shaped skip) (hc : Tracks c g) {v : VarId} {source : Source}
    (hv : g.LiveExpr (.var v)) (h : g.sourceOf p c id v = .ok source) :
    g.LiveExpr source.operand := by
  obtain ⟨info, -, ⟨-, rfl⟩ | ⟨t, -, -, ⟨e, -, haddressed, rfl⟩ | rfl⟩⟩ := sourceOf_spec h
  · exact hv
  · obtain ⟨d, op, hd, hop, -, hargs⟩ := addressedBy_spec haddressed
    exact liveExpr_of_fits (hg.fits (mem_attached_of_defCount hc hd) hop)
      (by simp [hargs, Source.operand])
  · exact hv

theorem shaped_lowerConstructor (hc : Tracks c g) (hg : g.Shaped skip) {b : Bool}
    (h : lowerConstructor p c id g = .ok b g') : g'.Shaped skip := by
  obtain ⟨found, hfound, h⟩ := query_bind_eq_ok.mp h
  cases found with
  | none =>
    obtain ⟨-, rfl⟩ := pure_eq_ok.mp h
    exact hg
  | some copy =>
    obtain ⟨new, g₁, hs, h⟩ := bind_eq_ok.mp h
    obtain ⟨-, rfl⟩ := pure_eq_ok.mp h
    obtain ⟨op, m, method, this, value, d, source, x, infoThis, info, hop, hkind, -, -, -, hargs, -,
      -, -, -, hd, hsource, -, hx, hinfo, harg, -, rfl⟩ := constructorCopy_spec hfound
    have hid := (substitute_spec hg.linked hs).1.attached
    have hxlive := liveExpr_of_fits (hg.fits (mem_attached_of_defCount hc hd) hsource)
      (List.mem_of_mem_head? hx)
    obtain ⟨info', hinfo', hdropped⟩ := hxlive x rfl
    obtain rfl : info = info' := Option.some.inj (hinfo.symm.trans hinfo')
    exact shaped_substitute hg hs ⟨op, hop, by simp [Operator.isControl, hkind, OpKind.isControl]⟩
      (sound_copy ⟨info, hinfo, hdropped, harg⟩
        (liveExpr_of_fits (hg.fits hid hop) (by simp [hargs])))

theorem operands_of_equalityComparison (hg : g.Shaped skip) (hc : Tracks c g)
    (hid : id ∈ g.attached) {cmp : Comparison}
    (h : g.equalityComparison p c id = .ok (some cmp)) :
    (∃ op, g.op id = some op ∧ op.isControl = false) ∧ g.Writable cmp.result ∧
      g.LiveExpr cmp.right ∧ g.LiveExpr cmp.left.operand := by
  obtain ⟨op, m, method, hop, hkind, -, -, -, hresult, hoperands⟩ := equalityComparison_spec h
  have hfits := hg.fits hid hop
  refine ⟨⟨op, hop, by simp [Operator.isControl, hkind, OpKind.isControl]⟩,
    writable_of_fits hfits (List.mem_of_mem_head? hresult), ?_⟩
  obtain ⟨-, hstatic⟩ | ⟨-, hinstance⟩ := hoperands
  · obtain ⟨unused, e, hargs, hleft, -, -⟩ := staticOperands_spec hstatic
    rw [hleft]
    exact ⟨liveExpr_of_fits hfits (by simp [hargs]),
      liveExpr_of_fits hfits (by simp [hargs, Source.operand])⟩
  · obtain ⟨this, kind, hargs, -, -, -, hsource⟩ := instanceOperands_spec hinstance
    exact ⟨liveExpr_of_fits hfits (by simp [hargs]),
      live_of_sourceOf hg hc (liveExpr_of_fits hfits (by simp [hargs])) hsource⟩

/-- A fetch is made for an attached operator, or changes nothing. -/
theorem attached_of_fetch (hg : g.Linked) {check : Bool} {source : Source} {e : Expr}
    (h : fetch id check source g = .ok e g') (hid : id ∈ g'.attached) : id ∈ g.attached := by
  cases source with
  | value e' =>
    obtain ⟨-, rfl⟩ := pure_eq_ok.mp h
    exact hid
  | behind pointer t =>
    obtain ⟨-, load, op, -, hinsert⟩ := fetch_behind_spec h
    exact (insertBefore_spec (hg.addVar .temporary t) hinsert).1.attached

theorem shaped_lowerEquality (hc : Tracks c g) (hg : g.Shaped skip) {b : Bool}
    (h : lowerEquality p c id g = .ok b g') : g'.Shaped skip := by
  obtain ⟨found, hfound, h⟩ := query_bind_eq_ok.mp h
  cases found with
  | none =>
    obtain ⟨-, rfl⟩ := pure_eq_ok.mp h
    exact hg
  | some cmp =>
    obtain ⟨check, -, h⟩ := query_bind_eq_ok.mp h
    obtain ⟨left, g₁, hfetch, h⟩ := bind_eq_ok.mp h
    obtain ⟨new, g₂, hs, h⟩ := bind_eq_ok.mp h
    obtain ⟨-, rfl⟩ := pure_eq_ok.mp h
    have hlinked := ((grows_fetch id check cmp.left).ok hfetch hg.linked).1
    have hid := attached_of_fetch hg.linked hfetch (substitute_spec hlinked hs).1.attached
    obtain ⟨hold, hresult, hright, hleft⟩ := operands_of_equalityComparison hg hc hid hfound
    obtain ⟨hg₁, hlive, hop, hvar⟩ := shaped_fetch hg hfetch hold hleft
    exact shaped_substitute hg₁ hs (hop ▸ hold)
      (sound_compare (hresult.of_var_eq hvar) hlive (hright.of_var_eq hvar))

theorem shaped_lowerFieldLoad (hc : Tracks c g) (hg : g.Shaped skip) {b : Bool}
    (h : lowerFieldLoad p c id g = .ok b g') : g'.Shaped skip := by
  obtain ⟨found, hfound, h⟩ := query_bind_eq_ok.mp h
  cases found with
  | none =>
    obtain ⟨-, rfl⟩ := pure_eq_ok.mp h
    exact hg
  | some read =>
    obtain ⟨check, -, h⟩ := query_bind_eq_ok.mp h
    obtain ⟨value, g₁, hfetch, h⟩ := bind_eq_ok.mp h
    obtain ⟨op, f, receiver, info, hop, hkind, -, hargs, hresult, -, halone, hsource⟩ :=
      fieldRead_spec hfound
    obtain ⟨hid, hdefines⟩ := mem_attached_of_definesAlone hc halone
    have hfits := hg.fits hid hop
    have hold : ∃ op, g.op id = some op ∧ op.isControl = false :=
      ⟨op, hop, by simp [Operator.isControl, hkind, OpKind.isControl]⟩
    have hleft := live_of_sourceOf hg hc (liveExpr_of_fits hfits (by simp [hargs])) hsource
    obtain ⟨hg₁, hlive, hopid, hvar⟩ := shaped_fetch hg hfetch hold hleft
    obtain ⟨hlinked₁, hext⟩ := (grows_fetch id check read.source).ok hfetch hg.linked
    have hforward : ∀ {stable : Bool}, (forward c id read.result value stable >>= fun _ =>
        pure true : Edit Bool) g₁ = .ok b g' → g'.Shaped skip := by
      intro stable h
      obtain ⟨b', g₂, hf, h⟩ := bind_eq_ok.mp h
      obtain ⟨-, rfl⟩ := pure_eq_ok.mp h
      exact shaped_forward hg₁ (hc.extends hext hlinked₁) hf (hopid ▸ hold)
        ((writable_of_fits hfits (hdefines hop)).of_var_eq hvar) hlive
    obtain ⟨result, source⟩ := read
    cases source with
    | value e =>
      obtain ⟨stable, -, h⟩ := query_bind_eq_ok.mp h
      exact hforward h
    | behind pointer t =>
      obtain ⟨stable, g₂, hpure, h⟩ := bind_eq_ok.mp h
      obtain ⟨-, rfl⟩ := pure_eq_ok.mp hpure
      exact hforward h

theorem shaped_lowerFieldAddress (hc : Tracks c g) (hg : g.Shaped skip) {b : Bool}
    (h : lowerFieldAddress p c id g = .ok b g') : g'.Shaped skip := by
  obtain ⟨found, hfound, h⟩ := query_bind_eq_ok.mp h
  cases found with
  | none =>
    obtain ⟨-, rfl⟩ := pure_eq_ok.mp h
    exact hg
  | some found =>
    obtain ⟨op, f, receiver, result, t, hop, hkind, -, hargs, hresult, halone, -, hcase⟩ :=
      fieldAddress_spec hfound
    obtain ⟨hid, hdefines⟩ := mem_attached_of_definesAlone hc halone
    have hfits := hg.fits hid hop
    have hold : ∃ op, g.op id = some op ∧ op.isControl = false :=
      ⟨op, hop, by simp [Operator.isControl, hkind, OpKind.isControl]⟩
    have hwritable := writable_of_fits hfits (hdefines hop)
    have hreceiver : g.LiveExpr receiver := liveExpr_of_fits hfits (by simp [hargs])
    obtain ⟨x, -, rfl, rfl⟩ | ⟨u, stable, -, -, -, rfl⟩ := hcase
    · obtain ⟨new, g₁, hs, h⟩ := bind_eq_ok.mp h
      obtain ⟨-, rfl⟩ := pure_eq_ok.mp h
      exact shaped_substitute hg hs hold (sound_addressOf hwritable hreceiver)
    · obtain ⟨b', g₁, hf, h⟩ := bind_eq_ok.mp h
      obtain ⟨-, rfl⟩ := pure_eq_ok.mp h
      exact shaped_forward hg hc hf hold hwritable hreceiver

theorem shaped_foldLocal (hc : Tracks c g) (hg : g.Shaped skip) {b : Bool}
    (h : foldLocal p c id g = .ok b g') : g'.Shaped skip := by
  obtain ⟨found, hfound, h⟩ := query_bind_eq_ok.mp h
  have hrest : ∀ {g₁ : Graph}, g₁.Shaped skip → (remove id .discard >>= fun _ =>
      pure true : Edit Bool) g₁ = .ok b g' → g'.Shaped skip := by
    intro g₁ hg₁ h
    obtain ⟨left, g₂, hremove, h⟩ := bind_eq_ok.mp h
    obtain ⟨-, rfl⟩ := pure_eq_ok.mp h
    exact shaped_remove hg₁ hremove
  rcases found with _ | fold
  · obtain ⟨-, rfl⟩ := pure_eq_ok.mp h
    exact hg
  obtain ⟨op, pointer, hop, hpointer, hcase⟩ := localFold_spec hfound
  obtain ⟨-, rfl⟩ | ⟨load, addressed, read, hload, hargs, hread, hcase⟩ := hcase
  · exact hrest hg h
  obtain ⟨-, rfl⟩ | ⟨loaded, stable, hresult, halone, -, rfl⟩ := hcase
  · obtain ⟨left, g₁, hremove, h⟩ := bind_eq_ok.mp h
    exact hrest (shaped_remove hg hremove) h
  · obtain ⟨b', g₁, hforward, h⟩ := bind_eq_ok.mp h
    obtain ⟨op', pointer', read', t, hop', -, hone, -, hread', hkind⟩ := loneLoad_spec hload
    obtain rfl : read' = read := Option.some.inj (hread'.symm.trans hread)
    obtain ⟨hid, -⟩ := mem_attached_of_definesAlone hc hone
    obtain ⟨hidload, hdefines⟩ := mem_attached_of_definesAlone hc halone
    refine hrest (shaped_forward hg hc hforward ⟨read', hread, ?_⟩ ?_ ?_) h
    · simp [Operator.isControl, hkind, OpKind.isControl]
    · exact writable_of_fits (hg.fits hidload hread) (hdefines hread)
    · exact liveExpr_of_fits (hg.fits hid hop) (by simp [hargs])

theorem shaped_foldPlace (hc : Tracks c g) (hg : g.Shaped skip) {b : Bool}
    (h : foldPlace p c id g = .ok b g') : g'.Shaped skip := by
  obtain ⟨found, hfound, h⟩ := query_bind_eq_ok.mp h
  have hrest : ∀ {g₁ : Graph}, g₁.Shaped skip → (remove id .discard >>= fun _ =>
      pure true : Edit Bool) g₁ = .ok b g' → g'.Shaped skip := by
    intro g₁ hg₁ h
    obtain ⟨left, g₂, hremove, h⟩ := bind_eq_ok.mp h
    obtain ⟨-, rfl⟩ := pure_eq_ok.mp h
    exact shaped_remove hg₁ hremove
  rcases found with _ | ⟨load, operator⟩
  · obtain ⟨-, rfl⟩ := pure_eq_ok.mp h
    exact hg
  obtain ⟨op, read, kind, hload, hop, hkind, -, -, hread, hcase⟩ := directLoad_spec hfound
  obtain ⟨op', pointer, read', t, hop', -, hone, huses, hread', hloadKind⟩ := loneLoad_spec hload
  obtain rfl : read' = read := Option.some.inj (hread'.symm.trans hread)
  obtain ⟨hid, -⟩ := mem_attached_of_definesAlone hc hone
  have hidload : load ∈ g.attached :=
    (mem_readers.mp (hc.attachedUses huses ▸ List.mem_singleton.mpr rfl)).1
  obtain ⟨-, -, rfl⟩ | ⟨hvoid, rfl⟩ := hcase
  · obtain ⟨left, g₁, hremove, h⟩ := bind_eq_ok.mp h
    exact hrest (shaped_remove hg hremove) h
  · obtain ⟨new, g₁, hs, h⟩ := bind_eq_ok.mp h
    refine hrest (shaped_substitute hg hs ⟨read', hread, ?_⟩ ?_) h
    · simp [Operator.isControl, hloadKind, OpKind.isControl]
    · exact sound_directLoad hkind (hg.fits hid hop) (hg.fits hidload hread) hloadKind hvoid

end Edit

open ScalarLowering.Graph

variable {g g' : Graph} {skip : OpKind → Bool}

theorem Graph.SameCode.var_eq_some (h : g.SameCode g') {v : VarId} {info : Variable}
    (hv : g.var v = some info) : ∃ info', g'.var v = some info' ∧ info'.kind = info.kind ∧
      info'.type = info.type ∧ info'.dropped = info.dropped :=
  SameInfo.var_eq_some h.var hv

theorem Graph.Shaped.of_sameCode (h : g.SameCode g') (hg' : g'.Linked) (hg : g.Shaped skip) :
    g'.Shaped skip := by
  have hop : ∀ id, g'.op id = g.op id := fun id => by simp [op, h.ops]
  have hblock : ∀ b, g'.block b = g.block b := fun b => by simp [block, h.blocks]
  refine ⟨hg.of_blocks_eq hg' h.blocks h.entry fun {id op} hid hopid => ?_,
    fun {id op} hid hopid => ?_⟩
  · rw [hop] at hopid
    have hfits := hg.fits hid hopid
    refine ⟨⟨op, hopid, rfl⟩, hfits.args, hfits.results, fun b hb => ?_, fun v hv => ?_,
      fun v hv => ?_⟩
    · rw [hblock]
      exact hfits.targets b hb
    · obtain ⟨info, hinfo, hd⟩ := hfits.live v hv
      obtain ⟨info', hinfo', -, -, hdropped⟩ := h.var_eq_some hinfo
      exact ⟨info', hinfo', hdropped.trans hd⟩
    · obtain ⟨info, hinfo, ha⟩ := hfits.written v hv
      obtain ⟨info', hinfo', hkind, -, -⟩ := h.var_eq_some hinfo
      exact ⟨info', hinfo', by simpa [Variable.isArgument, hkind] using ha⟩
  · rw [hop] at hopid
    exact hg.complete (by simpa [attached, h.blocks] using hid) hopid

theorem stepInvariant_shaped (p : Pool) (skip : OpKind → Bool) :
    StepInvariant p (Graph.Shaped skip) where
  sameCode := fun h hg' hg => hg.of_sameCode h hg'.linked
  constructor := fun _ hc hg => Edit.shaped_lowerConstructor hc hg
  equality := fun _ hc hg => Edit.shaped_lowerEquality hc hg
  fieldLoad := fun _ hc hg => Edit.shaped_lowerFieldLoad hc hg
  fieldAddress := fun _ hc hg => Edit.shaped_lowerFieldAddress hc hg
  localAddress := fun _ _ hc hg => Edit.shaped_foldLocal hc hg
  placeAddress := fun _ hc hg => Edit.shaped_foldPlace hc hg
  reachability := fun _ hg => hg.updateReachability

theorem isControl_of_isPure {op : Operator} (h : op.isPure) : op.isControl = false := by
  unfold Operator.isPure at h
  unfold Operator.isControl OpKind.isControl
  split at h <;> simp_all

/-- The kinds that need their result can go when nobody reads it, static places apart. -/
theorem isPure_of_least {op : Operator} (hstatic : op.kind.isStatic = false)
    (hleast : 0 < op.kind.resultArity.least) : op.isPure ∧ op.kind.resultArity = .exactly 1 := by
  unfold Operator.isPure
  cases hk : op.kind <;> simp_all [OpKind.resultArity, OpKind.isStatic, Arity.optional, Arity.exactly]

theorem deadInvariant_shaped : DeadInvariant (Graph.Shaped OpKind.isStatic) where
  sameCode := fun h hg' hg => hg.of_sameCode h hg'.linked
  remove := fun _ hg hop hpure _ hs =>
    hg.spliced hs ⟨_, hop, isControl_of_isPure hpure⟩ nofun
  strip := fun {g id op v} _ hg hid hop hv hread => by
    refine ⟨hg.toWellShaped.stripResult id v, fun {x op'} hx hop' hstatic => ?_⟩
    simp only [stripResult, op_bump, op_modifyOp] at hop'
    split at hop'
    · rename_i hxid
      obtain rfl : x = id := hxid
      obtain rfl : op.withoutResult v = op' := by simpa [hop] using hop'
      have hstatic : op.kind.isStatic = false := hstatic
      by_cases hleast : 0 < op.kind.resultArity.least
      · obtain ⟨hpure, hone⟩ := isPure_of_least hstatic hleast
        obtain ⟨w, hw, hwread⟩ := hread.resolve_left (by simp [hpure])
        have hne : w ≠ v := fun h => hwread (h ▸ hv)
        have hkept : w ∈ (op.withoutResult v).results := List.mem_filter.mpr ⟨hw, by simpa using hne⟩
        show op.kind.resultArity.least ≤ _
        rw [hone]
        exact List.length_pos_of_mem hkept
      · exact Nat.le_trans (Nat.le_of_not_lt hleast) (Nat.zero_le _)
    · exact hg.complete hx hop' hstatic
  drop := fun _ hg => hg.dropUnmentioned

theorem Graph.checkOperator_eq_error {id : OpId} {op : Operator} {e : Error} (hfits : op.Fits g)
    (h : g.checkOperator id op = .error e) :
    op.results.length < op.kind.resultArity.least ∧
      e = .graph (.arity id op.kind .results op.results.length op.kind.resultArity) := by
  have htargets : ∀ b ∈ op.targets, b.index < g.blocks.size := fun b hb => by
    obtain ⟨block, hblock, -⟩ := hfits.targets b hb
    exact block_eq_some_lt hblock
  have hnot : ¬op.kind.resultArity.admits op.results.length := fun hadmits => by
    rw [checkOperator_eq_ok.mpr ⟨hfits.args, hadmits, htargets, hfits.live, hfits.written⟩] at h
    cases h
  have hresults : checkArity id op.kind .results op.results.length op.kind.resultArity =
      .error (.graph (.arity id op.kind .results op.results.length op.kind.resultArity)) := by
    unfold checkArity
    rw [if_neg hnot]
    rfl
  refine ⟨?_, ?_⟩
  · simp only [Arity.admits, hfits.results, decide_true, Bool.and_true, decide_eq_true_eq] at hnot
    omega
  · unfold checkOperator at h
    dsimp only at h
    cases hargs : op.kind.argArity? with
    | none =>
      simp only [hargs, hresults] at h
      cases h
      rfl
    | some a =>
      have hok : checkArity id op.kind .arguments op.args.length a = .ok () :=
        checkArity_eq_ok.mpr (hfits.args hargs)
      simp only [hargs, hok, hresults] at h
      cases h
      rfl

/-- Verification of a graph of a good shape fails only at a static place without its result. -/
theorem Graph.Shaped.verify_eq_error (hg : g.Shaped OpKind.isStatic) {e : Error}
    (h : g.verify = .error e) : ∃ id kind, kind.isStatic ∧
      e = .graph (.arity id kind .results 0 (.exactly 1)) := by
  obtain ⟨b, hb, h⟩ := forM_eq_error h
  obtain ⟨block, hblock⟩ := exists_block ((mem_blockIds g).mp hb)
  rw [hblock] at h
  have h : (if block.reachable then g.checkBlock b block.ops else pure ()) = .error e := h
  split at h
  case isFalse => cases h
  rename_i hr
  obtain ⟨last, lastOp, hlast, hlastOp, hcontrol⟩ := hg.last hblock hr
  unfold checkBlock at h
  simp only [hlast] at h
  obtain h | ⟨-, -, h⟩ := Except.bind_eq_error.mp h
  case inr =>
    rw [hlastOp] at h
    have h : (if !lastOp.isControl then throw (.graph (.missingTerminator b)) else pure () :
      Except Error Unit) = .error e := h
    rw [hcontrol] at h
    cases h
  obtain ⟨id, hid, h⟩ := forM_eq_error h
  have hatt : id ∈ g.attached := mem_attached.mpr ⟨b, block, hblock, hid⟩
  obtain ⟨op, hop, hopblock⟩ := blockOf_eq_some.mp ((hg.linked.listed hblock).mp hid)
  have hnot : ¬(op.isControl ∧ id ≠ last) := fun hc =>
    hc.2 (Option.some.inj ((hg.control hblock hid hop hc.1).symm.trans hlast))
  have hchecked : g.checkListed b last id = g.checkOperator id op := by
    unfold checkListed
    rw [hop]
    show (if op.block ≠ some b then _ else _) = _
    rw [if_neg (by simp [hopblock]), if_neg hnot]
  rw [hchecked] at h
  obtain ⟨hlt, rfl⟩ := checkOperator_eq_error (hg.fits hatt hop) h
  have hstatic : op.kind.isStatic := by
    by_contra hstatic
    have := hg.complete hatt hop (by simpa using hstatic)
    omega
  have hone := OpKind.resultArity_of_isStatic hstatic
  have hzero : op.results.length = 0 := by
    rw [hone] at hlt
    exact Nat.lt_one_iff.mp hlt
  exact ⟨id, op.kind, hstatic, by rw [hone, hzero]⟩

/-- What verification says of a graph after the lowering. It can only miss the result of a load
from a static field or of its address, and only if dead variables were eliminated. -/
theorem verify_after_lower {p : Pool} (config : Config) {stats : Stats} (hg : g.Built)
    (hverify : g.verify = .ok ())
    (hentry : ∃ block, g.block g.entry = some block ∧ block.reachable)
    (hunreachable : ∀ {b block}, g.block b = some block → block.reachable = false →
      block.ops = [] ∧ ∀ {b' block'}, g.block b' = some block' → block'.reachable →
        b ∉ g.targetsOf block'.ops)
    (h : Edit.lower p { config with verify := false } g = .ok stats g') :
    (config.deadVariables = false → g'.verify = .ok ()) ∧
      (g'.verify = .ok () ↔ ∀ {id op}, id ∈ g'.attached → g'.op id = some op →
        op.kind.isStatic → op.results ≠ []) ∧
      ∀ e, g'.verify = .error e → ∃ id kind, kind.isStatic ∧
        e = .graph (.arity id kind .results 0 (.exactly 1)) := by
  have hstart : ∀ skip, g.Shaped skip := fun _ =>
    shaped_of_verify hg.coherent.linked hverify hentry hunreachable
  have hend : g'.Shaped OpKind.isStatic := Edit.lower_induction (stepInvariant_shaped p _)
    (fun h => h) (fun _ => deadInvariant_shaped) hg.coherent (hstart _) h
  refine ⟨fun hdead => ?_, ?_, fun e he => hend.verify_eq_error he⟩
  · have hfull : g'.Shaped fun _ => false := Edit.lower_induction (stepInvariant_shaped p _)
      (fun h => h) (fun henabled => absurd henabled (by simp [hdead])) hg.coherent (hstart _) h
    exact hfull.verify_eq_ok_iff.mpr fun hid hop => hfull.complete hid hop rfl
  · rw [hend.verify_eq_ok_iff]
    refine ⟨fun hall id op hid hop hstatic hnone => ?_, fun hall id op hid hop => ?_⟩
    · have hle := hall hid hop
      rw [OpKind.resultArity_of_isStatic hstatic, hnone] at hle
      exact absurd hle (by decide)
    · by_cases hstatic : op.kind.isStatic
      · rw [OpKind.resultArity_of_isStatic hstatic]
        exact List.length_pos_iff.mpr (hall hid hop hstatic)
      · exact hend.complete hid hop (by simpa using hstatic)

def poolWithStatic : Pool :=
  ((Pool.new.addMembers (.ofScalar .i32)).2.addField ⟨⟨0⟩, .object, .ofScalar .i32, true⟩).2

/-- Reads a static field through its address, with a null check, and returns what was read or
the value of the argument. -/
def staticRead (returned : VarId) : Graph :=
  (Graph.empty "f").changed
    [.addVar .argument (.ofScalar .i32), .addVar .local ⟨14⟩, .addVar .local (.ofScalar .i32),
      .addVar .local (.ofScalar .i32), .append ⟨0⟩ (.loadField ⟨0⟩ ⟨3⟩ (.var ⟨0⟩) false),
      .append ⟨0⟩ (.loadStaticAddress ⟨1⟩ ⟨1⟩),
      .append ⟨0⟩ (.loadIndirect (.ofScalar .i32) ⟨2⟩ (.var ⟨1⟩) true),
      .append ⟨0⟩ (.ret (some (.var returned)))]

theorem built_staticRead (returned : VarId) : (staticRead returned).Built :=
  (Graph.Built.empty "f").changed _

/-- Where what was read is returned, the graph still verifies. -/
theorem verify_after_lower_staticRead : ∃ stats g',
    Edit.lower poolWithStatic { verify := false } (staticRead ⟨2⟩) = .ok stats g' ∧
      g'.verify = .ok () := by
  obtain ⟨stats, h⟩ := Edit.exists_ok_of_succeeds (by decide +kernel :
    (Edit.lower poolWithStatic { verify := false }).succeeds (staticRead ⟨2⟩))
  have hreachable : ∀ block ∈ (staticRead ⟨2⟩).blocks, block.reachable := by decide
  have hread : ∀ id ∈ ((Edit.lower poolWithStatic { verify := false }).after
      (staticRead ⟨2⟩)).attached, (((Edit.lower poolWithStatic { verify := false }).after
      (staticRead ⟨2⟩)).op id).all fun op => !op.kind.isStatic || !op.results.isEmpty := by
    decide +kernel
  obtain ⟨-, hiff, -⟩ := verify_after_lower { } (built_staticRead ⟨2⟩) (by decide)
    ⟨_, rfl, by decide⟩
    (fun hb hr => absurd (hreachable _ (Array.mem_of_getElem? hb)) (by simp [hr])) h
  refine ⟨stats, _, h, hiff.mpr fun hid hop hstatic => ?_⟩
  simpa [hop, hstatic] using hread _ hid

/-- Where it is not read, the load loses its result and the graph no longer verifies. -/
theorem verify_fails_after_lower : ∃ stats g',
    (staticRead ⟨3⟩).verify = .ok () ∧ (∀ block ∈ (staticRead ⟨3⟩).blocks, block.reachable) ∧
      Edit.lower poolWithStatic { verify := false } (staticRead ⟨3⟩) = .ok stats g' ∧
      g'.verify = .error (.graph (.arity ⟨5⟩ (.loadStatic ⟨1⟩) .results 0 (.exactly 1))) := by
  obtain ⟨stats, h⟩ := Edit.exists_ok_of_succeeds (by decide +kernel :
    (Edit.lower poolWithStatic { verify := false }).succeeds (staticRead ⟨3⟩))
  exact ⟨stats, _, by decide, by decide, h, by decide +kernel⟩

end ScalarLowering
