import ScalarLowering.Proofs.Promptness
import ScalarLowering.Proofs.Receivers
import ScalarLowering.Proofs.Verification

/-! Refinement: the new graph keeps the conditions of the old one, and every run of the old graph
is answered by a run of the new one. One lemma for each kind of edit. -/

namespace ScalarLowering

theorem Operator.eq_of_code {op op' : Operator} (h : op'.code = op.code) :
    op' = { op with position := op'.position, block := op'.block } := by
  cases op
  cases op'
  simpa [Operator.code] using h

theorem Operator.action_copy {p : Pool} {g : Graph} {s : Frame} {value : Expr} {w : Value}
    (x : VarId) (hw : s.eval value = some w) :
    (Operator.copy x value).action p g s = .ok (some (.var x, w)) := by
  have harg : s.arg (.copy x value) 0 = .ok w := Operator.arg_eq_ok.mpr ⟨value, rfl, hw⟩
  simp only [Operator.action, Operator.copy] at harg ⊢
  rw [harg]
  rfl

theorem Operator.isStore_of_definesOnly {op : Operator} (h : op.definesOnly) :
    op.isStore = false := by
  unfold Operator.definesOnly at h
  unfold Operator.isStore
  split at h <;> simp_all

namespace Graph

/-- The conditions under which a graph can be lowered; those on the order of faults count only
where faults are to be kept. -/
structure Tame (g : Graph) (p : Pool) (faults : Bool) : Prop where
  shaped : g.Shaped OpKind.isStatic
  disciplined : g.Disciplined p
  prompt : faults → g.Prompt p

structure Refines (g g' : Graph) (p : Pool) (faults : Bool) : Prop where
  tame : g'.Tame p faults
  preserves : g.Preserves g' p faults

variable {g g' g'' : Graph} {p : Pool} {faults : Bool} {op new : Operator} {old id : OpId}
  {I : List OpId → List OpId → Frame → Prop}

theorem Tame.refl (h : g.Tame p faults) : g.Refines g p faults := ⟨h, .refl g p faults⟩

theorem Refines.trans (h : g.Refines g' p faults) (h' : g'.Refines g'' p faults) :
    g.Refines g'' p faults :=
  ⟨h'.tame, h.preserves.trans h'.preserves⟩

/-- What an operator put for another owes to the order of faults. -/
structure KeepsPace (g : Graph) (p : Pool) (old : OpId) (op new : Operator) : Prop where
  silent : new.silent p → op.silent p ∧ op.isPlace = false
  reads : ∀ {address q}, g.PlaceOf address q → q ∈ new.reads → q ∈ op.reads ∨
    ¬g.Before old address ∧ ∀ {x}, g.Risks p q x → g.Before address x → g.Before x old →
      g.Passed p q address x
  settles : ∀ {address q}, g.PlaceOf address q → g.Before address old → op.derefs p q ∨ op.isStore →
    new.derefs p q ∨ (∃ r, r ≠ old ∧ g.Settles p q r ∧ g.Before address r ∧ g.Before r old) ∨
      q ∉ new.reads ∧ ∀ user ∈ g.readers q, user = old

theorem Welcomes.of_code {new' : Operator} (h : g.Welcomes g p id new) (hcode : new'.code = new.code)
    (hvars : g'.vars = g.vars) : g.Welcomes g' p id new' := by
  rw [Operator.eq_of_code hcode]
  have htype := (sameVars_of_vars_eq hvars).typeOf
  refine ⟨?_, ?_, h.place, h.reads, h.loads⟩
  · exact Operator.wellTyped_of_types (f := fun e => e) rfl (by simp) (fun e _ => htype e)
      (fun x hx => ⟨hx, htype _⟩) h.typed
  · rw [Operator.escapes_congr rfl rfl fun x _ => htype _]
    exact h.escapes

theorem Disciplined.spliced {ids : List OpId} (hd : g.Disciplined p) (hg : g.Linked)
    (h : g.Spliced g' old ids) (hfresh : ∀ n ∈ ids, n ≠ old → n ∉ g.attached)
    (hnew : ∀ n ∈ ids, n ≠ old → ∃ new, (g'.op n).map (·.code) = some new.code ∧
      g.Welcomes g p old new) : g'.Disciplined p := by
  refine hd.evolve (h.evolves hfresh hg) fun {n op'} hn horigin hop' => ?_
  obtain ⟨hmem, hne⟩ : n ∈ ids ∧ n ≠ old := by
    by_contra hcontra
    exact horigin (spliceOrigin_eq_self fun hmem => by_contra fun hne => hcontra ⟨hmem, hne⟩)
  obtain ⟨new, hcode, hwelcome⟩ := hnew n hmem hne
  rw [hop', Option.map_some] at hcode
  rw [spliceOrigin, if_pos hmem]
  exact hwelcome.of_code (Option.some.inj hcode) h.vars

theorem Disciplined.erased (hd : g.Disciplined p) (hg : g.Linked) (h : g.Spliced g' old []) :
    g'.Disciplined p :=
  hd.spliced hg h (fun _ hn => absurd hn List.not_mem_nil) fun _ hn => absurd hn List.not_mem_nil

theorem notMem_attached_size (hg : g.Linked) : (⟨g.ops.size⟩ : OpId) ∉ g.attached :=
  fun h => Nat.lt_irrefl _ (hg.lt_of_mem h)

theorem Prompt.spliced {n : OpId} (hp : g.Prompt p) (hg : g.Linked) (hg' : g'.Linked)
    (h : g.Spliced g' old [n]) (hfresh : n ∉ g.attached) (hold : g.op old = some op)
    (hcode : (g'.op n).map (·.code) = some new.code) (hplace : new.isPlace = false)
    (hpace : g.KeepsPace p old op new) : g'.Prompt p := by
  obtain ⟨new', hn, hcode⟩ := exists_of_code hcode
  have hevolves := h.evolves (fun m hm _ => List.mem_singleton.mp hm ▸ hfresh) hg
  have hn' : n ∈ g'.attached := h.mem_attached.mpr (.inl (by simp))
  rw [Operator.eq_of_code hcode] at hn
  refine hp.replaced hg hg' h hfresh hold hn hplace (fun hsilent _ => hpace.silent hsilent)
    (fun ha hq => hpace.reads ha hq) fun {address q user} ha huser hbefore hderefs => ?_
  obtain hnew | hr | ⟨hunread, honly⟩ := hpace.settles ha hbefore hderefs
  · exact .inl (settles_iff.mpr ⟨hn', _, hn, .inl hnew⟩)
  · exact .inr hr
  · by_cases hun : user = n
    · subst hun
      exact absurd (mem_reads_of_mem_readers huser hn) hunread
    · have horigin : spliceOrigin old [n] user = user :=
        spliceOrigin_eq_self fun hmem => absurd (List.mem_singleton.mp hmem) hun
      have huser₀ := hevolves.mem_readers horigin huser
      obtain hmem | hne := h.mem_attached.mp (mem_readers.mp huser).1
      · exact absurd (List.mem_singleton.mp hmem) hun
      · exact absurd (honly user huser₀) hne.1

/-- One operator is put for another that writes the same. -/
theorem Tame.substituted {policy : Policy} (hg : g.Tame p faults)
    (h : Edit.substitute old new policy g = .ok id g') (hold : g.op old = some op)
    (hcontrol : op.isControl = false) (hnew : g.Sound new) (hwelcome : g.Welcomes g p old new)
    (hpace : faults → g.KeepsPace p old op new) (hI : g.RunInvariant p I)
    (hsame : ∀ {pre rest s a}, g.At pre (old :: rest) → g.Sane p s → I pre (old :: rest) s →
      op.Safe p g s → op.action p g s = .ok a → new.Safe p g s ∧ new.action p g s = .ok a)
    (hfault : ∀ {pre rest s ending}, faults → g.At pre (old :: rest) → g.Sane p s →
      I pre (old :: rest) s → op.Safe p g s → ¬op.Faults p g s ending) :
    g.Refines g' p faults := by
  obtain ⟨hs, rfl, hcode⟩ := Edit.substitute_spec hg.shaped.linked h
  have hfresh := notMem_attached_size hg.shaped.linked
  have hshaped := Edit.shaped_substitute hg.shaped h ⟨op, hold, hcontrol⟩ hnew
  refine ⟨⟨hshaped, ?_, fun hf => ?_⟩, ?_⟩
  · refine hg.disciplined.spliced hg.shaped.linked hs (fun n hn _ => ?_) fun n hn _ => ?_
    · rwa [List.mem_singleton.mp hn]
    · rw [List.mem_singleton.mp hn]
      exact ⟨new, hcode, hwelcome⟩
  · exact (hg.prompt hf).spliced hg.shaped.linked hshaped.linked hs hfresh hold hcode
      hwelcome.place (hpace hf)
  · refine preserves_of_replaced hg.shaped.toWellShaped hs hI hold hcontrol hcode hnew.control
      (fun x hx => ?_) hsame hfault
    obtain ⟨info, hinfo, -⟩ := hnew.fits.live x (List.mem_append_left _ hx)
    exact var_eq_some_lt hinfo

/-- An operator whose result nobody reads goes away. -/
theorem Tame.removed {left : Option OpId} (hg : g.Tame p faults)
    (h : Edit.remove old .discard g = .ok left g') (hold : g.op old = some op)
    (hdefines : op.definesOnly) (hunread : ∀ x ∈ op.results, g.readers x = [])
    (hsettled : faults → ∀ {address q}, g.PlaceOf address q → address ≠ old → ¬g.Settles p q old)
    (hI : g.RunInvariant p I)
    (hfault : ∀ {pre rest s s' ending}, faults → g.At pre (old :: rest) → g.Sane p s →
      I pre (old :: rest) s → Frame.Agree (· ∈ op.results) s s' → op.Safe p g s →
      op.Faults p g s ending → g'.Runs p (rest.flatMap (splice old [])) s' ending) :
    g.Refines g' p faults := by
  obtain ⟨hs, -⟩ := Edit.remove_discard_spec hg.shaped.linked h
  have hshaped := Edit.shaped_remove hg.shaped h
  exact ⟨⟨hshaped, hg.disciplined.erased hg.shaped.linked hs,
    fun hf => (hg.prompt hf).erased hg.shaped.linked hshaped.linked hs (hsettled hf)⟩,
    preserves_of_erased hg.shaped.toWellShaped hs hI (.inl rfl) hold hdefines hunread hfault⟩

/-- Where the value that an operator forwards may come from. -/
def Comes (g : Graph) (p : Pool) (op : Operator) (value : Expr) : Prop :=
  ∀ y, value = .var y → g.Free p y ∨ op.isPlace ∧ y ∈ op.reads

theorem Free.not_placeOf {y : VarId} (h : g.Free p y) (hplace : g.PlaceOf id y) : False := by
  obtain ⟨hid, op, hop, hplace, hy⟩ := placeOf_iff.mp hplace
  rw [(h hid hop hy).2] at hplace
  cases hplace

variable {load address : OpId} {value : Expr} {y : VarId}

/-- An operator that defines a forwarded value neither escapes nor is far from the operator that
forwards it. -/
theorem Comes.near (h : g.Comes p op value) (hd : g.Disciplined p) (hload : load ∈ g.attached)
    (hop : g.op load = some op) (hy : value = .var y) {op' : Operator} (hid : id ∈ g.attached)
    (hop' : g.op id = some op') (hdef : y ∈ op'.results) :
    op'.escapes p g = false ∧ (op'.isPlace → op'.mayFault ∨ g.Before id load) := by
  obtain hfree | ⟨hplace, hread⟩ := h y hy
  · obtain ⟨hescapes, hnot⟩ := hfree hid hop' hdef
    exact ⟨hescapes, fun hplace => absurd hplace (by simp [hnot])⟩
  · refine ⟨hd.not_escapes_of_passes hid hop' hdef hload hop hread ?_, fun hplace' => ?_⟩
    · unfold Operator.isPlace at hplace
      unfold Pool.readsThrough
      split at hplace <;> simp_all
    · exact (hd.nearby id hid op' hop' hplace' y hdef load
        (mem_readers_of_reads hload hop hread)).1

theorem Comes.welcomes_copy (h : g.Comes p op value) (hd : g.Disciplined p)
    (hload : load ∈ g.attached) (hop : g.op load = some op) (result : VarId) :
    g.Welcomes g p load (.copy result value) := by
  refine ⟨rfl, rfl, rfl, fun q hq {id op'} hid hop' hdef => ?_, by rintro ⟨⟩⟩
  obtain rfl : value = .var q := by simpa [mem_reads, Operator.copy, eq_comm] using hq
  obtain ⟨hescapes, hnear⟩ := h.near hd hload hop rfl hid hop' hdef
  exact ⟨fun h => absurd h (by simp [hescapes]), fun h => ⟨hnear h, by rintro ⟨⟩⟩⟩

theorem Comes.keepsPace_copy (h : g.Comes p op value) (result : VarId) (hdefines : op.definesOnly)
    (hsettled : ∀ {address q}, g.PlaceOf address q → g.Before address load → op.derefs p q →
      ∃ r, r ≠ load ∧ g.Settles p q r ∧ g.Before address r ∧ g.Before r load) :
    g.KeepsPace p load op (.copy result value) := by
  refine ⟨nofun, fun {address q} ha hq => ?_, fun ha hbefore hderefs => .inr (.inl ?_)⟩
  · obtain rfl : value = .var q := by simpa [mem_reads, Operator.copy, eq_comm] using hq
    obtain hfree | ⟨-, hread⟩ := h q rfl
    · exact (hfree.not_placeOf ha).elim
    · exact .inl hread
  · obtain hderefs | hstore := hderefs
    · exact hsettled ha hbefore hderefs
    · simp [Operator.isStore_of_definesOnly hdefines] at hstore

/-- What an operator has to be for its result to be forwarded: the only one to define it, with a
value that an operand has at that moment. -/
structure Forwards (g : Graph) (p : Pool) (faults : Bool) (load : OpId) (op : Operator)
    (result : VarId) (value : Expr) (I : List OpId → List OpId → Frame → Prop) : Prop where
  found : g.op load = some op
  defines : op.definesOnly
  alone : g.definers result = [load]
  live : g.LiveExpr value
  type : g.typeOf value = g.typeOf (.var result)
  comes : g.Comes p op value
  plain : ∀ {id op'}, id ∈ g.attached → g.op id = some op' → result ∈ op'.reads →
    op'.kind ≠ .addressOf → op'.escapes p g = false
  settled : faults → ∀ {address q}, g.PlaceOf address q → g.Before address load →
    op.derefs p q → ∃ r, r ≠ load ∧ g.Settles p q r ∧ g.Before address r ∧ g.Before r load
  invariant : g.RunInvariant p I
  same : ∀ {pre rest s a}, g.At pre (load :: rest) → g.Sane p s → I pre (load :: rest) s →
    op.Safe p g s → op.action p g s = .ok a → ∃ w, a = op.into w ∧ s.eval value = some w
  fault : ∀ {pre rest s ending}, faults → g.At pre (load :: rest) → g.Sane p s →
    I pre (load :: rest) s → op.Safe p g s → ¬op.Faults p g s ending

/-- Every reader of the result comes later in the block, and nothing writes the value until then. -/
def SeenLater (g : Graph) (load : OpId) (result : VarId) (value : Expr) : Prop :=
  ∀ {id op}, id ∈ g.attached → g.op id = some op → result ∈ op.reads →
    g.Before load id ∧ op.kind ≠ .addressOf ∧
      ∀ {y}, value = .var y → ∀ {w}, w ∈ g.definers y → g.Before load w → ¬g.Before w id

theorem seenLater_of_seenByReaders {c : Chains} {result : VarId} (hg : g.Linked) (hc : Tracks c g)
    (h : g.seenByReaders c load result value = .ok true) : g.SeenLater load result value := by
  intro id op hid hop hread
  obtain ⟨hbefore, hkind, hbetween⟩ :=
    seenByReaders_spec hg hc h (mem_readers_of_reads hid hop hread)
  exact ⟨hbefore, hkind hop, hbetween⟩

namespace Forwards

variable {c : Chains} {result : VarId} (h : g.Forwards p faults load op result value I)
include h

theorem attached : load ∈ g.attached :=
  (mem_definers.mp (h.alone ▸ List.mem_singleton_self load)).1

theorem results (hg : g.WellShaped) : op.results = [result] :=
  (results_eq_singleton (hg.fits h.attached h.found)
    (mem_results_of_mem_definers (h.alone ▸ List.mem_singleton_self load) h.found)).1

theorem into_eq (hg : g.WellShaped) (w : Value) : op.into w = some (.var result, w) := by
  simp [Operator.into, Operator.result?, h.results hg]

theorem copied {policy : Policy} (hg : g.Tame p faults)
    (hcopy : Edit.substitute load (.copy result value) policy g = .ok id g') :
    g.Refines g' p faults := by
  have hshaped := hg.shaped.toWellShaped
  have hresults := h.results hshaped
  refine hg.substituted hcopy h.found (isControl_of_definesOnly h.defines) ?_
    (h.comes.welcomes_copy hg.disciplined h.attached h.found result)
    (fun hf => h.comes.keepsPace_copy result h.defines (h.settled hf)) h.invariant ?_ h.fault
  · exact sound_copy (writable_of_fits (hshaped.fits h.attached h.found) (by simp [hresults])) h.live
  · intro pre rest s a hat hs hI hsafe ha
    obtain ⟨w, rfl, hw⟩ := h.same hat hs hI hsafe ha
    rw [h.into_eq hshaped]
    exact ⟨nofun, Operator.action_copy result hw⟩

theorem not_takesAddress (haddress : ∀ {id op'}, id ∈ g.attached → g.op id = some op' →
      result ∈ op'.reads → op'.kind ≠ .addressOf) {op' : Operator} (hid : id ∈ g.attached)
    (hop' : g.op id = some op') : ¬op'.TakesAddress p g result := by
  rintro ⟨hhead, htakes⟩
  have hread : result ∈ op'.reads := mem_reads.mpr (List.mem_of_mem_head? hhead)
  obtain hkind | ⟨⟨f, hkind⟩, hscalar⟩ := htakes
  · exact haddress hid hop' hread hkind
  · have hescapes := h.plain hid hop' hread (haddress hid hop' hread)
    simp [Operator.escapes, hkind, hhead, isScalarExpr_iff_kindOf.mpr hscalar, Expr.isConst]
      at hescapes

variable {g₁ : Graph} {ids : List OpId}

theorem disciplined_rewired (hd : g.Disciplined p) (hg : g.Linked)
    (hseen : g.SeenLater load result value) (hrewired : g.Rewired g₁ ids result value)
    (hop₁ : ∀ id ∈ g.attached, g₁.op id = (g.op id).map (·.substitute result value)) :
    g₁.Disciplined p := by
  refine hd.rewired hrewired hop₁ h.type (fun hid hop' hread => ?_) fun {y} hy {id op'} hid hop' hdef => ?_
  · have hkind := (hseen hid hop' hread).2.1
    exact ⟨hkind, h.plain hid hop' hread hkind⟩
  · obtain ⟨hescapes, hnear⟩ := h.comes.near hd h.attached h.found hy hid hop' hdef
    refine ⟨hescapes, fun hplace {user} huser => (hnear hplace).imp_right fun hb => ?_⟩
    obtain ⟨huserAtt, userOp, huserOp, hread⟩ := mem_readers.mp huser
    exact hb.trans hg (hseen huserAtt huserOp (List.contains_iff_mem.mp hread)).1

theorem prompt_rewired (hp : g.Prompt p) (hg : g.WellShaped) (hne : value ≠ .var result)
    (hseen : g.SeenLater load result value) (hrewired : g.Rewired g₁ ids result value)
    (hop₁ : ∀ id ∈ g.attached, g₁.op id = (g.op id).map (·.substitute result value)) :
    g₁.Prompt p := by
  have hresults := h.results hg
  refine hp.rewired hg.linked hrewired hop₁ h.type hne
    (fun hid hop' hread => (hseen hid hop' hread).2.1) fun {y address} hy haddress => ?_
  obtain hfree | ⟨hplace, hread⟩ := h.comes y hy
  · exact (hfree.not_placeOf haddress).elim
  obtain ⟨-, addressOp, haddressOp, -, hdef⟩ := placeOf_iff.mp haddress
  refine ⟨load, ?_, ?_, mem_readers_of_reads h.attached h.found hread, fun {user} huser => ?_⟩
  · rintro rfl
    obtain rfl := Option.some.inj (h.found.symm.trans haddressOp)
    rw [hresults, List.mem_singleton] at hdef
    exact hne (hdef ▸ hy)
  · exact placeOf_iff.mpr ⟨h.attached, op, h.found, hplace, by simp [hresults]⟩
  · obtain ⟨huserAtt, userOp, huserOp, hread⟩ := mem_readers.mp huser
    obtain ⟨hb, -, hbetween⟩ := hseen huserAtt huserOp (List.contains_iff_mem.mp hread)
    exact ⟨hb, hbetween hy haddress.mem_definers⟩

theorem keepsPace_nop (hf : faults) (hself : result ∉ op.reads)
    (hrewired : g.Rewired g₁ ids result value)
    (hop₁ : ∀ id ∈ g.attached, g₁.op id = (g.op id).map (·.substitute result value)) :
    g₁.KeepsPace p load op .nop := by
  have hbefore : ∀ {a b}, g₁.Before a b ↔ g.Before a b := before_of_blocks_eq hrewired.blocks
  refine ⟨by rintro ⟨⟩, fun _ hq => absurd hq (by rintro ⟨⟩), fun {address q} haddress hb hderefs => .inr (.inl ?_)⟩
  have hderefs : op.derefs p q :=
    hderefs.resolve_right (by simp [Operator.isStore_of_definesOnly h.defines])
  have hqr : q ≠ result := by
    rintro rfl
    exact hself (Operator.mem_reads_of_derefs hderefs)
  have haddress := hrewired.placeOf hop₁ haddress
  obtain ⟨r, hr, hsettles, har, hrl⟩ := h.settled hf haddress (hbefore.mp hb) hderefs
  exact ⟨r, hr, hrewired.settles hop₁ (Operator.derefs_substitute hqr) hsettles, hbefore.mpr har,
    hbefore.mpr hrl⟩

theorem preserves_redirected {n : OpId} (hg : g.WellShaped) (hne : value ≠ .var result)
    (hquiet : ∀ y, value = .var y → g.Quiet p y) (hseen : g.SeenLater load result value)
    (hrewired : g.Rewired g₁ ids result value)
    (hop₁ : ∀ id ∈ g.attached, g₁.op id = (g.op id).map (·.substitute result value))
    (hs : g₁.Spliced g' load [n]) (hn : (g'.op n).map (·.code) = some Operator.nop.code) :
    g.Preserves g' p faults := by
  have htakes : ∀ {id op'}, id ∈ g.attached → g.op id = some op' → ¬op'.TakesAddress p g result :=
    h.not_takesAddress fun hid hop' hread => (hseen hid hop' hread).2.1
  have hvar : ∀ y, value = .var y → y.index < g.vars.size ∧ y ≠ result := by
    rintro y rfl
    obtain ⟨info, hinfo, -⟩ := h.live y rfl
    exact ⟨var_eq_some_lt hinfo, fun hy => hne (hy ▸ rfl)⟩
  -- From the operator to each reader, the value and the result are the same.
  have hinvariant := runInvariant_same hg.linked h.invariant h.alone
    (quiet_of_not_takesAddress htakes) (fun y hy => ⟨hquiet y hy, (hvar y hy).2⟩)
    fun {pre rest op' s a} hat hsane hI hop' hsafe ha => by
      obtain rfl := Option.some.inj (h.found.symm.trans hop')
      obtain ⟨w, rfl, hw⟩ := h.same hat hsane hI hsafe ha
      exact ⟨w, h.into_eq hg w, hw⟩
  refine preserves_of_forwarded hg hrewired hop₁ hs hn hinvariant hvar h.type h.found h.defines
    (fun x hx => by simpa [h.results hg] using hx) htakes ?_
    fun hf hat hsane hI => h.fault hf hat hsane hI.1
  intro pre id rest op' s hat hsane hI hop' hread
  obtain ⟨hbefore, -, hbetween⟩ := hseen (mem_attached_of_at hat) hop' hread
  obtain ⟨before, after, rfl⟩ := List.mem_iff_append.mp ((hat.mem_pre_iff hg.linked).mpr hbefore)
  exact hI.2 rfl fun d hd y hy hdef => hbetween hy hdef (hat.before_of_mem hd)
    ((hat.mem_pre_iff hg.linked).mp (by simp [hd]))

/-- The readers of the result read the value instead, and a no-op stays. -/
theorem redirected {n : Nat} {left : Option OpId} (hg : g.Tame p faults) (hc : Tracks c g)
    (hne : value ≠ .var result) (hquiet : ∀ y, value = .var y → g.Quiet p y)
    (hseen : g.SeenLater load result value)
    (hredirect : Edit.redirectAll c result value g = .ok n g₁)
    (hremove : Edit.remove load .keep g₁ = .ok left g') : g.Refines g' p faults := by
  have hlinked := hg.shaped.linked
  obtain ⟨hrewired, hop₁⟩ := Edit.redirectAll_spec hlinked hc hredirect
  have hshaped₁ := hg.shaped.rewired hrewired h.live
  obtain ⟨⟨hs, hnop⟩, -⟩ := Edit.remove_keep_spec hshaped₁.linked hremove
  have hnop : (g'.op ⟨g₁.ops.size⟩).map (·.code) = some Operator.nop.code := hnop
  have hshaped' := Edit.shaped_remove hshaped₁ hremove
  have hfresh := notMem_attached_size hshaped₁.linked
  have hself : result ∉ op.reads := fun hread =>
    Before.irrefl hlinked (hseen h.attached h.found hread).1
  have hfound : g₁.op load = some op := by
    rw [hop₁ load h.attached, h.found, Option.map_some,
      substitute_of_not_readsVar value (by simpa [Operator.readsVar] using hself)]
  refine ⟨⟨hshaped', ?_, fun hf => ?_⟩, ?_⟩
  · have hd := h.disciplined_rewired hg.disciplined hlinked hseen hrewired hop₁
    refine hd.spliced hshaped₁.linked hs (fun m hm _ => ?_) fun m hm _ => ?_
    · rwa [List.mem_singleton.mp hm]
    · rw [List.mem_singleton.mp hm]
      exact ⟨.nop, hnop, rfl, rfl, rfl, by rintro _ ⟨⟩, by rintro ⟨⟩⟩
  · have hp := h.prompt_rewired (hg.prompt hf) hg.shaped.toWellShaped hne hseen hrewired hop₁
    exact hp.spliced hshaped₁.linked hshaped'.linked hs hfresh hfound hnop rfl
      (h.keepsPace_nop hf hself hrewired hop₁)
  · exact h.preserves_redirected hg.shaped.toWellShaped hne hquiet hseen hrewired hop₁ hs hnop

theorem refines {stable b : Bool} (hg : g.Tame p faults) (hc : Tracks c g)
    (hquiet : stable → ∀ y, value = .var y → g.Quiet p y)
    (hforward : Edit.forward c load result value stable g = .ok b g') : g.Refines g' p faults := by
  obtain ⟨-, hstable, hne, hseen, n, g₁, left, hredirect, hremove⟩ | ⟨-, new, hcopy⟩ :=
    Edit.forward_spec hforward
  · refine h.redirected hg hc (fun he => hne (he ▸ rfl)) (hquiet hstable)
      (seenLater_of_seenByReaders hg.shaped.linked hc hseen) hredirect hremove
  · exact h.copied hg hcopy

end Forwards

end Graph
end ScalarLowering
