import ScalarLowering.Proofs.Atomicity
import ScalarLowering.Proofs.Idempotence
import ScalarLowering.Proofs.Lockstep
import ScalarLowering.Proofs.Questions
import ScalarLowering.Proofs.Verification

/-! Forwarding a copy. Where no pointer can reach the copy or what it is made of, every reader that
comes after it in its block, with no definition of the original between, sees the original as it was
copied. Forwarding therefore keeps every run that returns, whichever form it takes. -/

namespace ScalarLowering

/-- The outcomes are the same apart from what one variable holds. -/
structure Outcome.SameBut (o o' : Outcome) (v : VarId) : Prop where
  returned : o'.returned = o.returned
  heap : o'.heap = o.heap
  steps : o'.steps = o.steps
  var : ∀ x ≠ v, o'.read (.var x) = o.read (.var x)

namespace Graph

variable {g g₁ g' : Graph} {p : Pool} {c : Chains} {id load n : OpId} {op : Operator} {v x : VarId}
  {e : Expr} {pre rest ids : List OpId} {s s' t : Frame} {a : Option (Location × Value)}

/-- No operator takes the address of the variable or of a field of what it holds. -/
def Private (g : Graph) (v : VarId) : Prop :=
  ∀ id ∈ g.attached, ∀ op ∈ g.op id, op.kind = .addressOf ∨ op.kind.isFieldAddress → v ∉ op.reads

instance (g : Graph) (v : VarId) : Decidable (g.Private v) :=
  inferInstanceAs (Decidable (∀ id ∈ g.attached, ∀ op ∈ g.op id,
    op.kind = .addressOf ∨ op.kind.isFieldAddress → v ∉ op.reads))

theorem Private.head_ne (hv : g.Private v) (hid : id ∈ g.attached) (hop : g.op id = some op)
    (hkind : op.kind = .addressOf ∨ ∃ f, op.kind = .loadFieldAddress f) :
    op.args.head? ≠ some (.var v) := by
  intro hhead
  refine hv id hid op hop (hkind.imp_right ?_)
    (Operator.mem_reads_of_mem (List.mem_of_mem_head? hhead))
  rintro ⟨f, hkind⟩
  simp [hkind, OpKind.isFieldAddress]

theorem Private.step (hv : g.Private v) (hs : s.Unpointed v) (hid : id ∈ g.attached)
    (hop : g.op id = some op) (ha : op.action p g s = .ok a) (ht : s.perform a = some t) :
    t.Unpointed v :=
  hs.step (fun hkind => hv.head_ne hid hop (.inl hkind))
    (fun f _ _ h => hv.head_ne hid hop (.inr ⟨f, h.kind⟩) h.head) ha ht

theorem eval_of_unpointed (he : ∀ y, e = .var y → s.Unpointed y ∧ id ∉ g.definers y)
    (hid : id ∈ g.attached) (hop : g.op id = some op) (ha : op.action p g s = .ok a)
    (ht : s.perform a = some t) : t.eval e = s.eval e := by
  cases e with
  | const k => rfl
  | var y =>
    obtain ⟨hy, hne⟩ := he y rfl
    exact hy.read_var ha ht fun h => hne (mem_definers_of_result? hid hop h)

/-- A copy and its original stay the same until the original is defined anew. -/
theorem HoldsSince.step (hg : g.Linked) (hdef : g.definers v = [load]) (hsince : g.HoldsSince load v e pre s)
    (hv : s.Unpointed v) (he : ∀ y, e = .var y → s.Unpointed y ∧ y ≠ v)
    (hload : id = load → ∃ w, a = some (.var v, w) ∧ s.eval e = some w)
    (hat : g.At pre (id :: rest)) (hop : g.op id = some op) (ha : op.action p g s = .ok a)
    (ht : s.perform a = some t) : g.HoldsSince load v e (pre ++ [id]) t := by
  have hid := mem_attached_of_at hat
  intro before after
  refine hsince.next hg hat (fun heq => ?_) fun hne hafter => ?_
  · obtain ⟨w, rfl, hw⟩ := hload heq
    exact eval_of_copied ht hw fun y hy => (he y hy).2
  · refine ⟨eval_of_unpointed (fun y hy => ⟨(he y hy).1, hafter y hy⟩) hid hop ha ht,
      eval_of_unpointed ?_ hid hop ha ht⟩
    rintro y ⟨⟩
    exact ⟨hv, by simpa [hdef] using hne⟩

/-- All readers come after the copy in its block, with no definition of the original between. -/
structure Seen (g : Graph) (load : OpId) (v : VarId) (e : Expr) : Prop where
  before : ∀ {reader}, reader ∈ g.readers v → g.Before load reader
  undisturbed : ∀ {reader y d}, reader ∈ g.readers v → e = .var y → d ∈ g.definers y →
    g.Before load d → ¬g.Before d reader

theorem seen_of_seenByReaders (hg : g.Linked) (hc : Tracks c g)
    (h : g.seenByReaders c load v e = .ok true) : g.Seen load v e where
  before := fun hreader => (seenByReaders_spec hg hc h hreader).1
  undisturbed := fun hreader hy hd => (seenByReaders_spec hg hc h hreader).2.2 hy hd

theorem Seen.eval_eq (h : g.Seen load v e) (hg : g.Linked) (hsince : g.HoldsSince load v e pre s)
    (hat : g.At pre (id :: rest)) (hreader : id ∈ g.readers v) : s.eval e = s.eval (.var v) := by
  obtain ⟨before, after, rfl⟩ := List.append_of_mem ((hat.mem_pre_iff hg).mpr (h.before hreader))
  refine hsince rfl fun d hd y hy hdef => ?_
  exact h.undisturbed hreader hy hdef (hat.before_of_mem hd) ((hat.mem_pre_iff hg).mp (by simp [hd]))

/-- What the runs keep up to: the frames differ in the copy only, nothing points to the copy or its
original, and the two are the same since the copy was made. -/
structure Forwarded (g : Graph) (load : OpId) (v : VarId) (e : Expr) (pre : List OpId) (s s' : Frame) :
    Prop where
  agree : Frame.Agree (· = v) s s'
  size : s'.vars.size = s.vars.size
  copy : s.Unpointed v
  original : ∀ y, e = .var y → s.Unpointed y
  since : g.HoldsSince load v e pre s

theorem Forwarded.read_var (h : g.Forwarded load v e pre s s') (hx : x ≠ v) :
    s'.read (.var x) = s.read (.var x) := by
  by_cases hlt : x.index < s.vars.size
  · exact h.agree.var hx hlt
  · have hnone : ∀ {u : Frame}, u.vars.size = s.vars.size → u.read (.var x) = none := fun hu =>
      Array.getElem?_eq_none (by omega)
    rw [hnone h.size, hnone rfl]

theorem Forwarded.read (h : g.Forwarded load v e pre s s') {l : Location} (hl : l ≠ .var v) :
    s'.read l = s.read l := by
  cases l with
  | var x => exact h.read_var fun hx => hl (by rw [hx])
  | field o f => simp only [Frame.read, h.agree.heap]
  | static f => simp only [Frame.read, h.agree.heap]
  | element a i => simp only [Frame.read, h.agree.heap]

/-- With the original for the copy, an operator does what it did. -/
theorem Forwarded.mirrors (h : g.Forwarded load v e pre s s') (hg : g.Linked) (hvars : g.SameVars g')
    (hseen : g.Seen load v e) (he : e ≠ .var v) (htype : g.typeOf e = g.typeOf (.var v))
    (hv : g.Private v) (hat : g.At pre (id :: rest)) (hop : g.op id = some op) :
    op.Mirrors (op.substitute v e) g g' s s' := by
  have hid := mem_attached_of_at hat
  have heval : ∀ {a}, a ≠ .var v → s'.eval a = s.eval a := by
    intro a ha
    cases a with
    | const k => rfl
    | var x => exact h.read_var fun hx => ha (by rw [hx])
  refine ⟨rfl, rfl, rfl, ⟨_, rfl, fun a ha => ?_⟩, h.agree.heap, fun a _ l hl => h.read ?_,
    fun hhead => ?_⟩
  · split
    · rename_i hav
      subst hav
      have hreader := mem_readers_of_reads hid hop (Operator.mem_reads_of_mem ha)
      exact ⟨(heval he).trans (hseen.eval_eq hg h.since hat hreader), (hvars.typeOf e).trans htype⟩
    · rename_i hav
      exact ⟨heval hav, hvars.typeOf a⟩
  · rintro rfl
    obtain ⟨y, -, hy⟩ := eval_eq_pointer hl
    exact h.copy _ hy
  · have hne := hv.head_ne hid hop (hhead.imp_right And.left)
    simp only [Operator.substitute, List.head?_map]
    cases ha : op.args.head? with
    | none => rfl
    | some a => rw [Option.map_some, if_neg fun hav => hne (by rw [ha, hav])]

/-- A copy whose original is declared alike, and which is the only definition of its result. -/
structure Copies (g : Graph) (load : OpId) (v : VarId) (e : Expr) : Prop where
  attached : load ∈ g.attached
  op : ∃ op, g.op load = some op ∧ op.kind = .copy ∧ op.args = [e] ∧ op.results = [v]
  definers : g.definers v = [load]
  type : g.typeOf e = g.typeOf (.var v)

theorem Copies.action (h : g.Copies load v e) (hop : g.op load = some op)
    (ha : op.action p g s = .ok a) : ∃ w, a = some (.var v, w) ∧ s.eval e = some w := by
  obtain ⟨op', hop', hkind, hargs, hresults⟩ := h.op
  obtain rfl := Option.some.inj (hop.symm.trans hop')
  simp only [Operator.action, hkind, Except.bind_eq_ok, Except.pure_eq_ok, Operator.arg_eq_ok,
    hargs] at ha
  obtain ⟨w, ⟨e', he, hw⟩, rfl⟩ := ha
  obtain rfl : e = e' := by simpa using he
  exact ⟨w, by simp [Operator.into, Operator.result?, hresults], hw⟩

theorem Copies.isControl (h : g.Copies load v e) (hop : g.op load = some op) :
    op.isControl = false := by
  obtain ⟨op', hop', hkind, -⟩ := h.op
  obtain rfl := Option.some.inj (hop.symm.trans hop')
  simp [Operator.isControl, hkind, OpKind.isControl]

/-- The facts about one frame of the run hold after a step. -/
theorem Forwarded.step {u' : Frame} (h : g.Forwarded load v e pre s s') (hg : g.Linked)
    (hcopies : g.Copies load v e) (he : e ≠ .var v) (hv : g.Private v)
    (hy : ∀ y, e = .var y → g.Private y) (hat : g.At pre (id :: rest)) (hop : g.op id = some op)
    (ha : op.action p g s = .ok a) (ht : s.perform a = some t) (hagree : Frame.Agree (· = v) t u')
    (hsize : u'.vars.size = s'.vars.size) : g.Forwarded load v e (pre ++ [id]) t u' where
  agree := hagree
  size := by rw [hsize, h.size, Frame.size_perform ht]
  copy := hv.step h.copy (mem_attached_of_at hat) hop ha ht
  original := fun y hey => (hy y hey).step (h.original y hey) (mem_attached_of_at hat) hop ha ht
  since := by
    refine HoldsSince.step hg hcopies.definers h.since h.copy
      (fun y hey => ⟨h.original y hey, ?_⟩) ?_ hat hop ha ht
    · rintro rfl
      exact he hey
    · rintro rfl
      exact hcopies.action hop ha

/-- With the original put for the copy in all operators, and a no-op for the copy, a graph takes the
same steps. -/
theorem keepsUp_of_forwarded (hg : g.Linked) (hcopies : g.Copies load v e) (hseen : g.Seen load v e)
    (he : e ≠ .var v) (hv : g.Private v) (hy : ∀ y, e = .var y → g.Private y)
    (hr : g.Rewired g₁ ids v e)
    (hall : ∀ id ∈ g.attached, g₁.op id = (g.op id).map (·.substitute v e))
    (hs : g₁.Spliced g' load [n]) (hnop : (g'.op n).map (·.code) = some Operator.nop.code) :
    g.KeepsUp g' p (fun _ => True) (splice load [n]) fun pre _ s s' => g.Forwarded load v e pre s s' := by
  have hvars : g.SameVars g' := sameVars_of_vars_eq (hs.vars.trans hr.vars)
  have hblock : ∀ b, g₁.block b = g.block b := fun b => by simp [Graph.block, hr.blocks]
  refine ⟨hvars.arguments, hs.entry.trans hr.entry, fun hb => hs.block_eq_some ((hblock _).trans hb),
    fun {block args heap} _ hclean => ?_, ?_⟩
  · rw [hvars.initial]
    exact ⟨.refl _, rfl, fun _ => read_initial_ne_pointer hclean,
      fun _ _ _ => read_initial_ne_pointer hclean, by simp [HoldsSince]⟩
  rintro pre id rest op s s' control t pre' rest' hat h hop - hstep hresumes
  have hid := mem_attached_of_at hat
  obtain ⟨hcontrol, a, ha, ht⟩ := Operator.step_eq_ok.mp hstep
  refine .inr ?_
  by_cases hload : id = load
  · -- the copy is written in the first run only
    subst hload
    obtain ⟨w, rfl, -⟩ := hcopies.action hop ha
    obtain ⟨nop, hop', hcode⟩ := Option.map_eq_some_iff.mp hnop
    rw [Operator.control_of_not_isControl (hcopies.isControl hop)] at hcontrol
    obtain rfl := Except.ok.inj hcontrol
    cases hresumes
    refine ⟨n, nop, s', splice_self _ _, hop', ?_, ?_⟩
    · rw [step_of_code hcode]
      rfl
    · exact h.step hg hcopies he hv hy hat hop ha ht (h.agree.write_left rfl ht) rfl
  · have hmirrors := h.mirrors hg hvars hseen he hcopies.type hv hat hop
    obtain ⟨t', ht', hagree⟩ := h.agree.perform ht
    have hforwards := h.step hg hcopies he hv hy hat hop ha ht hagree (Frame.size_perform ht')
    have hop' : g'.op id = some (op.substitute v e) := by
      rw [hs.op (.inl hload) (hr.size ▸ hg.lt_of_mem hid), hall id hid, hop, Option.map_some]
    refine ⟨id, _, t', splice_of_ne _ hload, hop', Operator.step_eq_ok.mpr
      ⟨hmirrors.control.trans hcontrol, a, hmirrors.action.trans ha, ht'⟩, ?_⟩
    cases hresumes with
    | next => exact hforwards
    | done => exact hforwards
    | goto _ => exact { hforwards with since := by simp [HoldsSince] }

theorem unmentioned_of_forwarded (hg : g.Linked) (hcopies : g.Copies load v e) (he : e ≠ .var v)
    (hr : g.Rewired g₁ ids v e)
    (hall : ∀ id ∈ g.attached, g₁.op id = (g.op id).map (·.substitute v e))
    (hs : g₁.Spliced g' load [n]) (hnop : (g'.op n).map (·.code) = some Operator.nop.code) :
    g'.readers v = [] ∧ g'.definers v = [] := by
  have hcases : ∀ {id op}, id ∈ g'.attached → g'.op id = some op → op.args = [] ∧ op.results = [] ∨
      id ≠ load ∧ id ∈ g.attached ∧ ∃ op₀, g.op id = some op₀ ∧ op = op₀.substitute v e := by
    intro id op hid hop
    obtain hid | ⟨hne, hid⟩ := hs.mem_attached.mp hid
    · obtain rfl := List.mem_singleton.mp hid
      rw [hop] at hnop
      obtain ⟨-, hargs, hresults, -⟩ := Operator.code_eq.mp (Option.some.inj hnop)
      exact .inl ⟨hargs, hresults⟩
    · rw [hr.attached_eq] at hid
      rw [hs.op (.inl hne) (hr.size ▸ hg.lt_of_mem hid), hall id hid] at hop
      obtain ⟨op₀, hop₀, rfl⟩ := Option.map_eq_some_iff.mp hop
      exact .inr ⟨hne, hid, op₀, hop₀, rfl⟩
  refine ⟨List.eq_nil_iff_forall_not_mem.mpr fun id hmem => ?_,
    List.eq_nil_iff_forall_not_mem.mpr fun id hmem => ?_⟩
  · obtain ⟨hid, op, hop, hreads⟩ := mem_readers.mp hmem
    have hreads : .var v ∈ op.args := mem_reads.mp (by simpa [Operator.readsVar] using hreads)
    obtain ⟨hargs, -⟩ | ⟨-, -, op₀, -, rfl⟩ := hcases hid hop
    · simp [hargs] at hreads
    · exact notMem_args_substitute he hreads
  · obtain ⟨hid, op, hop, hdefines⟩ := mem_definers.mp hmem
    obtain ⟨-, hresults⟩ | ⟨hne, hid, op₀, hop₀, rfl⟩ := hcases hid hop
    · simp [Operator.definesVar, hresults] at hdefines
    · have hmem : id ∈ g.definers v := mem_definers.mpr ⟨hid, op₀, hop₀, hdefines⟩
      exact hne (by simpa [hcopies.definers] using hmem)

theorem Copies.step_copy (h : g.Copies load v e) (hop : g.op load = some op) :
    (Operator.copy v e).step p g s = op.step p g s := by
  obtain ⟨op', hop', hkind, hargs, hresults⟩ := h.op
  obtain rfl := Option.some.inj (hop.symm.trans hop')
  have haction : (Operator.copy v e).action p g s = op.action p g s := by
    simp only [Operator.action, hkind, Operator.copy, Operator.into, Operator.result?, hresults,
      Frame.arg, hargs]
  have hcontrol : (Operator.copy v e).control s = op.control s := by
    simp only [Operator.control, hkind, Operator.copy]
  simp only [Operator.step, Operator.effect_eq_action, haction, hcontrol]

/-- After any changes a snapshot still answers for the variables that the code mentions. -/
theorem answerable_changed {info : Variable} (hg : g.Built) (hs : Edit.snapshot g = .ok c g₁)
    (changes : List Change) (hv : (g₁.changed changes).var v = some info)
    (hlive : info.dropped = false) (hmem : v ∈ (g₁.changed changes).mentioned) :
    (g₁.changed changes).Answerable c v := by
  obtain ⟨hexact, hg₁, -⟩ := Edit.snapshot_spec hg.coherent hs
  obtain ⟨hlinked, hext⟩ := grows_changed g₁ changes hg₁.linked
  by_cases hold : v.index < g₁.vars.size
  · have hv₁ : g₁.var v = some info := hext.var hold ▸ hv
    exact hext.answerable (hexact.answerable hg₁.linked ⟨info, hv₁, hlive⟩)
  · exact answerable_of_isTouched (hext.isTouched_of_mentioned hg₁.linked hlinked
      (hg.mentionsKnown_of_snapshot hs) (Nat.le_of_not_lt hold) hmem)

theorem exists_bind {α β : Type} {x : Except Error α} {f : α → Except Error β}
    (hx : ∃ a, x = .ok a) (hf : ∀ a, x = .ok a → ∃ b, f a = .ok b) : ∃ b, (x >>= f) = .ok b := by
  obtain ⟨a, ha⟩ := hx
  obtain ⟨b, hb⟩ := hf a ha
  exact ⟨b, Except.bind_eq_ok.mpr ⟨a, ha, hb⟩⟩

theorem exists_allM {α : Type} {test : α → Except Error Bool} {l : List α}
    (h : ∀ a ∈ l, ∃ b, test a = .ok b) : ∃ b, l.allM test = .ok b := by
  induction l with
  | nil => exact ⟨true, rfl⟩
  | cons a l ih =>
    refine exists_bind (h a List.mem_cons_self) fun b _ => ?_
    cases b with
    | false => exact ⟨false, rfl⟩
    | true => exact ih fun a ha => h a (List.mem_cons_of_mem _ ha)

theorem exists_allM_attachedUses {test : OpId → Operator → Except Error Bool} (hg : g.Linked)
    (hv : g.Answerable c v) (h : ∀ reader op, ∃ b, test reader op = .ok b) :
    ∃ b, (do (← g.attachedUses c v).allM fun reader => do test reader (← g.op reader)) = .ok b := by
  refine exists_bind hv.uses fun users husers => exists_allM fun reader hreader => ?_
  obtain ⟨op, -, hop, -⟩ :=
    hg.exists_op_of_mem (Edit.attached_of_attachedUses hg husers reader hreader)
  exact exists_bind ⟨op, Error.lift_eq_ok.mpr hop⟩ fun op _ => h reader op

theorem exists_seenByReaders (hg : g.Linked) (hid : id ∈ g.attached) (hv : g.Answerable c v)
    (he : ∀ y, e = .var y → g.Answerable c y) : ∃ b, g.seenByReaders c id v e = .ok b := by
  obtain ⟨op, b, hop, hb⟩ := hg.exists_op_of_mem hid
  obtain ⟨block, hblock⟩ := hg.known (blockOf_eq_some.mpr ⟨op, hop, hb⟩)
  unfold seenByReaders
  simp only [Except.bind_eq_ok, Error.lift_eq_ok, hop, Option.some.injEq, exists_eq_left', hb, hblock]
  cases block.ops.idxOf? id with
  | none => exact ⟨_, rfl⟩
  | some start =>
    cases e with
    | const k =>
      refine exists_bind ⟨[], rfl⟩ fun defs _ => exists_allM_attachedUses hg hv fun reader op => ?_
      repeat' split
      all_goals exact ⟨_, rfl⟩
    | var y =>
      refine exists_bind (he y rfl).defs fun defs _ =>
        exists_allM_attachedUses hg hv fun reader op => ?_
      repeat' split
      all_goals exact ⟨_, rfl⟩

end Graph

namespace Edit

open ScalarLowering.Graph

variable {g g' : Graph} {p : Pool} {c : Chains} {id : OpId} {op : Operator} {result : VarId}
  {value : Expr} {redirects : Bool}

theorem exists_forward (hg : g.Linked) (hid : id ∈ g.attached) (hop : g.op id = some op)
    (hcontrol : op.isControl = false) (hresult : g.Answerable c result)
    (hvalue : ∀ y, value = .var y → g.Answerable c y) (stable : Bool) :
    ∃ redirects g', forward c id result value stable g = .ok redirects g' := by
  have hrest : ∀ redirects : Bool, ∃ g', (if redirects then do
      let _ ← redirectAll c result value
      let _ ← remove id .keep
      return redirects
    else do
      let _ ← substitute id (.copy result value) .keep
      return redirects : Edit Bool) g = .ok redirects g' := by
    intro redirects
    cases redirects with
    | true =>
      obtain ⟨n, g₁, hredirect⟩ := (atomic_redirectAll hg c result value).applies.mp hresult.uses
      have hgrows := (grows_redirectAll c result value).ok hredirect
      have hblocks := ((atomic_redirectAll hg c result value).done hredirect).blocks
      have hid₁ : id ∈ g₁.attached := by simpa only [attached, hblocks] using hid
      obtain ⟨op₁, hop₁, hkind⟩ := hgrows.exists_op hg hop
      have hcontrol₁ : op₁.isControl = false := by rwa [Operator.isControl, hkind]
      obtain ⟨left, g₂, hremove⟩ :=
        (atomic_remove (hgrows hg).1 id .keep).applies.mp ⟨hid₁, op₁, hop₁, hcontrol₁⟩
      exact ⟨g₂, bind_eq_ok.mpr ⟨n, g₁, hredirect, bind_eq_ok.mpr ⟨left, g₂, hremove, rfl⟩⟩⟩
    | false =>
      obtain ⟨new, g₁, hsubstitute⟩ := exists_substitute hg hid (.copy result value) .keep
      exact ⟨g₁, bind_eq_ok.mpr ⟨new, g₁, hsubstitute, rfl⟩⟩
  unfold forward
  dsimp only
  split
  · obtain ⟨redirects, hseen⟩ := exists_seenByReaders hg hid hresult hvalue
    obtain ⟨g', h⟩ := hrest redirects
    exact ⟨redirects, g', query_bind_eq_ok.mpr ⟨redirects, hseen, h⟩⟩
  · obtain ⟨g', h⟩ := hrest false
    exact ⟨false, g', bind_eq_ok.mpr ⟨false, g, rfl, h⟩⟩

/-- By the latest snapshot, however stale, a copy can always be forwarded if it is the only definition
of its result and no address is taken of the result or the original. If it is, nothing mentions the
result any more and a no-op stays; if not, a copy does. Every run that returns does so as before, after as many steps, and leaves
the same heap and the same variables apart from the result. -/
theorem run_forward {g₀ g₁ h : Graph} (hg : g₀.Built) (hs : snapshot g₀ = .ok c g₁)
    (changes : List Change) (hh : h = g₁.changed changes) (hverify : h.verify = .ok ())
    (hmarked : ∀ {b block}, h.block b = some block → block.reachable)
    (hcopies : h.Copies id result value) (hresult : h.Private result)
    (hvalue : ∀ y, value = .var y → h.Private y) :
    ∃ redirects h', forward c id result value true h = .ok redirects h' ∧
      (redirects = true → h'.readers result = [] ∧ h'.definers result = [] ∧
        ∃ new ∈ h'.attached, (h'.op new).map (·.code) = some Operator.nop.code) ∧
      (redirects = false →
        ∃ new ∈ h'.attached, (h'.op new).map (·.code) = some (Operator.copy result value).code) ∧
      ∀ ⦃p args heap fuel o⦄, Clean args heap → h.run p args heap fuel = .ok o →
        ∃ o', h'.run p args heap fuel = .ok o' ∧ o.SameBut o' result := by
  subst hh
  obtain ⟨hexact, hg₁, -⟩ := snapshot_spec hg.coherent hs
  obtain ⟨hlinked, hext⟩ := grows_changed g₁ changes hg₁.linked
  have htracks : Tracks c (g₁.changed changes) := (hexact.tracks hg₁.linked).extends hext hlinked
  obtain ⟨op, hop, -, hargs, hresults⟩ := hcopies.op
  have hanswerable : ∀ {y}, y ∈ op.mentions → (g₁.changed changes).Answerable c y := by
    intro y hy
    obtain ⟨b, block, hb, hid⟩ := mem_attached.mp hcopies.attached
    obtain ⟨-, -, -, hlive, -⟩ :=
      checkOperator_eq_ok.mp (checkOperator_of_verify hverify hb (hmarked hb) hid hop).2
    obtain ⟨info, hinfo, hdropped⟩ := hlive y hy
    exact answerable_changed hg hs changes hinfo hdropped
      (mem_mentioned.mpr ⟨id, hcopies.attached, op, hop, hy⟩)
  have hresultAnswers := hanswerable (y := result) (by simp [Operator.mentions, hresults])
  have hvalueAnswers : ∀ y, value = .var y → (g₁.changed changes).Answerable c y := by
    rintro y rfl
    exact hanswerable (by simp [Operator.mentions, Operator.reads, hargs, Expr.var?])
  obtain ⟨redirects, h', hforward⟩ := exists_forward hlinked hcopies.attached hop
    (hcopies.isControl hop) hresultAnswers hvalueAnswers true
  refine ⟨redirects, h', hforward, ?_⟩
  obtain ⟨rfl, -, hne, hseen, n, g₂, left, hredirect, hremove⟩ | ⟨rfl, new, hsubstitute⟩ :=
    forward_spec hforward
  · have he : value ≠ .var result := by
      rintro rfl
      exact hne rfl
    obtain ⟨hr, hall⟩ := redirectAll_spec hlinked htracks hredirect
    obtain ⟨⟨hspliced, hnop⟩, -⟩ := remove_keep_spec (hr.grows hlinked).1 hremove
    obtain ⟨hreaders, hdefiners⟩ :=
      unmentioned_of_forwarded hlinked hcopies he hr hall hspliced hnop
    have hnew := hspliced.mem_attached.mpr (.inl (List.mem_singleton_self _))
    refine ⟨fun _ => ⟨hreaders, hdefiners, _, hnew, hnop⟩, by simp, ?_⟩
    intro p args heap fuel o hclean hrun
    have hkeeps := keepsUp_of_forwarded (p := p) hlinked hcopies
      (seen_of_seenByReaders hlinked htracks hseen) he hresult hvalue hr hall hspliced hnop
    obtain ⟨o', hrun', hreturned, -, hsteps, ⟨_, _, hend⟩, -⟩ :=
      hkeeps.run hclean (fun _ _ => .intro) hrun
    exact ⟨o', hrun', hreturned, hend.agree.heap, hsteps (splice_singleton_ne_nil _ _),
      fun x hx => hend.read_var hx⟩
  · obtain ⟨hspliced, -, hcode⟩ := substitute_spec hlinked hsubstitute
    have hnew := hspliced.mem_attached.mpr (.inl (List.mem_singleton_self new))
    refine ⟨by simp, fun _ => ⟨new, hnew, hcode⟩, ?_⟩
    intro p args heap fuel o hclean hrun
    have hkeeps := keepsUp_of_replaced (p := p) (I := fun _ => True) hlinked hspliced hop hcode
      (fun _ => .intro) (fun _ _ _ _ _ => .intro)
      (fun _ hstep => (hcopies.step_copy hop).trans hstep)
    exact ⟨o, hkeeps.retraces (splice_singleton_ne_nil _ _) hclean hrun, rfl, rfl, rfl, fun _ _ => rfl⟩

/-- A loop makes a copy of a variable, compares the variable with zero and then makes it zero. -/
def copiedInLoop : Graph := (Graph.empty "f").changed
  [.addVar .local (.ofScalar .i32), .addVar .local (.ofScalar .i32), .addVar .local (.ofScalar .bool),
    .addBlock, .addBlock, .append ⟨0⟩ (.copy ⟨0⟩ (.const (.int (.ofScalar .i32) 3))),
    .append ⟨0⟩ (.jump ⟨1⟩), .append ⟨1⟩ (.copy ⟨1⟩ (.var ⟨0⟩)),
    .append ⟨1⟩ (.compare .eq ⟨2⟩ (.var ⟨0⟩) (.const (.int (.ofScalar .i32) 0))),
    .append ⟨1⟩ (.copy ⟨0⟩ (.const (.int (.ofScalar .i32) 0))),
    .append ⟨1⟩ (.branch (.var ⟨2⟩) ⟨2⟩ ⟨1⟩), .append ⟨2⟩ (.ret (some (.var ⟨0⟩)))]

def copiedInLoopChanges : List Change := [.redirect ⟨3⟩ ⟨0⟩ (.var ⟨1⟩)]

theorem run_forward_copiedInLoop : ∃ c g₁ h' o, snapshot copiedInLoop = .ok c g₁ ∧
    (g₁.changed copiedInLoopChanges).readers ⟨1⟩ = [⟨3⟩] ∧
    forward c ⟨2⟩ ⟨1⟩ (.var ⟨0⟩) true (g₁.changed copiedInLoopChanges) = .ok true h' ∧
    h'.run .new [] .empty 11 = .ok o ∧ o.returned = some (.bits 0) ∧ o.steps = 11 := by
  have h : (snapshot.result? copiedInLoop).bind (fun c => (forward c ⟨2⟩ ⟨1⟩ (.var ⟨0⟩) true).result?
      ((snapshot.after copiedInLoop).changed copiedInLoopChanges)) = some true := by decide +kernel
  obtain ⟨c, hc, hf⟩ := Option.bind_eq_some_iff.mp h
  have hs := eq_ok_of_result? hc
  have hmarked : ∀ block ∈ ((snapshot.after copiedInLoop).changed copiedInLoopChanges).blocks,
    block.reachable := by decide +kernel
  have hanswer : ((snapshot.after copiedInLoop).changed copiedInLoopChanges).answer? .new [] .empty 11 =
      some (some (.bits 0), 11) := by decide +kernel
  obtain ⟨o, hrun, hreturned, hsteps⟩ := exists_run_of_answer? hanswer
  have hcopies : ((snapshot.after copiedInLoop).changed copiedInLoopChanges).Copies ⟨2⟩ ⟨1⟩ (.var ⟨0⟩) :=
    ⟨by decide +kernel, ⟨_, rfl, rfl, rfl, rfl⟩, by decide +kernel, by decide +kernel⟩
  obtain ⟨redirects, h', hforward, -, -, hruns⟩ := run_forward ((Built.empty "f").changed _) hs
    copiedInLoopChanges rfl (by decide +kernel) (fun hb => hmarked _ (Array.mem_of_getElem? hb))
    hcopies (by decide +kernel) (by rintro y ⟨⟩; decide +kernel)
  obtain ⟨rfl, rfl⟩ : redirects = true ∧ h' = _ := by
    simpa [hforward] using eq_ok_of_result? hf
  obtain ⟨o', hrun', hsame⟩ := hruns (clean_of_stored (by decide)) hrun
  exact ⟨c, _, _, o', hs, by decide +kernel, hforward, hrun', hsame.returned.trans hreturned,
    hsame.steps.trans hsteps⟩

end Edit
end ScalarLowering
