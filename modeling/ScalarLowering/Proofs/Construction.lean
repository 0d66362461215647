import ScalarLowering.Proofs.Idempotence
import ScalarLowering.Proofs.Lockstep
import ScalarLowering.Proofs.Wrappers

/-! Constructors and runs. A receiver whose one definition takes the address of a local holds that
address or nothing, as long as nothing can point to the receiver itself. A constructor that is
called on it then writes what the copy put for it writes, so a run that returns does exactly the
same after the constructors are lowered. -/

namespace ScalarLowering

/-- The variable is undefined or points to `l`, and nothing points to the variable. -/
structure Frame.Anchored (s : Frame) (v : VarId) (l : Location) : Prop where
  held : s.read (.var v) = some .undefined ∨ s.read (.var v) = some (.pointer l)
  unpointed : s.Unpointed v

def Operator.receiver? (op : Operator) (p : Pool) : Option VarId :=
  match op.kind with
  | .call m => if (p.method m).any (·.kind ≠ .ofType) then op.args.head?.bind Expr.var? else none
  | _ => none

namespace Graph

variable {g g' : Graph} {p : Pool} {c : Chains} {id : OpId} {op : Operator} {v : VarId}
  {l : Location} {s t : Frame} {args : List Value} {heap : Heap} {fuel : Nat} {o : Outcome}

def Unaddressed (g : Graph) (v : VarId) : Prop :=
  ∀ id ∈ g.attached, ∀ op ∈ g.op id, op.kind = .addressOf → v ∉ op.reads

/-- No operator takes the address of a variable that a method is called on. -/
def ReceiversUnaddressed (g : Graph) (p : Pool) : Prop :=
  ∀ id ∈ g.attached, ∀ op ∈ g.op id, ∀ v ∈ op.receiver? p, g.Unaddressed v

instance (g : Graph) (v : VarId) : Decidable (g.Unaddressed v) :=
  inferInstanceAs (Decidable (∀ id ∈ g.attached, ∀ op ∈ g.op id, op.kind = .addressOf → v ∉ op.reads))

instance (g : Graph) (p : Pool) : Decidable (g.ReceiversUnaddressed p) :=
  inferInstanceAs (Decidable (∀ id ∈ g.attached, ∀ op ∈ g.op id, ∀ v ∈ op.receiver? p, g.Unaddressed v))

theorem anchored_initial {info : Variable} (hv : g.var v = some info)
    (harg : info.isArgument = false) (hclean : Clean args heap) :
    (g.initial args heap).Anchored v l :=
  ⟨.inl (read_initial hv harg), fun _ => read_initial_ne_pointer hclean⟩

/-- A variable stays anchored if nobody takes its address and its definitions write nothing but
the pointer. -/
theorem anchored_step {a : Option (Location × Value)} (hv : g.Unaddressed v)
    (hwrites : ∀ {d source w}, d ∈ g.definers v → g.op d = some source →
      source.action p g s = .ok (some (.var v, w)) → w = .pointer l)
    (hs : s.Anchored v l) (hid : id ∈ g.attached) (hop : g.op id = some op)
    (ha : op.action p g s = .ok a) (ht : s.perform a = some t) : t.Anchored v l := by
  refine ⟨?_, hs.unpointed.step (fun hkind hhead => ?_) (fun f r w hfield => ?_) ha ht⟩
  · by_cases hresult : op.result? = some v
    · rcases a with _ | ⟨l', w⟩
      · obtain rfl := Option.some.inj ht
        exact hs.held
      rw [Frame.read_perform ht]
      split
      · rename_i heq
        subst heq
        rw [hwrites (mem_definers_of_result? hid hop hresult) hop ha]
        exact .inr rfl
      · exact hs.held
    · rw [hs.unpointed.read_var ha ht hresult]
      exact hs.held
  · exact hv id hid op hop hkind (Operator.mem_reads_of_mem (List.mem_of_mem_head? hhead))
  · -- the variable holds no payload whose place could be taken
    obtain hheld | hheld := hs.held <;> simp [hfield.value] at hheld

theorem eq_pointer_of_addressOf {x : VarId} {w : Value} (hkind : op.kind = .addressOf)
    (hhead : op.args.head? = some (.var x)) (ha : op.action p g s = .ok (some (l, w))) :
    w = .pointer (.var x) := by
  simp only [Operator.action, hkind, hhead, Option.bind_some, Expr.var?, Except.pure_eq_ok,
    Operator.into_eq_some] at ha
  obtain ⟨_, -, -, rfl⟩ := ha
  rfl

/-- On a receiver that points to a variable the constructor takes the step of a copy. -/
theorem step_copy_of_ctor {m : MethodId} {method : Method} {this x : VarId} {value : Expr}
    {control : Control} (hkind : op.kind = .call m) (hm : p.method m = some method)
    (hctor : method.kind = .ctor) (hscalar : p.isScalar method.owner = some true)
    (hargs : op.args = [.var this, value]) (hs : s.Anchored this (.var x))
    (hstep : op.step p g s = .ok (control, t)) :
    (Operator.copy x value).step p g s = .ok (control, t) := by
  obtain ⟨hcontrol, a, ha, ht⟩ := Operator.step_eq_ok.mp hstep
  obtain ⟨l, w, hthis, hw, rfl⟩ := Operator.ctor_eq_ok hkind hm hctor hscalar hargs ha
  obtain rfl : l = .var x := by
    obtain hheld | hheld := hs.held
    · simp [hthis] at hheld
    · simpa [hthis] using hheld
  rw [Operator.control_of_not_isControl (by simp [Operator.isControl, hkind, OpKind.isControl])]
    at hcontrol
  refine Operator.step_eq_ok.mpr ⟨hcontrol, some (.var x, w), ?_, ht⟩
  have harg : s.arg (.copy x value) 0 = .ok w := Operator.arg_eq_ok.mpr ⟨value, rfl, hw⟩
  simp only [Operator.action, Operator.copy] at harg ⊢
  rw [harg]
  rfl

theorem receiversUnaddressed_of_replaced {old n : OpId} {new : Operator} (hg : g.Linked)
    (h : g.Spliced g' old [n]) (hnew : (g'.op n).map (·.code) = some new.code)
    (hkind : new.kind = .copy) (hfree : g.ReceiversUnaddressed p) : g'.ReceiversUnaddressed p := by
  have hcases : ∀ {id op}, id ∈ g'.attached → g'.op id = some op →
      op.kind = .copy ∨ id ∈ g.attached ∧ g.op id = some op := by
    intro id op hid hop
    obtain hid | ⟨hne, hid⟩ := h.mem_attached.mp hid
    · obtain rfl := List.mem_singleton.mp hid
      rw [hop] at hnew
      exact .inl ((Operator.code_eq.mp (Option.some.inj hnew)).1.trans hkind)
    · rw [h.op (.inl hne) (hg.lt_of_mem hid)] at hop
      exact .inr ⟨hid, hop⟩
  intro id hid op hop v hv id' hid' op' hop' haddress
  obtain hcopy | ⟨hid, hop⟩ := hcases hid hop
  · simp [Operator.receiver?, hcopy] at hv
  · obtain hcopy | ⟨hid', hop'⟩ := hcases hid' hop'
    · simp [hcopy] at haddress
    · exact hfree id hid op hop v hv id' hid' op' hop' haddress

theorem ReceiversUnaddressed.of_sameCode (hfree : g.ReceiversUnaddressed p) (h : g.SameCode g') :
    g'.ReceiversUnaddressed p := by
  unfold ReceiversUnaddressed Unaddressed
  rw [h.attached_eq, h.op_eq]
  exact hfree

end Graph

namespace Edit

open ScalarLowering.Graph

variable {g g' : Graph} {p : Pool} {c : Chains} {id : OpId} {args : List Value} {heap : Heap}
  {fuel : Nat} {o : Outcome}

theorem retraces_lowerConstructor {b : Bool} (hg : g.Linked) (hc : Tracks c g)
    (hfree : g.ReceiversUnaddressed p) (h : lowerConstructor p c id g = .ok b g') :
    g'.ReceiversUnaddressed p ∧ g.Retraces g' p := by
  obtain ⟨found, hfound, h⟩ := query_bind_eq_ok.mp h
  cases found with
  | none =>
    obtain ⟨-, rfl⟩ := pure_eq_ok.mp h
    exact ⟨hfree, .refl g⟩
  | some copy =>
    obtain ⟨n, g₁, hs, h⟩ := bind_eq_ok.mp h
    obtain ⟨-, rfl⟩ := pure_eq_ok.mp h
    obtain ⟨op, m, method, this, value, d, source, x, infoThis, info, hop, hkind, hm, hctor, hscalar,
      hargs, -, -, hinfo, harg, hd, hsource, haddress, hx, -, -, -, rfl⟩ := constructorCopy_spec hfound
    obtain ⟨hspliced, -, hnew⟩ := substitute_spec hg hs
    have hthis : g.Unaddressed this := hfree id hspliced.attached op hop this (by
      simp [Operator.receiver?, hkind, hm, hctor, hargs])
    have hwrites : ∀ {s d' source' w}, d' ∈ g.definers this → g.op d' = some source' →
        source'.action p g s = .ok (some (.var this, w)) → w = .pointer (.var x) := by
      intro s d' source' w hd' hsource' haction
      rw [hc.definers_eq hd, List.mem_singleton] at hd'
      subst hd'
      obtain rfl := Option.some.inj (hsource.symm.trans hsource')
      exact eq_pointer_of_addressOf haddress hx haction
    -- the receiver holds the address of `x`, or it is undefined and the constructor fails
    have hkeeps := keepsUp_of_replaced (p := p) (I := (·.Anchored this (.var x))) hg hspliced hop hnew
      (anchored_initial hinfo harg)
      (fun hid hop hs ha ht => anchored_step hthis hwrites hs hid hop ha ht)
      (fun hs hstep => step_copy_of_ctor hkind hm hctor hscalar hargs hs hstep)
    exact ⟨receiversUnaddressed_of_replaced hg hspliced hnew rfl hfree,
      hkeeps.retraces (splice_singleton_ne_nil _ _)⟩

/-- Where no address is taken of a variable that a method is called on, lowering the constructors
changes nothing about a run that returns: with the same fuel it returns the same value after the
same number of steps, and leaves the same variables and the same heap. -/
theorem run_lower_constructors {stats : Stats} (verify : Bool) (hg : g.Built)
    (hverify : g.verify = .ok ()) (hmarked : ∀ {b block}, g.block b = some block → block.reachable)
    (hfree : g.ReceiversUnaddressed p)
    (h : lower p { Config.nothing with constructors := true, verify } g = .ok stats g')
    (hclean : Clean args heap) (hrun : g.run p args heap fuel = .ok o) :
    g'.run p args heap fuel = .ok o := by
  obtain ⟨entry, hentry⟩ := exists_entry_of_run hrun
  have hshaped : g.Shaped fun _ => false := shaped_of_verify hg.coherent.linked hverify
    ⟨entry, hentry, hmarked hentry⟩ fun hb hr => by simp [hmarked hb] at hr
  obtain ⟨n, m, g₁, g₂, hbatch, hnone, -, rfl, -⟩ := (lower_calls_eq_ok rfl rfl rfl).mp h
  obtain ⟨rfl, rfl⟩ := pure_eq_ok.mp hnone
  let I (g₁ : Graph) : Prop :=
    g₁.Shaped (fun _ => false) ∧ g₁.ReceiversUnaddressed p ∧ g.Retraces g₁ p
  have hsame : ∀ {g₁ g₂ : Graph}, g₁.SameCode g₂ → g₂.Coherent → I g₁ → I g₂ :=
    fun hcode hg₂ hI => ⟨hI.1.of_sameCode hcode hg₂.linked, hI.2.1.of_sameCode hcode,
      hI.2.2.trans hcode.retraces⟩
  have hedit : ∀ {g₁ g₂ c id b}, (∀ op ∈ g₁.op id, op.kind.isCall) → g₁.Linked → Tracks c g₁ →
      I g₁ → lowerConstructor p c id g₁ = .ok b g₂ → I g₂ := by
    rintro g₁ g₂ c id b - hlinked hc ⟨hshaped, hfree, hretraces⟩ h
    obtain ⟨hfree', hretraces'⟩ := retraces_lowerConstructor hlinked hc hfree h
    exact ⟨shaped_lowerConstructor hc hshaped h, hfree', hretraces.trans hretraces'⟩
  obtain ⟨-, hshaped₁, -, hretraces⟩ := batch_sweep_induction hsame (grows_lowerConstructor p) hedit
    hg.coherent ⟨hshaped, hfree, .refl g⟩ hbatch
  split
  · rw [run_updateReachability hshaped₁.toWellShaped.controlLast]
    exact hretraces hclean hrun
  · exact hretraces hclean hrun

/-- A wrapper is constructed twice through one pointer, the second time from the argument. -/
def constructedTwice : Graph := (constructed (.addressOf ⟨1⟩ ⟨0⟩)).changed
  [.addVar .argument (.ofScalar .i32), .append ⟨0⟩ (.call ⟨0⟩ [.var ⟨1⟩, .var ⟨2⟩] none),
    .append ⟨0⟩ (.ret (some (.var ⟨0⟩)))]

theorem run_lower_constructors_constructedTwice : ∃ g' o,
    lower wrapperPool { Config.nothing with constructors := true } constructedTwice =
      .ok { constructors := 2 } g' ∧ constructedTwice.ReceiversUnaddressed wrapperPool ∧
    g'.run wrapperPool [.bits 7] .empty 4 = .ok o ∧ o.returned = some (.bits 7) ∧ o.steps = 4 := by
  have h : (lower wrapperPool { Config.nothing with constructors := true }).result? constructedTwice =
      some { constructors := 2 } := by decide +kernel
  have hmarked : ∀ block ∈ constructedTwice.blocks, block.reachable := by decide
  have hfree : constructedTwice.ReceiversUnaddressed wrapperPool := by decide +kernel
  have hanswer : constructedTwice.answer? wrapperPool [.bits 7] .empty 4 = some (some (.bits 7), 4) := by
    decide +kernel
  obtain ⟨o, hrun, hreturned, hsteps⟩ := exists_run_of_answer? hanswer
  exact ⟨_, o, eq_ok_of_result? h, hfree, run_lower_constructors false
    (((Built.empty "f").changed _).changed _) (by decide +kernel)
    (fun hb => hmarked _ (Array.mem_of_getElem? hb)) hfree (eq_ok_of_result? h)
    (clean_of_stored (by decide)) hrun, hreturned, hsteps⟩

end Edit
end ScalarLowering
