import ScalarLowering.Proofs.Order
import ScalarLowering.Proofs.Rewrites

/-! What is known about some variables whenever an operator is about to run: which addresses they
can hold, and that two of them hold the same. All of it rests on few operators writing them. -/

namespace ScalarLowering
namespace Graph

variable {g : Graph} {p : Pool} {s t : Frame} {id : OpId} {op : Operator} {pre rest : List OpId}
  {a : Option (Location × Value)} {q v : VarId}

theorem WellShaped.result?_eq (hg : g.WellShaped) (hid : id ∈ g.attached) (hop : g.op id = some op)
    (hv : v ∈ op.results) : op.result? = some v := by
  rw [Operator.result?, (results_eq_singleton (hg.fits hid hop) hv).1]
  rfl

theorem mem_definers_of_result? (hid : id ∈ g.attached) (hop : g.op id = some op)
    (h : op.result? = some v) : id ∈ g.definers v :=
  mem_definers_of_results hid hop (List.mem_of_mem_head? h)

theorem read_of_notMem_definers (hs : g.Sane p s) (hid : id ∈ g.attached) (hop : g.op id = some op)
    (hapart : op.Apart p g s) (ha : op.action p g s = .ok a) (ht : s.perform a = some t)
    (hq : g.Quiet p q) (hne : id ∉ g.definers q) : t.read (.var q) = s.read (.var q) :=
  hs.read_var hid hop hapart ha ht hq fun h => hne (mem_definers_of_result? hid hop h)

theorem eval_of_notMem_definers {e : Expr} (hs : g.Sane p s) (hid : id ∈ g.attached)
    (hop : g.op id = some op) (hapart : op.Apart p g s) (ha : op.action p g s = .ok a)
    (ht : s.perform a = some t) (hq : ∀ y, e = .var y → g.Quiet p y ∧ id ∉ g.definers y) :
    t.eval e = s.eval e := by
  cases e with
  | const c => rfl
  | var y =>
    obtain ⟨hquiet, hne⟩ := hq y rfl
    exact read_of_notMem_definers hs hid hop hapart ha ht hquiet hne

theorem quiet_of_not_takesAddress
    (h : ∀ {id op}, id ∈ g.attached → g.op id = some op → ¬op.TakesAddress p g q) :
    g.Quiet p q := by
  rintro r ⟨id, op, hid, hop, htakes, -⟩
  exact absurd htakes (h hid hop)

theorem getElem?_initialVars {vs : List Variable} {args : List Value} {i : Nat} {info : Variable}
    (hi : vs[i]? = some info) (harg : info.isArgument = false) :
    (initialVars vs args)[i]? = some .undefined := by
  induction vs generalizing args i with
  | nil => simp at hi
  | cons w vs ih =>
    cases i with
    | zero =>
      obtain rfl : w = info := by simpa using hi
      simp [initialVars, harg]
    | succ i =>
      have hi : vs[i]? = some info := by simpa using hi
      unfold initialVars
      split
      · simpa using ih hi
      · simpa using ih hi

theorem read_initial {info : Variable} {args : List Value} {heap : Heap} (hq : g.var q = some info)
    (harg : info.isArgument = false) :
    (g.initial args heap).read (.var q) = some .undefined := by
  simpa [Graph.initial, Frame.read] using getElem?_initialVars (by simpa [Graph.var] using hq) harg

/-- A variable that starts undefined holds nothing but what its definitions write. -/
theorem wideInvariant_written {P : Value → Prop} {info : Variable} (hquiet : g.Quiet p q)
    (hq : g.var q = some info) (harg : info.isArgument = false) (hundefined : P .undefined)
    (hwrites : ∀ {d op s w}, d ∈ g.definers q → g.op d = some op →
      op.action p g s = .ok (some (.var q, w)) → P w) :
    g.WideInvariant p fun _ _ s => ∃ w, s.read (.var q) = some w ∧ P w := by
  refine ⟨fun _ _ => ⟨.undefined, read_initial hq harg, hundefined⟩, ?_, fun _ _ h _ _ _ => h⟩
  rintro pre id rest op s t a hat hs ⟨w, hw, hP⟩ hop hapart ha ht
  have hid := mem_attached_of_at hat
  by_cases hwrite : ∃ u, a = some (.var q, u)
  · obtain ⟨u, rfl⟩ := hwrite
    refine ⟨u, by rw [Frame.read_perform ht, if_pos rfl], ?_⟩
    by_cases hdef : id ∈ g.definers q
    · exact hwrites hdef hop ha
    · have hsame := read_of_notMem_definers hs hid hop hapart ha ht hquiet hdef
      rw [Frame.read_perform ht, if_pos rfl, hw] at hsame
      exact Option.some.inj hsame ▸ hP
  · refine ⟨w, ?_, hP⟩
    rcases a with _ | ⟨l, u⟩
    · obtain rfl := Option.some.inj ht
      exact hw
    · rw [Frame.read_perform ht, if_neg, hw]
      rintro rfl
      exact hwrite ⟨u, rfl⟩

/-- What a variable can hold whose definitions all take the address of one operand. -/
def Addresses (e : Expr) (w : Value) : Prop :=
  w = .undefined ∨ ∃ x, e = .var x ∧ w = .pointer (.var x)

theorem runInvariant_address {e : Expr} {d : OpId} {info : Variable} (hquiet : g.Quiet p q)
    (hq : g.var q = some info) (harg : info.isArgument = false) (hdef : g.definers q = [d])
    (hop : g.op d = some op) (hkind : op.kind = .addressOf) (hargs : op.args.head? = some e) :
    g.RunInvariant p fun _ _ s => ∃ w, s.read (.var q) = some w ∧ Addresses e w := by
  refine (wideInvariant_written hquiet hq harg (.inl rfl)
    fun {d' op' s w} hd' hop' ha => ?_).runInvariant
  rw [hdef, List.mem_singleton] at hd'
  subst hd'
  obtain rfl := Option.some.inj (hop.symm.trans hop')
  cases e with
  | const c => simp [Operator.action, hkind, hargs] at ha
  | var x =>
    simp only [Operator.action, hkind, hargs, Option.bind_some, Expr.var?, Except.pure_eq_ok,
      Operator.into_eq_some] at ha
    obtain ⟨_, -, -, rfl⟩ := ha
    exact .inr ⟨x, rfl, rfl⟩

theorem wideInvariant_static {d : OpId} {f : FieldId} {info : Variable} (hquiet : g.Quiet p q)
    (hq : g.var q = some info) (harg : info.isArgument = false) (hdef : g.definers q = [d])
    (hop : g.op d = some op) (hkind : op.kind = .loadStaticAddress f) :
    g.WideInvariant p fun _ _ s => ∃ w, s.read (.var q) = some w ∧
      (w = .undefined ∨ w = .pointer (.static f)) := by
  refine wideInvariant_written hquiet hq harg (.inl rfl) fun {d' op' s w} hd' hop' ha => ?_
  rw [hdef, List.mem_singleton] at hd'
  subst hd'
  obtain rfl := Option.some.inj (hop.symm.trans hop')
  simp only [Operator.action, hkind, Except.pure_eq_ok, Operator.into_eq_some] at ha
  obtain ⟨_, -, -, rfl⟩ := ha
  exact .inr rfl

/-- Since `load` ran in the block and with no definition of the operand after it, the variable holds
what the operand is. -/
def HoldsSince (g : Graph) (load : OpId) (v : VarId) (e : Expr) (pre : List OpId) (s : Frame) :
    Prop :=
  ∀ {before after}, pre = before ++ load :: after →
    (∀ d ∈ after, ∀ y, e = .var y → d ∉ g.definers y) → s.eval e = s.eval (.var v)

theorem eval_of_copied {e : Expr} {w : Value} (ht : s.perform (some (.var v, w)) = some t)
    (hw : s.eval e = some w) (hne : ∀ y, e = .var y → y ≠ v) : t.eval e = t.eval (.var v) := by
  have hread := Frame.read_perform ht
  have hv : t.eval (.var v) = some w := (hread (.var v)).trans (if_pos rfl)
  rw [hv]
  cases e with
  | const c => exact hw
  | var y => exact (hread (.var y)).trans ((if_neg (by simp [hne y rfl])).trans hw)

/-- The load makes the two the same, and they stay so while other operators leave both. -/
theorem HoldsSince.next {load id : OpId} {e : Expr} (hg : g.Linked) (h : g.HoldsSince load v e pre s)
    (hat : g.At pre (id :: rest)) (hload : id = load → t.eval e = t.eval (.var v))
    (hother : id ≠ load → (∀ y, e = .var y → id ∉ g.definers y) →
      t.eval e = s.eval e ∧ t.eval (.var v) = s.eval (.var v)) :
    g.HoldsSince load v e (pre ++ [id]) t := by
  intro before after hpre hafter
  rcases List.eq_nil_or_concat after with rfl | ⟨after, last, rfl⟩
  · obtain ⟨rfl, hlast⟩ := List.append_inj' hpre rfl
    exact hload (by simpa using hlast)
  · obtain ⟨rfl, rfl⟩ : pre = before ++ load :: after ∧ id = last := by
      have hpre : pre ++ [id] = (before ++ load :: after) ++ [last] := by simpa using hpre
      obtain ⟨h₁, h₂⟩ := List.append_inj' hpre rfl
      exact ⟨h₁, by simpa using h₂⟩
    have hbefore : g.Before load id := (hat.mem_pre_iff hg).mp (by simp)
    obtain ⟨he, hv⟩ := hother (hbefore.ne hg).symm (hafter id (by simp))
    rw [he, hv]
    exact h rfl fun d hd => hafter d (by simp [hd])

theorem runInvariant_same {J : List OpId → List OpId → Frame → Prop} {load : OpId} {e : Expr}
    (hg : g.Linked) (hJ : g.RunInvariant p J) (hdef : g.definers v = [load]) (hv : g.Quiet p v)
    (he : ∀ y, e = .var y → g.Quiet p y ∧ y ≠ v)
    (hload : ∀ {pre rest op s a}, g.At pre (load :: rest) → g.Sane p s → J pre (load :: rest) s →
      g.op load = some op → op.Safe p g s → op.action p g s = .ok a →
      ∃ w, a = some (.var v, w) ∧ s.eval e = some w) :
    g.RunInvariant p fun pre rest s => J pre rest s ∧ g.HoldsSince load v e pre s := by
  refine ⟨fun hb hclean => ⟨hJ.start hb hclean, ?_⟩, ?_, ?_⟩
  · intro before after h
    simp at h
  · rintro pre id rest op s t a hat hs ⟨hJs, hsince⟩ hop hsafe ha ht
    have hid := mem_attached_of_at hat
    refine ⟨hJ.next hat hs hJs hop hsafe ha ht, hsince.next hg hat (fun heq => ?_) fun hne hafter => ?_⟩
    · subst heq
      obtain ⟨w, rfl, hw⟩ := hload hat hs hJs hop hsafe ha
      exact eval_of_copied ht hw fun y hy => (he y hy).2
    · refine ⟨eval_of_notMem_definers hs hid hop hsafe.apart ha ht fun y hy =>
        ⟨(he y hy).1, hafter y hy⟩, eval_of_notMem_definers hs hid hop hsafe.apart ha ht ?_⟩
      rintro y ⟨⟩
      exact ⟨hv, by simpa [hdef] using hne⟩
  · rintro pre id rest op s b block hat hs ⟨hJs, -⟩ hop hgoto hb
    refine ⟨hJ.enter hat hs hJs hop hgoto hb, ?_⟩
    intro before after h
    simp at h

/-- Right after a load through a pointer, its result holds what the pointer points at. -/
theorem runInvariant_fetched {load : OpId} {ty : TypeId} {pointer temp : VarId}
    (hop : g.op load = some op) (hkind : op.kind = .loadIndirect ty) (hargs : op.args = [.var pointer])
    (hresult : op.result? = some temp) (hne : pointer ≠ temp) :
    g.RunInvariant p fun pre _ s => ∀ before, pre = before ++ [load] →
      ∃ l w, s.read (.var pointer) = some (.pointer l) ∧ s.read l = some w ∧
        s.read (.var temp) = some w := by
  refine ⟨fun _ _ before h => by simp at h, ?_, fun _ _ _ _ _ _ before h => by simp at h⟩
  intro pre id rest op' s t a _ _ _ hop' _ ha ht before hpre
  obtain ⟨-, hlast⟩ := List.append_inj' hpre rfl
  obtain rfl : id = load := by simpa using hlast
  obtain rfl := Option.some.inj (hop.symm.trans hop')
  simp only [Operator.action, hkind, Except.bind_eq_ok, Except.pure_eq_ok, Fault.lift_eq_ok,
    Operator.target_eq_ok, Operator.arg_eq_ok, hargs] at ha
  obtain ⟨_, ⟨e, he, hpointer⟩, l, rfl, w, hw, rfl⟩ := ha
  obtain rfl : e = .var pointer := by simpa using he.symm
  simp only [Operator.into, hresult, Option.map_some] at ht
  have hread := Frame.read_perform ht
  refine ⟨l, w, ?_, ?_, ?_⟩
  · rw [hread, if_neg fun h => hne (Location.var.inj h)]
    exact hpointer
  · rw [hread, hw]
    split <;> rfl
  · rw [hread, if_pos rfl]

end Graph

/-- The operators that take the address of a field of an object or of an element. -/
def Operator.isPlace (op : Operator) : Bool :=
  match op.kind with
  | .loadFieldAddress _ | .loadElementAddress => true
  | _ => false

theorem Arity.admits_exactly {n m : Nat} : (Arity.exactly n).admits m ↔ m = n := by
  simp only [Arity.admits, Bool.and_eq_true, decide_eq_true_eq]
  simp only [Arity.exactly]
  omega

theorem Heap.elementAt_congr {h h' : Heap}
    (hsize : ∀ a, (h'.elements a).map Array.size = (h.elements a).map Array.size)
    (array index : Value) : h'.elementAt array index = h.elementAt array index := by
  cases array with
  | array a =>
    cases index with
    | bits w =>
      have ha := hsize a
      simp only [Heap.elementAt]
      cases helements : h.elements a with
      | none =>
        have helements' : h'.elements a = none := by simpa [helements] using ha
        rw [helements']
      | some elements =>
        obtain ⟨elements', helements', hlength⟩ : ∃ elements', h'.elements a = some elements' ∧
            elements'.size = elements.size := by simpa [helements] using ha
        have hlift : ∀ (x : Array Value) (f : Array Value → Except Fault Location),
            (liftM (some x) >>= f) = f x := fun _ _ => rfl
        rw [helements', hlift, hlift, hlength]
    | _ => rfl
  | _ => rfl

namespace Operator

variable {op : Operator} {p : Pool} {g : Graph} {s t : Frame} {a : Option (Location × Value)}

theorem action_of_isPlace (h : op.isPlace) (ha : op.action p g s = .ok a) :
    ∃ l, a = op.into (.pointer l) := by
  unfold isPlace at h
  split at h
  · rename_i f hkind
    simp only [action, hkind, Except.bind_eq_ok, Except.pure_eq_ok] at ha
    obtain ⟨_, -, l, -, rfl⟩ := ha
    exact ⟨l, rfl⟩
  · rename_i hkind
    simp only [action, hkind, Except.bind_eq_ok, Except.pure_eq_ok] at ha
    obtain ⟨_, -, _, -, l, -, rfl⟩ := ha
    exact ⟨l, rfl⟩
  · cases h

/-- An address depends on the operands and on the lengths of arrays only. -/
theorem action_congr_of_isPlace (h : op.isPlace) (hargs : ∀ e ∈ op.args, t.eval e = s.eval e)
    (hsize : ∀ a, (t.heap.elements a).map Array.size = (s.heap.elements a).map Array.size) :
    op.action p g t = op.action p g s := by
  have harg : ∀ n, t.arg op n = s.arg op n := by
    intro n
    unfold Frame.arg
    cases he : op.args[n]? with
    | none => rfl
    | some e => simp only [hargs e (List.mem_of_getElem? he)]
  unfold isPlace at h
  split at h
  · rename_i f hkind
    simp only [action, hkind, harg]
  · rename_i hkind
    simp only [action, hkind, harg, Heap.elementAt_congr hsize]
  · cases h

theorem action_perform_of_isPlace (h : op.isPlace) (ht : s.perform a = some t)
    (hreads : ∀ y ∈ op.reads, t.read (.var y) = s.read (.var y)) :
    op.action p g t = op.action p g s := by
  refine action_congr_of_isPlace h (fun e he => ?_) ?_
  · cases e with
    | const c => rfl
    | var y => exact hreads y (mem_reads_of_mem he)
  · rcases a with _ | ⟨l, w⟩
    · obtain rfl := Option.some.inj ht
      exact fun _ => rfl
    · exact Frame.size_elements_write ht

theorem defined_of_isPlace (h : op.isPlace) (hfits : op.Fits g) (ha : op.action p g s = .ok a)
    {y : VarId} (hy : y ∈ op.reads) : s.read (.var y) ≠ some .undefined := by
  intro hundefined
  have hread : ∀ {n v}, op.args[n]? = some (.var y) → s.arg op n = .ok v → v = .undefined := by
    intro n v hn hv
    obtain ⟨e, he, hv⟩ := arg_eq_ok.mp hv
    obtain rfl := Option.some.inj (he.symm.trans hn)
    exact Option.some.inj (hv.symm.trans hundefined)
  obtain ⟨n, hn⟩ := List.mem_iff_getElem?.mp (Graph.mem_reads.mp hy)
  have hlt := (List.getElem?_eq_some_iff.mp hn).1
  unfold isPlace at h
  split at h
  · rename_i f hkind
    have hlength : (Arity.exactly 1).admits op.args.length := hfits.args (by rw [hkind]; rfl)
    simp only [Arity.admits_exactly] at hlength
    obtain rfl : n = 0 := by omega
    simp only [action, hkind, Except.bind_eq_ok, Except.pure_eq_ok, fieldPlace_eq_ok] at ha
    obtain ⟨receiver, harg, l, hl, -⟩ := ha
    obtain rfl := hread hn harg
    simp at hl
  · rename_i hkind
    have hlength : (Arity.exactly 2).admits op.args.length := hfits.args (by rw [hkind]; rfl)
    simp only [Arity.admits_exactly] at hlength
    simp only [action, hkind, Except.bind_eq_ok, Except.pure_eq_ok] at ha
    obtain ⟨array, harray, index, hindex, l, hl, -⟩ := ha
    obtain rfl | rfl : n = 0 ∨ n = 1 := by omega
    · obtain rfl := hread hn harray
      simp [Heap.elementAt] at hl
    · obtain rfl := hread hn hindex
      cases array <;> simp [Heap.elementAt] at hl
  · cases h

end Operator

namespace Graph

variable {g : Graph} {p : Pool} {op : Operator} {address : OpId} {q : VarId}

/-- An address with an operand that is only defined later in the block is never taken. -/
theorem wideInvariant_unplaced (hg : g.WellShaped) (hop : g.op address = some op)
    (hplace : op.isPlace) (hq : g.Quiet p q) (hdef : g.definers q = [address]) {y : VarId}
    (hy : y ∈ op.reads) (hyquiet : g.Quiet p y) {infoq infoy : Variable} (hinfoq : g.var q = some infoq)
    (hargq : infoq.isArgument = false) (hinfoy : g.var y = some infoy)
    (hargy : infoy.isArgument = false) (hlater : ∀ d ∈ g.definers y, g.Before address d) :
    g.WideInvariant p fun pre _ s => address ∉ pre ∧ s.read (.var y) = some .undefined ∧
      s.read (.var q) = some .undefined := by
  refine ⟨fun _ _ => ⟨List.not_mem_nil, read_initial hinfoy hargy, read_initial hinfoq hargq⟩, ?_,
    fun _ _ h _ _ _ => ⟨List.not_mem_nil, h.2⟩⟩
  rintro pre id rest op' s t a hat hs ⟨hpre, hundefy, hundefq⟩ hop' hapart ha ht
  have hid := mem_attached_of_at hat
  have hne : id ≠ address := by
    rintro rfl
    obtain rfl := Option.some.inj (hop.symm.trans hop')
    exact Operator.defined_of_isPlace hplace (hg.fits hid hop) ha hy hundefy
  have hdefy : id ∉ g.definers y :=
    fun h => hpre ((hat.mem_pre_iff hg.linked).mpr (hlater id h))
  refine ⟨?_, ?_, ?_⟩
  · intro h
    obtain h | h := List.mem_append.mp h
    · exact hpre h
    · exact hne (List.mem_singleton.mp h).symm
  · rw [read_of_notMem_definers hs hid hop' hapart ha ht hyquiet hdefy, hundefy]
  · rw [read_of_notMem_definers hs hid hop' hapart ha ht hq (by simpa [hdef] using hne), hundefq]

end Graph
end ScalarLowering
