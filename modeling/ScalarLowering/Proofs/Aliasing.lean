import ScalarLowering.Proofs.Runs

/-! Which variables pointers can reach. A pointer to a variable comes from an operator that takes
its address; if all such pointers are only read through, nothing but its own definitions writes
the variable. -/

namespace ScalarLowering

namespace Operator

variable {op : Operator} {p : Pool} {g : Graph} {x : VarId}

theorem mem_reads_of_mem (h : .var x ∈ op.args) : x ∈ op.reads :=
  List.mem_filterMap.mpr ⟨_, h, rfl⟩

theorem TakesAddress.mem_reads (h : op.TakesAddress p g x) : x ∈ op.reads :=
  mem_reads_of_mem (List.mem_of_mem_head? h.1)

theorem TakesAddress.passes (h : op.TakesAddress p g x) : op.Passes p := by
  intro y
  obtain ⟨-, hkind | ⟨⟨f, hkind⟩, -⟩⟩ := h <;> simp [Pool.readsThrough, hkind]

end Operator

namespace Graph

variable {g : Graph} {p : Pool} {s t : Frame} {x : VarId} {id : OpId} {op : Operator}
  {a : Option (Location × Value)}

def Exposed (g : Graph) (p : Pool) (x : VarId) : Prop :=
  ∃ id op, id ∈ g.attached ∧ g.op id = some op ∧ op.TakesAddress p g x

/-- A pointer to the variable is put into `q`. -/
def PointsFrom (g : Graph) (p : Pool) (x q : VarId) : Prop :=
  ∃ id op, id ∈ g.attached ∧ g.op id = some op ∧ op.TakesAddress p g x ∧ q ∈ op.results

/-- Whatever holds the address of the variable is only read through. -/
def Quiet (g : Graph) (p : Pool) (x : VarId) : Prop :=
  ∀ {q}, g.PointsFrom p x q → ∀ {id op}, id ∈ g.attached → g.op id = some op → q ∈ op.reads →
    p.readsThrough q op = some true

/-- Pointers to variables are where the operators that make them can have put them. -/
structure Sane (g : Graph) (p : Pool) (s : Frame) : Prop where
  size : s.vars.size = g.vars.size
  exposed : ∀ {l x}, s.read l = some (.pointer (.var x)) → g.Exposed p x
  confined : ∀ {x}, g.Quiet p x → ∀ {l}, s.read l = some (.pointer (.var x)) →
    ∃ q, l = .var q ∧ g.PointsFrom p x q

theorem eval_eq_pointer {e : Expr} {l : Location} (h : s.eval e = some (.pointer l)) :
    ∃ x, e = .var x ∧ s.read (.var x) = some (.pointer l) := by
  cases e with
  | var x => exact ⟨x, rfl, h⟩
  | const c =>
    simp only [Frame.eval, Value.ofConstant] at h
    split at h <;> simp [Value.ofInt, Value.ofBool] at h

theorem Quiet.not_passes (hx : g.Quiet p x) {q : VarId} (hq : g.PointsFrom p x q)
    (hid : id ∈ g.attached) (hop : g.op id = some op) (hpasses : op.Passes p) : q ∉ op.reads :=
  fun hread => hpasses q (hx hq hid hop hread)

/-- Nothing points to a variable that holds the address of a quiet one. -/
theorem Sane.not_pointed (hs : g.Sane p s) (hx : g.Quiet p x) {q : VarId}
    (hq : g.PointsFrom p x q) {l : Location} : s.read l ≠ some (.pointer (.var q)) := by
  intro hl
  obtain ⟨id, op, hid, hop, htakes⟩ := hs.exposed hl
  exact hx.not_passes hq hid hop htakes.passes htakes.mem_reads

theorem Sane.step (hs : g.Sane p s) (hid : id ∈ g.attached) (hop : g.op id = some op)
    (hapart : op.Apart p g s) (ha : op.action p g s = .ok a) (ht : s.perform a = some t) :
    g.Sane p t := by
  rcases a with _ | ⟨l, v⟩
  · obtain rfl := Option.some.inj ht
    exact hs
  have hread := Frame.read_write ht
  have hact := op.action_spec hapart ha
  refine ⟨(Frame.size_write ht).trans hs.size, fun {l' x} hl' => ?_, fun {x} hx {l'} hl' => ?_⟩
  · rw [hread] at hl'
    split at hl'
    · obtain rfl := Option.some.inj hl'
      cases hact with
      | plain _ hplain => exact absurd rfl (hplain x)
      | address _ htakes => exact ⟨id, op, hid, hop, htakes⟩
      | operand _ _ hv _ =>
        obtain ⟨w, -, hw⟩ := eval_eq_pointer hv
        exact hs.exposed hw
      | content _ hv _ => exact hs.exposed hv
    · exact hs.exposed hl'
  · rw [hread] at hl'
    split at hl'
    · rename_i heq
      subst heq
      obtain rfl := Option.some.inj hl'
      cases hact with
      | plain _ hplain => exact absurd rfl (hplain x)
      | address hr htakes =>
        exact ⟨_, rfl, id, op, hid, hop, htakes, List.mem_of_mem_head? hr⟩
      | operand _ he hv hpasses =>
        obtain ⟨w, rfl, hw⟩ := eval_eq_pointer hv
        obtain ⟨q, hq, hpoints⟩ := hs.confined hx hw
        obtain rfl := Location.var.inj hq
        exact absurd (Operator.mem_reads_of_mem he) (hx.not_passes hpoints hid hop hpasses)
      | content _ hv hwhere =>
        obtain ⟨q, rfl, hpoints⟩ := hs.confined hx hv
        obtain hheap | ⟨e, -, he⟩ := hwhere
        · exact absurd rfl (hheap q)
        · obtain ⟨w, -, hw⟩ := eval_eq_pointer he
          exact absurd hw (hs.not_pointed hx hpoints)
    · exact hs.confined hx hl'

/-- Only its own definitions write a quiet variable. -/
theorem Sane.read_var (hs : g.Sane p s) (hid : id ∈ g.attached) (hop : g.op id = some op)
    (hapart : op.Apart p g s) (ha : op.action p g s = .ok a) (ht : s.perform a = some t)
    (hx : g.Quiet p x) (hne : op.result? ≠ some x) : t.read (.var x) = s.read (.var x) := by
  rcases a with _ | ⟨l, v⟩
  · obtain rfl := Option.some.inj ht
    rfl
  rw [Frame.read_write ht, if_neg]
  rintro rfl
  have htarget : ∀ {l}, op.Targets p s l → l ≠ .var x := by
    rintro l (⟨hr⟩ | ⟨he, hv, hpasses⟩ | _) heq
    · obtain rfl := Location.var.inj heq
      exact hne hr
    · subst heq
      obtain ⟨w, rfl, hw⟩ := eval_eq_pointer hv
      obtain ⟨q, hq, hpoints⟩ := hs.confined hx hw
      obtain rfl := Location.var.inj hq
      exact hx.not_passes hpoints hid hop hpasses (Operator.mem_reads_of_mem he)
    · cases heq
  have hact := op.action_spec hapart ha
  generalize hl : Location.var x = l at hact
  cases hact with
  | plain htgt _ => exact htarget htgt hl.symm
  | address hr _ => exact hne (Location.var.inj hl ▸ hr)
  | operand htgt _ _ _ => exact htarget htgt hl.symm
  | content hr _ _ => exact hne (Location.var.inj hl ▸ hr)

end Graph

namespace Operator

variable {op : Operator} {p : Pool} {g : Graph} {s : Frame} {l : Location} {v : Value} {x : VarId}

/-- Where a pointer to the variable that an operator writes comes from: it is made anew, or is an
operand that the operator does not only read through, or is found in memory. -/
inductive Emits (op : Operator) (p : Pool) (s : Frame) (x : VarId) : Location → Prop
  | address {r : VarId} : op.kind = .addressOf → op.args.head? = some (.var x) →
    op.result? = some r → Emits op p s x (.var r)
  | field {f : FieldId} {r : VarId} {w : UInt64} : op.TakesField s f r x w → Emits op p s x (.var r)
  | operand {e : Expr} {l : Location} : e ∈ op.args → s.eval e = some (.pointer (.var x)) →
    op.Passes p → Emits op p s x l
  | content {l l' : Location} : s.read l' = some (.pointer (.var x)) →
    ((∀ y, l' ≠ .var y) ∨ ∃ e ∈ op.args, s.eval e = some (.pointer l')) → Emits op p s x l

theorem emits_of_action (h : op.action p g s = .ok (some (l, .pointer (.var x)))) :
    op.Emits p s x l := by
  obtain hact | ⟨f, r, y, w, hfield, rfl, heq⟩ := action_cases h
  · cases hact with
    | plain _ hplain => exact absurd rfl (hplain x)
    | address hr htakes =>
      obtain ⟨hhead, hkind | ⟨⟨f, hkind⟩, -⟩⟩ := htakes
      · exact .address hkind hhead hr
      · -- the place of a field is a variable only if the receiver is a pointer or a payload
        simp only [action, hkind, Except.bind_eq_ok, Except.pure_eq_ok, into_eq_some,
          fieldPlace_eq_ok] at h
        obtain ⟨receiver, harg, l', hl', -, -, -, heq⟩ := h
        obtain rfl := Value.pointer.inj heq
        obtain ⟨e, he, hv⟩ := arg_eq_ok.mp harg
        obtain ⟨o, -, hfield⟩ | ⟨rfl, -⟩ | ⟨w, y, rfl, -, -⟩ := hl'
        · cases hfield
        · exact .operand (List.mem_of_getElem? he) hv fun y => by simp [Pool.readsThrough, hkind]
        · obtain rfl := Option.some.inj (he.symm.trans (List.head?_eq_getElem? ▸ hhead))
          exact .field ⟨hkind, hr, hhead, hv⟩
    | operand _ he hv hpasses => exact .operand he hv hpasses
    | content _ hv hwhere => exact .content hv hwhere
  · obtain rfl : x = y := by simpa using heq
    exact .field hfield

/-- An operator writes a variable as its result or through a pointer to it. -/
theorem action_target (h : op.action p g s = .ok (some (l, v))) (hl : l = .var x) :
    op.result? = some x ∨ ∃ l', s.read l' = some (.pointer (.var x)) := by
  have htarget : op.Targets p s l → op.result? = some x ∨
      ∃ l', s.read l' = some (.pointer (.var x)) := by
    intro htarget
    cases htarget with
    | result hr => exact .inl (Location.var.inj hl ▸ hr)
    | through he hv _ =>
      obtain ⟨y, -, hy⟩ := Graph.eval_eq_pointer hv
      exact .inr ⟨_, hl ▸ hy⟩
    | field => cases hl
  obtain hact | ⟨f, r, y, w, hfield, rfl, -⟩ := action_cases h
  · cases hact with
    | plain htgt _ => exact htarget htgt
    | address hr _ => exact .inl (Location.var.inj hl ▸ hr)
    | operand htgt _ _ _ => exact htarget htgt
    | content hr _ _ => exact .inl (Location.var.inj hl ▸ hr)
  · exact .inl (Location.var.inj hl ▸ hfield.result)

end Operator

def Frame.Unpointed (s : Frame) (x : VarId) : Prop := ∀ l, s.read l ≠ some (.pointer (.var x))

namespace Frame.Unpointed

variable {op : Operator} {p : Pool} {g : Graph} {s t : Frame} {x : VarId}
  {a : Option (Location × Value)}

/-- Nothing comes to point to a variable unless its address or that of its field is taken. -/
theorem step (hs : s.Unpointed x) (haddress : op.kind = .addressOf → op.args.head? ≠ some (.var x))
    (hfield : ∀ f r w, ¬op.TakesField s f r x w) (ha : op.action p g s = .ok a)
    (ht : s.perform a = some t) : t.Unpointed x := by
  rcases a with _ | ⟨l, v⟩
  · obtain rfl := Option.some.inj ht
    exact hs
  intro l' hl'
  rw [Frame.read_perform ht] at hl'
  split at hl'
  case isFalse => exact hs l' hl'
  obtain rfl := Option.some.inj hl'
  cases Operator.emits_of_action ha with
  | address hkind hhead _ => exact haddress hkind hhead
  | field h => exact hfield _ _ _ h
  | operand _ hv _ =>
    obtain ⟨y, -, hy⟩ := Graph.eval_eq_pointer hv
    exact hs _ hy
  | content hv _ => exact hs _ hv

theorem read_var (hs : s.Unpointed x) (ha : op.action p g s = .ok a) (ht : s.perform a = some t)
    (hne : op.result? ≠ some x) : t.read (.var x) = s.read (.var x) := by
  rcases a with _ | ⟨l, v⟩
  · obtain rfl := Option.some.inj ht
    rfl
  rw [Frame.read_perform ht, if_neg]
  rintro rfl
  obtain hresult | ⟨l, hl⟩ := Operator.action_target ha rfl
  · exact hne hresult
  · exact hs l hl

end Frame.Unpointed
end ScalarLowering
