import ScalarLowering.Proofs.Evolution

/-! When faults that are checked stay where they are. The address of a field or an element may be
folded into a later load, and its fault then comes with the load; so nothing that can fail without
a check may come first. -/

namespace ScalarLowering

namespace Operator

/-- The operator can fail although it carries no check, or becomes one that can. -/
def silent (op : Operator) (p : Pool) : Bool :=
  match op.kind with
  | .compare _ => true
  | .addressOf => op.reads.isEmpty
  | .call m => !(p.method m).any (·.kind = .ctor)
  | .loadField _ | .loadIndirect _ => !op.checkForNull
  | .loadFieldAddress _ | .loadElement | .loadElementAddress => !op.mayFault
  | _ => false

def derefs (op : Operator) (p : Pool) (q : VarId) : Bool :=
  op.args.head? = some (.var q) && match op.kind with
  | .loadIndirect _ | .loadField _ => true
  | .call m => (p.method m).any (·.kind = .ofInstance)
  | _ => false

/-- The operator reads through the variable or makes another address of it. -/
def takes (op : Operator) (p : Pool) (q : VarId) : Bool :=
  op.derefs p q || op.isPlace && op.readsVar q

def isStore (op : Operator) : Bool :=
  match op.kind with
  | .storeField _ | .storeIndirect => true
  | _ => false

/-- The operator checks the address of the value of a wrapper that lies behind a pointer. -/
def checksField (op : Operator) (p : Pool) (g : Graph) : Bool :=
  match op.kind with
  | .loadFieldAddress f => op.checkForNull && p.isValueField f = some true &&
      op.args.head?.any fun e => (g.pointeeOf p e).isSome
  | _ => false

theorem checksField_congr {op op' : Operator} {p : Pool} {g g' : Graph} (hkind : op'.kind = op.kind)
    (hargs : op'.args = op.args) (hflags : op'.flags = op.flags)
    (htype : ∀ x ∈ op.reads, g'.typeOf (.var x) = g.typeOf (.var x)) :
    op'.checksField p g' = op.checksField p g := by
  unfold checksField checkForNull
  rw [hkind, hargs, hflags]
  cases he : op.args.head? with
  | none => rfl
  | some e =>
    have htype' : g'.typeOf e = g.typeOf e := by
      cases e with
      | const c => rfl
      | var x => exact htype x (mem_reads_of_mem (List.mem_of_mem_head? he))
    simp only [Option.any_some, Graph.pointeeOf_congr htype']

theorem checksField_of_not_isPlace {op : Operator} {p : Pool} {g : Graph} (h : op.isPlace = false) :
    op.checksField p g = false := by
  unfold checksField
  split
  · rename_i f hf
    simp [isPlace, hf] at h
  · rfl

theorem takes_of_derefs {op : Operator} {p : Pool} {q : VarId} (h : op.derefs p q) : op.takes p q := by
  simp [takes, h]

theorem mem_reads_of_derefs {op : Operator} {p : Pool} {q : VarId} (h : op.derefs p q) :
    q ∈ op.reads := by
  simp only [derefs, Bool.and_eq_true, decide_eq_true_eq] at h
  exact mem_reads_of_mem (List.mem_of_mem_head? h.1)

theorem mem_reads_of_takes {op : Operator} {p : Pool} {q : VarId} (h : op.takes p q) :
    q ∈ op.reads := by
  simp only [takes, Bool.or_eq_true, Bool.and_eq_true] at h
  obtain hderefs | ⟨-, hread⟩ := h
  · exact mem_reads_of_derefs hderefs
  · exact List.contains_iff_mem.mp hread

theorem eq_of_derefs {op : Operator} {p : Pool} {q q' : VarId} (h : op.derefs p q)
    (h' : op.derefs p q') : q = q' := by
  simp only [derefs, Bool.and_eq_true, decide_eq_true_eq] at h h'
  simpa [h'.1] using h.1.symm

theorem not_isPlace_of_derefs {op : Operator} {p : Pool} {q : VarId} (h : op.derefs p q) :
    op.isPlace = false := by
  simp only [derefs, Bool.and_eq_true] at h
  unfold isPlace
  split <;> simp_all

theorem not_isStore_of_derefs {op : Operator} {p : Pool} {q : VarId} (h : op.derefs p q) :
    op.isStore = false := by
  simp only [derefs, Bool.and_eq_true] at h
  unfold isStore
  split <;> simp_all

end Operator

namespace Graph

/-- The operator puts the address of a field or an element into the variable. -/
def PlaceOf (g : Graph) (id : OpId) (q : VarId) : Prop :=
  id ∈ g.attached ∧ (g.op id).any fun op => op.isPlace && op.definesVar q

/-- The operator can fail without a check, and not because of the variable. -/
def Risks (g : Graph) (p : Pool) (q : VarId) (id : OpId) : Prop :=
  id ∈ g.attached ∧ (g.op id).any fun op => op.silent p && !op.takes p q

/-- The operator reads through the variable or stores. -/
def Settles (g : Graph) (p : Pool) (q : VarId) (id : OpId) : Prop :=
  id ∈ g.attached ∧ (g.op id).any fun op => op.derefs p q || op.isStore

instance (g : Graph) (p : Pool) (q : VarId) (id : OpId) : Decidable (g.Risks p q id) :=
  inferInstanceAs (Decidable (_ ∧ _))

instance (g : Graph) (p : Pool) (q : VarId) (id : OpId) : Decidable (g.Settles p q id) :=
  inferInstanceAs (Decidable (_ ∧ _))

/-- Between the address and the operator, something settles whether the address is good. -/
def Passed (g : Graph) (p : Pool) (q : VarId) (address id : OpId) : Prop :=
  ∃ r ∈ g.attached, g.Settles p q r ∧ g.Before address r ∧ g.Before r id

instance (g : Graph) (p : Pool) (q : VarId) (address id : OpId) :
    Decidable (g.Passed p q address id) :=
  inferInstanceAs (Decidable (∃ r ∈ g.attached, _))

/-- What the lowering needs of a graph to keep its checked faults. -/
@[mk_iff]
structure Prompt (g : Graph) (p : Pool) : Prop where
  /-- The value behind a pointer lies where the pointer points, so its address needs no check. -/
  unchecked : ∀ id ∈ g.attached, ∀ op ∈ g.op id, op.checksField p g = false
  /-- Between the address of a field or an element and a use of it, an operator that can fail
  without a check comes only after something reads through the address or stores. -/
  ordered : ∀ id ∈ g.attached, ∀ op ∈ g.op id, op.isPlace → ∀ q ∈ op.results,
    ∀ user ∈ g.readers q, ∀ x ∈ g.attached, g.Risks p q x → g.Before id x → g.Before x user →
      g.Passed p q id x
  /-- In the block of the operator that takes such an address, it is not used further up. -/
  below : ∀ id ∈ g.attached, ∀ op ∈ g.op id, op.isPlace → ∀ q ∈ op.results,
    ∀ user ∈ g.readers q, ¬g.Before user id

set_option synthInstance.maxSize 400 in
instance (g : Graph) (p : Pool) : Decidable (g.Prompt p) := decidable_of_iff' _ (prompt_iff g p)

variable {g g' : Graph} {p : Pool} {origin : OpId → OpId} {id address user old x r : OpId}
  {op op' : Operator} {q : VarId} {ids : List OpId}

theorem placeOf_iff : g.PlaceOf id q ↔
    id ∈ g.attached ∧ ∃ op, g.op id = some op ∧ op.isPlace ∧ q ∈ op.results := by
  simp [PlaceOf, Option.any_eq_true, Operator.definesVar]

theorem PlaceOf.mem_definers (h : g.PlaceOf id q) : id ∈ g.definers q := by
  obtain ⟨hid, op, hop, -, hq⟩ := placeOf_iff.mp h
  exact mem_definers_of_results hid hop hq

theorem risks_iff : g.Risks p q id ↔
    id ∈ g.attached ∧ ∃ op, g.op id = some op ∧ op.silent p ∧ op.takes p q = false := by
  simp [Risks, Option.any_eq_true]

theorem settles_iff : g.Settles p q id ↔
    id ∈ g.attached ∧ ∃ op, g.op id = some op ∧ (op.derefs p q ∨ op.isStore) := by
  simp [Settles, Option.any_eq_true]

theorem Settles.not_risks (h : g.Settles p q id) : ¬g.Risks p q id := by
  intro hrisks
  obtain ⟨-, op, hop, hcase⟩ := settles_iff.mp h
  obtain ⟨-, op', hop', hsilent, htakes⟩ := risks_iff.mp hrisks
  obtain rfl := Option.some.inj (hop.symm.trans hop')
  obtain hderefs | hstore := hcase
  · simp [Operator.takes_of_derefs hderefs] at htakes
  · unfold Operator.isStore at hstore
    unfold Operator.silent at hsilent
    split at hstore <;> simp_all

theorem passed_iff : g.Passed p q address id ↔
    ∃ r, g.Settles p q r ∧ g.Before address r ∧ g.Before r id :=
  ⟨fun ⟨r, _, h⟩ => ⟨r, h⟩, fun ⟨r, h⟩ => ⟨r, h.1.1, h⟩⟩

theorem Prompt.passed (hp : g.Prompt p) (hplace : g.PlaceOf address q) (huser : user ∈ g.readers q)
    (hrisks : g.Risks p q x) (hax : g.Before address x) (hxu : g.Before x user) :
    g.Passed p q address x := by
  obtain ⟨hid, op, hop, hisPlace, hq⟩ := placeOf_iff.mp hplace
  exact hp.ordered address hid op hop hisPlace q hq user huser x hrisks.1 hrisks hax hxu

theorem Prompt.not_before (hp : g.Prompt p) (hplace : g.PlaceOf address q)
    (huser : user ∈ g.readers q) : ¬g.Before user address := by
  obtain ⟨hid, op, hop, hisPlace, hq⟩ := placeOf_iff.mp hplace
  exact hp.below address hid op hop hisPlace q hq user huser

theorem Evolves.placeOf (h : g.Evolves g' origin) (hid : origin id = id) (hplace : g'.PlaceOf id q) :
    g.PlaceOf id q := by
  obtain ⟨hatt, op', hop', hisPlace, hq⟩ := placeOf_iff.mp hplace
  obtain ⟨op, hatt, hop, hkind, -, hresults, -⟩ := h.exists_op hatt hid hop'
  refine placeOf_iff.mpr ⟨hatt, op, hop, ?_, hresults ▸ hq⟩
  simpa [Operator.isPlace, hkind] using hisPlace

theorem Evolves.risks (h : g.Evolves g' origin) (hid : origin id = id) (hrisks : g'.Risks p q id) :
    g.Risks p q id := by
  obtain ⟨hatt, op', hop', hsilent, htakes⟩ := risks_iff.mp hrisks
  obtain ⟨op, hatt, hop, hkind, hargs, -, hflags⟩ := h.exists_op hatt hid hop'
  refine risks_iff.mpr ⟨hatt, op, hop, ?_, ?_⟩
  · simpa [Operator.silent, Operator.reads, Operator.mayFault, Operator.checkForNull, hkind, hargs,
      hflags] using hsilent
  · simpa [Operator.takes, Operator.derefs, Operator.isPlace, Operator.readsVar, Operator.reads,
      hkind, hargs] using htakes

theorem Evolves.settles (h : g.Evolves g' origin) (hatt : id ∈ g'.attached) (hid : origin id = id)
    (hsettles : g.Settles p q id) : g'.Settles p q id := by
  obtain ⟨-, op, hop, hcase⟩ := settles_iff.mp hsettles
  have hcode := h.code hatt hid
  rw [hop, Option.map_some] at hcode
  obtain ⟨op', hop', hcode⟩ := Option.map_eq_some_iff.mp hcode
  obtain ⟨hkind, hargs, -⟩ := Operator.code_eq.mp hcode
  refine settles_iff.mpr ⟨hatt, op', hop', ?_⟩
  simpa [Operator.derefs, Operator.isStore, hkind, hargs] using hcase

/-- An operator keeps its place relative to an address whose operator nothing else stands for. -/
theorem Evolves.before_of_placeOf {a b : OpId} (h : g.Evolves g' origin) (hg' : g'.Linked)
    (halone : ∀ {x q}, x ∈ g'.attached → g'.PlaceOf (origin x) q → origin x = x)
    (hab : g'.Before a b) (hplace : g'.PlaceOf (origin a) q ∨ g'.PlaceOf (origin b) q) :
    g.Before (origin a) (origin b) := by
  refine (h.before_origin hab).resolve_right fun heq => hab.ne hg' ?_
  rw [heq, or_self] at hplace
  calc a = origin a := (halone hab.mem_left (heq ▸ hplace)).symm
    _ = origin b := heq
    _ = b := halone hab.mem_right hplace

section Evolve

variable (hp : g.Prompt p) (hg' : g'.Linked) (h : g.Evolves g' origin)
  (hnew : ∀ {id op'}, id ∈ g'.attached → origin id ≠ id → g'.op id = some op' →
    op'.isPlace = false)
  (halone : ∀ {x q}, x ∈ g'.attached → g'.PlaceOf (origin x) q → origin x = x)
  (hrisks : ∀ {q x}, g'.Risks p q x → origin x ≠ x →
    g.Risks p q (origin x) ∨ g.Settles p q (origin x))
  (hreads : ∀ {address q user}, g'.PlaceOf address q → user ∈ g'.readers q →
    origin user ≠ user → origin user ∈ g.readers q ∨ ¬g.Before (origin user) address ∧
      ∀ {x}, g.Risks p q x → g.Before address x → g.Before x (origin user) →
        g.Passed p q address x)
  (hmove : ∀ {address q user r x}, g'.PlaceOf address q → user ∈ g'.readers q →
    g.Settles p q r → g.Before address r → g'.Risks p q x →
    (g.Before r (origin x) ∨ r = origin x ∧ origin x ≠ x) → g'.Passed p q address x)
  (hpair : ∀ {address q user x}, g'.PlaceOf address q → user ∈ g'.readers q → g'.Risks p q x →
    g'.Before address x → g'.Before x user → origin x = origin user → g'.Passed p q address x)

include hp h

include hnew in
theorem Prompt.unchecked_evolve (hid : id ∈ g'.attached) (hop' : g'.op id = some op') :
    op'.checksField p g' = false := by
  by_cases horigin : origin id = id
  · obtain ⟨op, hid, hop, hkind, hargs, -, hflags⟩ := h.exists_op hid horigin hop'
    rw [Operator.checksField_congr hkind hargs hflags fun x hx =>
      h.type hid hop x (List.mem_append_left _ hx)]
    exact hp.unchecked id hid op hop
  · exact Operator.checksField_of_not_isPlace (hnew hid horigin hop')

include hreads in
theorem Prompt.passed_evolve (hplace' : g'.PlaceOf address q) (horigin : origin address = address)
    (huser : user ∈ g'.readers q) (hrisk : g.Risks p q x) (hax : g.Before address x)
    (hxu : g.Before x (origin user)) : g.Passed p q address x := by
  have hplace := h.placeOf horigin hplace'
  by_cases hou : origin user = user
  · exact hp.passed hplace (h.mem_readers hou huser) hrisk hax (hou ▸ hxu)
  · obtain hread | ⟨-, hpassed⟩ := hreads hplace' huser hou
    · exact hp.passed hplace hread hrisk hax hxu
    · exact hpassed hrisk hax hxu

include hg' halone hrisks hreads hmove hpair in
theorem Prompt.ordered_evolve (hplace' : g'.PlaceOf address q) (horigin : origin address = address)
    (huser : user ∈ g'.readers q) (hxrisks : g'.Risks p q x) (hax : g'.Before address x)
    (hxu : g'.Before x user) : g'.Passed p q address x := by
  have hax₀ : g.Before address (origin x) := by
    have hb := h.before_of_placeOf hg' halone hax (.inl (horigin.symm ▸ hplace'))
    rwa [horigin] at hb
  have hcase : g.Risks p q (origin x) ∨ g.Settles p q (origin x) ∧ origin x ≠ x := by
    by_cases hox : origin x = x
    · exact .inl (hox.symm ▸ h.risks hox hxrisks)
    · exact (hrisks hxrisks hox).imp_right fun hs => ⟨hs, hox⟩
  obtain hrisk | ⟨hsettles, hox⟩ := hcase
  · obtain hxu₀ | heq := h.before_origin hxu
    · obtain ⟨r, hsettles, har, hrx⟩ :=
        passed_iff.mp (hp.passed_evolve h hreads hplace' horigin huser hrisk hax₀ hxu₀)
      exact hmove hplace' huser hsettles har hxrisks (.inl hrx)
    · exact hpair hplace' huser hxrisks hax hxu heq
  · exact hmove hplace' huser hsettles hax₀ hxrisks (.inr ⟨rfl, hox⟩)

include hg' halone hreads in
theorem Prompt.below_evolve (hplace' : g'.PlaceOf address q) (horigin : origin address = address)
    (huser : user ∈ g'.readers q) : ¬g'.Before user address := by
  intro hbefore
  have hb := h.before_of_placeOf hg' halone hbefore (.inr (horigin.symm ▸ hplace'))
  rw [horigin] at hb
  have hplace := h.placeOf horigin hplace'
  by_cases hou : origin user = user
  · exact hp.not_before hplace (h.mem_readers hou huser) (hou ▸ hb)
  · obtain hread | ⟨hnot, -⟩ := hreads hplace' huser hou
    · exact hp.not_before hplace hread hb
    · exact hnot hb

include hg' hnew halone hrisks hreads hmove hpair in
/-- A change keeps the order if new operators fail only where old ones did. -/
theorem Prompt.evolve : g'.Prompt p := by
  have hold : ∀ {address op'}, address ∈ g'.attached → g'.op address = some op' → op'.isPlace →
      ∀ q ∈ op'.results, g'.PlaceOf address q ∧ origin address = address := by
    intro address op' haddress hop' hisPlace q hq
    refine ⟨placeOf_iff.mpr ⟨haddress, op', hop', hisPlace, hq⟩, ?_⟩
    by_contra hne
    simp [hnew haddress hne hop'] at hisPlace
  refine ⟨fun id hid op' hop' => hp.unchecked_evolve h hnew hid hop', ?_, ?_⟩
  · intro address haddress op' hop' hisPlace q hq user huser x _ hxrisks hax hxu
    obtain ⟨hplace', horigin⟩ := hold haddress hop' hisPlace q hq
    exact hp.ordered_evolve hg' h halone hrisks hreads hmove hpair hplace' horigin huser hxrisks
      hax hxu
  · intro address haddress op' hop' hisPlace q hq user huser
    obtain ⟨hplace', horigin⟩ := hold haddress hop' hisPlace q hq
    exact hp.below_evolve hg' h halone hreads hplace' horigin huser

end Evolve

theorem Prompt.of_kept (hp : g.Prompt p) (hg' : g'.Linked) (h : g.Evolves g' fun id => id)
    (hclosed : ∀ {a b}, b ∈ g'.attached → g.Before a b → a ∈ g'.attached) : g'.Prompt p := by
  refine hp.evolve hg' h (fun _ hne => absurd rfl hne) (fun _ _ => rfl) (fun _ hne => absurd rfl hne)
    (fun _ _ hne => absurd rfl hne) (fun hplace _ hsettles har hxrisks hcase => ?_)
    fun _ _ _ _ hxu heq => absurd heq (hxu.ne hg')
  obtain hrx | ⟨-, hne⟩ := hcase
  · have hr := hclosed hxrisks.1 hrx
    exact passed_iff.mpr ⟨_, h.settles hr rfl hsettles, h.before hplace.1 hr har,
      h.before hr hxrisks.1 hrx⟩
  · exact absurd rfl hne

theorem spliceOrigin_eq_self {id : OpId} (hne : id ∈ ids → id = old) :
    spliceOrigin old ids id = id := by
  unfold spliceOrigin
  split
  · exact (hne ‹_›).symm
  · rfl

/-- The change puts one new operator for an old one, or in front of it. -/
structure Adds (g g' : Graph) (origin : OpId → OpId) (old n : OpId) (new : Operator) : Prop
    extends g.Evolves g' origin where
  op_new : g'.op n = some new
  not_mem : n ∉ g.attached
  origin_new : origin n = old
  origin_self : ∀ {x}, x ≠ n → origin x = x

theorem Spliced.adds {n : OpId} {new : Operator} (h : g.Spliced g' old ids) (hg : g.Linked)
    (hfresh : n ∉ g.attached) (hn : g'.op n = some new) (hmem : n ∈ ids)
    (hids : ∀ x ∈ ids, x = n ∨ x = old) : g.Adds g' (spliceOrigin old ids) old n new where
  toEvolves := h.evolves (fun x hx hxo => by rwa [(hids x hx).resolve_right hxo]) hg
  op_new := hn
  not_mem := hfresh
  origin_new := if_pos hmem
  origin_self := fun {x} hx => spliceOrigin_eq_self fun hmem => (hids x hmem).resolve_left hx

section Adds

variable {n : OpId} {new : Operator} (h : g.Adds g' origin old n new)
include h

theorem Adds.eq_new (hx : origin x ≠ x) : x = n := by
  by_contra hne
  exact hx (h.origin_self hne)

theorem Adds.origin_eq (hx : x ∈ g.attached) : origin x = x :=
  h.origin_self fun heq => h.not_mem (heq ▸ hx)

theorem Adds.placeOf_old (hplace : new.isPlace = false) (hq : g'.PlaceOf address q) :
    g.PlaceOf address q := by
  refine h.placeOf (h.origin_self ?_) hq
  rintro rfl
  obtain ⟨-, op', hop', hisPlace, -⟩ := placeOf_iff.mp hq
  obtain rfl := Option.some.inj (h.op_new.symm.trans hop')
  simp [hplace] at hisPlace

theorem Adds.passed (hplace : new.isPlace = false) (hq : g'.PlaceOf address q)
    (hr : r ∈ g'.attached) (hsettles : g.Settles p q r) (har : g.Before address r)
    (hx : x ∈ g'.attached) (hrx : g.Before r (origin x)) : g'.Passed p q address x := by
  have hrself := h.origin_eq hsettles.1
  have haself := h.origin_eq (h.placeOf_old hplace hq).1
  exact passed_iff.mpr ⟨r, h.settles hr hrself hsettles, h.before hq.1 hr (by rwa [haself, hrself]),
    h.before hr hx (by rwa [hrself])⟩

theorem Adds.pair (hg' : g'.Linked) (hxu : g'.Before x user) (heq : origin x = origin user) :
    x = n ∧ user = old ∨ x = old ∧ user = n := by
  have hne := hxu.ne hg'
  by_cases hxn : x = n
  · subst hxn
    rw [h.origin_new, h.origin_self hne.symm] at heq
    exact .inl ⟨rfl, heq.symm⟩
  · rw [h.origin_self hxn] at heq
    by_cases hun : user = n
    · subst hun
      exact .inr ⟨heq.trans h.origin_new, rfl⟩
    · exact absurd (heq.trans (h.origin_self hun)) hne

/-- A new operator keeps the order if it fails only where the old one did. -/
theorem Prompt.add (hp : g.Prompt p) (hg' : g'.Linked) (hplace : new.isPlace = false)
    (hold : ∀ {q}, ¬g'.PlaceOf old q)
    (hrisks : ∀ {q}, g'.Risks p q n → g.Risks p q old ∨ g.Settles p q old)
    (hreads : ∀ {address q}, g.PlaceOf address q → q ∈ new.reads → old ∈ g.readers q ∨
      ¬g.Before old address ∧ ∀ {x}, g.Risks p q x → g.Before address x → g.Before x old →
        g.Passed p q address x)
    (hmove : ∀ {address q user r x}, g'.PlaceOf address q → user ∈ g'.readers q →
      g.Settles p q r → g.Before address r → g'.Risks p q x →
      (g.Before r (origin x) ∨ r = old ∧ x = n) → g'.Passed p q address x)
    (hpair : ∀ {address q user x}, g'.PlaceOf address q → user ∈ g'.readers q → g'.Risks p q x →
      g'.Before x user → ¬(x = n ∧ user = old ∨ x = old ∧ user = n)) : g'.Prompt p := by
  refine hp.evolve hg' h.toEvolves ?_ ?_ ?_ ?_ ?_ ?_
  · intro id op' _ hid hop'
    obtain rfl := h.eq_new hid
    rwa [Option.some.inj (h.op_new.symm.trans hop')] at hplace
  · intro x q _ hq
    by_contra hox
    obtain rfl := h.eq_new hox
    rw [h.origin_new] at hq
    exact hold hq
  · intro q x hxrisks hox
    obtain rfl := h.eq_new hox
    rw [h.origin_new]
    exact hrisks hxrisks
  · intro address q user hq huser hou
    obtain rfl := h.eq_new hou
    rw [h.origin_new]
    exact hreads (h.placeOf_old hplace hq) (mem_reads_of_mem_readers huser h.op_new)
  · intro address q user r x hq huser hsettles har hxrisks hcase
    obtain hrx | ⟨heq, hox⟩ := hcase
    · exact hmove hq huser hsettles har hxrisks (.inl hrx)
    · obtain rfl := h.eq_new hox
      exact hmove hq huser hsettles har hxrisks (.inr ⟨heq.trans h.origin_new, rfl⟩)
  · intro address q user x hq huser hxrisks _ hxu heq
    exact absurd (h.pair hg' hxu heq) (hpair hq huser hxrisks hxu)

end Adds

/-- An operator put for another one keeps the order, if it fails only where that one did and reads
no other address; and something else reads through the addresses that it does not read through. -/
theorem Prompt.replaced {n : OpId} {new : Operator} (hp : g.Prompt p) (hg : g.Linked)
    (hg' : g'.Linked) (h : g.Spliced g' old [n]) (hfresh : n ∉ g.attached)
    (hold : g.op old = some op) (hn : g'.op n = some new) (hplace : new.isPlace = false)
    (hrisks : ∀ {q}, new.silent p → new.takes p q = false → op.silent p ∧ op.isPlace = false)
    (hreads : ∀ {address q}, g.PlaceOf address q → q ∈ new.reads → q ∈ op.reads ∨
      ¬g.Before old address ∧ ∀ {x}, g.Risks p q x → g.Before address x → g.Before x old →
        g.Passed p q address x)
    (hsettled : ∀ {address q user}, g.PlaceOf address q → user ∈ g'.readers q →
      g.Before address old → op.derefs p q ∨ op.isStore →
      g'.Settles p q n ∨ ∃ r, r ≠ old ∧ g.Settles p q r ∧ g.Before address r ∧ g.Before r old) :
    g'.Prompt p := by
  have hne : n ≠ old := fun heq => hfresh (heq ▸ h.attached)
  have ha := h.adds hg hfresh hn (List.mem_singleton.mpr rfl)
    fun x hx => .inl (List.mem_singleton.mp hx)
  have hgone : old ∉ g'.attached := by
    intro hmem
    obtain hmem | ⟨hmem, -⟩ := h.mem_attached.mp hmem
    · exact hne (List.mem_singleton.mp hmem).symm
    · exact hmem rfl
  refine hp.add ha hg' hplace (fun hq => hgone hq.1) ?_ ?_ ?_ ?_
  · intro q hnrisks
    obtain ⟨-, op', hop', hsilent, htakes⟩ := risks_iff.mp hnrisks
    obtain rfl := Option.some.inj (hn.symm.trans hop')
    obtain ⟨hsilent₀, hisPlace⟩ := hrisks hsilent htakes
    cases htakes₀ : op.takes p q with
    | false => exact .inl (risks_iff.mpr ⟨h.attached, op, hold, hsilent₀, htakes₀⟩)
    | true =>
      refine .inr (settles_iff.mpr ⟨h.attached, op, hold, .inl ?_⟩)
      simpa [Operator.takes, hisPlace] using htakes₀
  · intro address q hq hread
    exact (hreads hq hread).imp_left (mem_readers_of_reads h.attached hold)
  · intro address q user r x hplace' huser hsettles har hxrisks hcase
    have hq := ha.placeOf_old hplace hplace'
    have hpassed : ∀ {r}, r ≠ old → g.Settles p q r → g.Before address r →
        g.Before r (spliceOrigin old [n] x) → g'.Passed p q address x :=
      fun hro hsettles har hrx => ha.passed hplace hplace'
        (h.mem_attached.mpr (.inr ⟨hro, hsettles.1⟩)) hsettles har hxrisks.1 hrx
    by_cases hro : r = old
    · subst hro
      obtain ⟨-, op', hop', hcaseOp⟩ := settles_iff.mp hsettles
      obtain rfl := Option.some.inj (hold.symm.trans hop')
      obtain hsettled | ⟨r', hne', hsettles', har', hrr'⟩ := hsettled hq huser har hcaseOp
      · have hrx : g.Before r (spliceOrigin r [n] x) := by
          refine hcase.resolve_right ?_
          rintro ⟨-, rfl⟩
          exact hsettled.not_risks hxrisks
        refine passed_iff.mpr ⟨n, hsettled, ha.before hplace'.1 hsettled.1 ?_,
          ha.before hsettled.1 hxrisks.1 (by rwa [ha.origin_new])⟩
        rwa [ha.origin_eq hq.1, ha.origin_new]
      · refine hpassed hne' hsettles' har' ?_
        obtain hrx | ⟨-, rfl⟩ := hcase
        · exact hrr'.trans hg hrx
        · rwa [ha.origin_new]
    · exact hpassed hro hsettles har (hcase.resolve_right fun heq => hro heq.1)
  · intro address q user x _ _ _ hxu hpair
    obtain ⟨-, rfl⟩ | ⟨rfl, -⟩ := hpair
    · exact hgone hxu.mem_right
    · exact hgone hxu.mem_left

/-- An operator that settles nothing can go. -/
theorem Prompt.erased (hp : g.Prompt p) (hg : g.Linked) (hg' : g'.Linked) (h : g.Spliced g' old [])
    (hsettled : ∀ {address q}, g.PlaceOf address q → address ≠ old → ¬g.Settles p q old) :
    g'.Prompt p := by
  have horigin : spliceOrigin old [] = fun id => id := funext fun id => if_neg List.not_mem_nil
  have hev : g.Evolves g' fun id => id := horigin ▸ h.evolves (by simp) hg
  have hgone : old ∉ g'.attached := fun hmem =>
    ((h.mem_attached.mp hmem).resolve_left List.not_mem_nil).1 rfl
  refine hp.evolve hg' hev (fun _ hne => absurd rfl hne) (fun _ _ => rfl)
    (fun _ hne => absurd rfl hne) (fun _ _ hne => absurd rfl hne)
    (fun {address q user r x} hplace _ hsettles har hxrisks hcase => ?_)
    fun _ _ _ _ hxu heq => absurd heq (hxu.ne hg')
  obtain hrx | ⟨-, hne⟩ := hcase
  · have hro : r ≠ old := by
      rintro rfl
      exact hsettled (hev.placeOf rfl hplace) (fun heq => hgone (heq ▸ hplace.1)) hsettles
    have hr : r ∈ g'.attached := h.mem_attached.mpr (.inr ⟨hro, hsettles.1⟩)
    exact passed_iff.mpr ⟨r, hev.settles hr rfl hsettles, hev.before hplace.1 hr har,
      hev.before hr hxrisks.1 hrx⟩
  · exact absurd rfl hne

/-- A load can be put before an operator that reads through the same pointer. -/
theorem Prompt.inserted {n : OpId} {new : Operator} {pointer : VarId} (hp : g.Prompt p)
    (hg : g.Linked) (hg' : g'.Linked) (h : g.Spliced g' old [n, old]) (hfresh : n ∉ g.attached)
    (hold : g.op old = some op) (hn : g'.op n = some new) (hplace : new.isPlace = false)
    (hderefs : op.derefs p pointer) (hreads : new.reads = [pointer])
    (htakes : new.derefs p pointer) (hsilent : new.silent p → op.silent p)
    (hothers : ∀ {address q}, g.PlaceOf address q → q ∈ op.reads → q = pointer) :
    g'.Prompt p := by
  have ha := h.adds hg hfresh hn List.mem_cons_self
    fun x hx => (List.mem_cons.mp hx).imp_right List.mem_singleton.mp
  have hop : g'.op old = some op :=
    (h.op (.inr (by simp)) (hg.lt_of_mem h.attached)).trans hold
  have hoplace := Operator.not_isPlace_of_derefs hderefs
  have hrisks : ∀ {q}, g'.Risks p q n → q ≠ pointer ∧ new.silent p := by
    intro q hnrisks
    obtain ⟨-, op', hop', hsil, htake⟩ := risks_iff.mp hnrisks
    obtain rfl := Option.some.inj (hn.symm.trans hop')
    refine ⟨?_, hsil⟩
    rintro rfl
    simp [Operator.takes_of_derefs htakes] at htake
  refine hp.add ha hg' hplace ?_ ?_ ?_ ?_ ?_
  · intro q hq
    obtain ⟨-, op', hop', hisPlace, -⟩ := placeOf_iff.mp hq
    obtain rfl := Option.some.inj (hop.symm.trans hop')
    simp [hoplace] at hisPlace
  · intro q hnrisks
    obtain ⟨hqp, hsil⟩ := hrisks hnrisks
    refine .inl (risks_iff.mpr ⟨h.attached, op, hold, hsilent hsil, ?_⟩)
    cases htake : op.takes p q with
    | false => rfl
    | true =>
      have hderefs' : op.derefs p q := by simpa [Operator.takes, hoplace] using htake
      exact absurd (Operator.eq_of_derefs hderefs' hderefs) hqp
  · intro address q _ hread
    obtain rfl : q = pointer := by simpa [hreads] using hread
    exact .inl (mem_readers_of_reads h.attached hold (Operator.mem_reads_of_derefs hderefs))
  · intro address q user r x hplace' _ hsettles har hxrisks hcase
    have hr : r ∈ g'.attached := by
      by_cases hro : r = old
      · exact h.mem_attached.mpr (.inl (by simp [hro]))
      · exact h.mem_attached.mpr (.inr ⟨hro, hsettles.1⟩)
    obtain hrx | ⟨rfl, rfl⟩ := hcase
    · exact ha.passed hplace hplace' hr hsettles har hxrisks.1 hrx
    · obtain ⟨-, op', hop', hcaseOp⟩ := settles_iff.mp hsettles
      obtain rfl := Option.some.inj (hold.symm.trans hop')
      have hderefs' := hcaseOp.resolve_right (by simp [Operator.not_isStore_of_derefs hderefs])
      exact absurd (Operator.eq_of_derefs hderefs' hderefs) (hrisks hxrisks).1
  · intro address q user x hplace' huser hxrisks _ hpair
    obtain ⟨rfl, rfl⟩ | ⟨rfl, rfl⟩ := hpair
    · exact (hrisks hxrisks).1 (hothers (ha.placeOf_old hplace hplace')
        (mem_reads_of_mem_readers huser hop))
    · obtain rfl : q = pointer := by simpa [hreads] using mem_reads_of_mem_readers huser hn
      obtain ⟨-, xOp, hxOp, -, htake⟩ := risks_iff.mp hxrisks
      obtain rfl := Option.some.inj (hop.symm.trans hxOp)
      simp [Operator.takes_of_derefs hderefs] at htake

end Graph

namespace Operator

variable {op : Operator} {p : Pool} {g g' : Graph} {v q y : VarId} {e : Expr}

theorem head?_substitute (op : Operator) (v : VarId) (e : Expr) : (op.substitute v e).args.head? =
    op.args.head?.map fun a => if a = .var v then e else a := List.head?_map

theorem derefs_substitute (hqv : q ≠ v) (h : op.derefs p q) : (op.substitute v e).derefs p q := by
  simp only [derefs, Bool.and_eq_true, decide_eq_true_eq] at h ⊢
  refine ⟨?_, h.2⟩
  rw [head?_substitute, h.1, Option.map_some, if_neg (by simpa using hqv)]

theorem derefs_substitute_self (h : op.derefs p v) : (op.substitute v (.var y)).derefs p y := by
  simp only [derefs, Bool.and_eq_true, decide_eq_true_eq] at h ⊢
  refine ⟨?_, h.2⟩
  rw [head?_substitute, h.1, Option.map_some, if_pos rfl]

theorem takes_substitute (hqv : q ≠ v) (h : op.takes p q) : (op.substitute v e).takes p q := by
  simp only [takes, Bool.or_eq_true, Bool.and_eq_true, readsVar, List.contains_iff_mem] at h ⊢
  obtain h | ⟨hplace, hread⟩ := h
  · exact .inl (derefs_substitute hqv h)
  · exact .inr ⟨hplace, mem_reads_substitute.mpr (.inl ⟨hread, hqv⟩)⟩

theorem takes_substitute_self (h : op.takes p v) : (op.substitute v (.var y)).takes p y := by
  simp only [takes, Bool.or_eq_true, Bool.and_eq_true, readsVar, List.contains_iff_mem] at h ⊢
  obtain h | ⟨hplace, hread⟩ := h
  · exact .inl (derefs_substitute_self h)
  · exact .inr ⟨hplace, mem_reads_substitute.mpr (.inr ⟨hread, rfl⟩)⟩

theorem silent_of_substitute (haddress : v ∈ op.reads → op.kind ≠ .addressOf)
    (h : (op.substitute v e).silent p) : op.silent p := by
  by_cases hv : v ∈ op.reads
  · unfold silent at h ⊢
    have hkind : (op.substitute v e).kind = op.kind := rfl
    rw [hkind] at h
    split at h <;> try exact h
    exact absurd ‹_› (haddress hv)
  · rwa [Graph.substitute_of_not_readsVar e (by simpa [readsVar] using hv)] at h

theorem checksField_substitute (htypes : ∀ e, g'.typeOf e = g.typeOf e)
    (htype : g.typeOf e = g.typeOf (.var v)) :
    (op.substitute v e).checksField p g' = op.checksField p g := by
  have hkind : (op.substitute v e).kind = op.kind := rfl
  have hcheck : (op.substitute v e).checkForNull = op.checkForNull := rfl
  unfold checksField
  rw [hkind, hcheck, head?_substitute]
  cases op.args.head? with
  | none => rfl
  | some a =>
    have htype' : g'.typeOf (if a = .var v then e else a) = g.typeOf a := by
      split
      · rename_i hav
        rw [htypes, htype, hav]
      · exact htypes a
    simp only [Option.map_some, Option.any_some, Graph.pointeeOf_congr htype']

end Operator

namespace Graph

variable {g g' : Graph} {p : Pool} {ids : List OpId} {v : VarId} {e : Expr}

section Rewired

variable {address user x r : OpId} {q w : VarId} (h : g.Rewired g' ids v e)
  (hall : ∀ id ∈ g.attached, g'.op id = (g.op id).map (·.substitute v e))
include h hall

theorem Rewired.placeOf (hplace : g'.PlaceOf address q) : g.PlaceOf address q := by
  obtain ⟨haddress, op', hop', hisPlace, hq⟩ := placeOf_iff.mp hplace
  obtain ⟨haddress, op, hop, rfl⟩ := h.exists_op hall haddress hop'
  exact placeOf_iff.mpr ⟨haddress, op, hop, hisPlace, hq⟩

theorem Rewired.settles (hw : ∀ {op : Operator}, op.derefs p w → (op.substitute v e).derefs p q)
    (hsettles : g.Settles p w r) : g'.Settles p q r := by
  obtain ⟨hr, op, hop, hcase⟩ := settles_iff.mp hsettles
  exact settles_iff.mpr ⟨h.attached_eq ▸ hr, op.substitute v e, by rw [hall r hr, hop]; rfl,
    hcase.imp_left hw⟩

theorem Rewired.passed (hw : ∀ {op : Operator}, op.derefs p w → (op.substitute v e).derefs p q)
    (hpassed : g.Passed p w address x) : g'.Passed p q address x := by
  have hbefore : ∀ {a b}, g'.Before a b ↔ g.Before a b := before_of_blocks_eq h.blocks
  obtain ⟨r, hr, har, hrx⟩ := passed_iff.mp hpassed
  exact passed_iff.mpr ⟨r, h.settles hall hw hr, hbefore.mpr har, hbefore.mpr hrx⟩

theorem Rewired.risks (hfixed : ∀ {id op}, id ∈ g.attached → g.op id = some op → v ∈ op.reads →
      op.kind ≠ .addressOf)
    (hw : ∀ {op : Operator}, op.takes p w → (op.substitute v e).takes p q)
    (hrisks : g'.Risks p q x) : g.Risks p w x := by
  obtain ⟨hx, op', hop', hsilent, htakes⟩ := risks_iff.mp hrisks
  obtain ⟨hx, op, hop, rfl⟩ := h.exists_op hall hx hop'
  refine risks_iff.mpr ⟨hx, op, hop, Operator.silent_of_substitute (hfixed hx hop) hsilent, ?_⟩
  cases htake : op.takes p w with
  | false => rfl
  | true => simp [hw htake] at htakes

end Rewired

theorem PlaceOf.not_risks {twin : OpId} {q w : VarId} (h : g.PlaceOf twin w)
    (hread : twin ∈ g.readers q) : ¬g.Risks p q twin := by
  intro hrisks
  obtain ⟨-, op, hop, hisPlace, -⟩ := placeOf_iff.mp h
  obtain ⟨-, op', hop', -, htakes⟩ := risks_iff.mp hrisks
  obtain rfl := Option.some.inj (hop.symm.trans hop')
  have hread : op.readsVar q := by
    simpa [Operator.readsVar] using mem_reads_of_mem_readers hread hop
  simp [Operator.takes, hisPlace, hread] at htakes

/-- Readers of a variable can read another operand instead, if that is no address of a field or an
element, or if the variable was one that was made of it. -/
theorem Prompt.rewired (hp : g.Prompt p) (hg : g.Linked) (h : g.Rewired g' ids v e)
    (hall : ∀ id ∈ g.attached, g'.op id = (g.op id).map (·.substitute v e))
    (htype : g.typeOf e = g.typeOf (.var v)) (hne : e ≠ .var v)
    (hfixed : ∀ {id op}, id ∈ g.attached → g.op id = some op → v ∈ op.reads →
      op.kind ≠ .addressOf)
    (hvalue : ∀ {y address}, e = .var y → g.PlaceOf address y → ∃ twin, twin ≠ address ∧
      g.PlaceOf twin v ∧ twin ∈ g.readers y ∧ ∀ {user}, user ∈ g.readers v →
        g.Before twin user ∧ (g.Before twin address → ¬g.Before address user)) :
    g'.Prompt p := by
  have htypes : ∀ e, g'.typeOf e = g.typeOf e := (sameVars_of_vars_eq h.vars).typeOf
  have hbefore : ∀ {a b}, g'.Before a b ↔ g.Before a b := before_of_blocks_eq h.blocks
  refine ⟨?_, ?_, ?_⟩
  · intro id hid op' hop'
    obtain ⟨hid, op, hop, rfl⟩ := h.exists_op hall hid hop'
    rw [Operator.checksField_substitute htypes htype]
    exact hp.unchecked id hid op hop
  · intro address haddress op' hop' hisPlace q hq user huser x _ hxrisks hax hxu
    have hplace := h.placeOf hall (placeOf_iff.mpr ⟨haddress, op', hop', hisPlace, hq⟩)
    rw [hbefore] at hax hxu
    have hread := (h.mem_readers hall).mp huser
    have hqv : q ≠ v := by
      rintro rfl
      obtain ⟨-, hqq⟩ | ⟨-, he⟩ := hread
      · exact hqq rfl
      · exact hne he
    have hrisks := h.risks hall hfixed (Operator.takes_substitute hqv) hxrisks
    have hdone : g.Passed p q address x → g'.Passed p q address x :=
      h.passed hall (Operator.derefs_substitute hqv)
    obtain ⟨hread, -⟩ | ⟨hv, rfl⟩ := hread
    · exact hdone (hp.passed hplace hread hrisks hax hxu)
    -- The user read the alias; the failing operator comes before the twin or after it.
    obtain ⟨twin, hne', htwin, hreader, hseen⟩ := hvalue rfl hplace
    obtain ⟨hau, hnot⟩ := hseen hv
    have haa : g.Before address twin := by
      obtain heq | hab | hab := (hax.trans hg hxu).connected hg hau
      · exact absurd heq.symm hne'
      · exact hab
      · exact absurd (hax.trans hg hxu) (hnot hab)
    obtain rfl | hxa | hax' := hxu.connected hg hau
    · exact absurd hrisks (htwin.not_risks hreader)
    · exact hdone (hp.passed hplace hreader hrisks hax hxa)
    · have hrisks' := h.risks hall hfixed Operator.takes_substitute_self hxrisks
      obtain ⟨r, hr, har, hrx⟩ := passed_iff.mp (hp.passed htwin hv hrisks' hax' hxu)
      exact h.passed hall Operator.derefs_substitute_self
        (passed_iff.mpr ⟨r, hr, haa.trans hg har, hrx⟩)
  · intro address haddress op' hop' hisPlace q hq user huser hua
    have hplace := h.placeOf hall (placeOf_iff.mpr ⟨haddress, op', hop', hisPlace, hq⟩)
    rw [hbefore] at hua
    obtain ⟨hread, -⟩ | ⟨hv, rfl⟩ := (h.mem_readers hall).mp huser
    · exact hp.not_before hplace hread hua
    · obtain ⟨twin, -, -, hreader, hseen⟩ := hvalue rfl hplace
      exact hp.not_before hplace hreader ((hseen hv).1.trans hg hua)

end Graph
end ScalarLowering
