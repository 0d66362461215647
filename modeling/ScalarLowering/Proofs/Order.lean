import ScalarLowering.Proofs.Decisions
import ScalarLowering.Proofs.Runs

/-! The order of the operators within their blocks, and what the lowering reads off it. -/

namespace ScalarLowering
namespace Graph

variable {g : Graph} {d : BlockId} {a b c id : OpId} {pre rest pre' rest' : List OpId}

def Before (g : Graph) (first second : OpId) : Prop :=
  ∃ block ∈ g.blocks.toList, [first, second].Sublist block.ops

instance (g : Graph) (first second : OpId) : Decidable (g.Before first second) :=
  inferInstanceAs (Decidable (∃ block ∈ g.blocks.toList, [first, second].Sublist block.ops))

theorem mem_blocks {block : Block} : block ∈ g.blocks.toList ↔ ∃ b, g.block b = some block := by
  rw [List.mem_iff_getElem?]
  constructor
  · rintro ⟨i, hi⟩
    exact ⟨⟨i⟩, by simpa [Graph.block] using hi⟩
  · rintro ⟨b, hb⟩
    exact ⟨b.index, by simpa [Graph.block] using hb⟩

theorem before_iff : g.Before a b ↔ ∃ pre rest, g.At pre (b :: rest) ∧ a ∈ pre := by
  constructor
  · rintro ⟨block, hblock, hsub⟩
    obtain ⟨c, hc⟩ := mem_blocks.mp hblock
    obtain ⟨l, r, hops, ha, hb⟩ := List.cons_sublist_iff.mp hsub
    obtain ⟨m, rest, rfl⟩ := List.append_of_mem (List.singleton_sublist.mp hb)
    exact ⟨l ++ m, rest, ⟨c, block, hc, by simp [hops]⟩, List.mem_append_left m ha⟩
  · rintro ⟨pre, rest, ⟨c, block, hc, hops⟩, ha⟩
    refine ⟨block, mem_blocks.mpr ⟨c, hc⟩, List.cons_sublist_iff.mpr ⟨pre, b :: rest, hops, ha, ?_⟩⟩
    exact List.singleton_sublist.mpr List.mem_cons_self

theorem At.unique (hg : g.Linked) (h : g.At pre (id :: rest)) (h' : g.At pre' (id :: rest')) :
    pre = pre' ∧ rest = rest' := by
  obtain ⟨b, block, hb, hops⟩ := h
  obtain ⟨b', block', hb', hops'⟩ := h'
  have hid := (hg.listed hb).mp (by simp [hops] : id ∈ block.ops)
  have hid' := (hg.listed hb').mp (by simp [hops'] : id ∈ block'.ops)
  obtain rfl := Option.some.inj (hid.symm.trans hid')
  obtain rfl := Option.some.inj (hb.symm.trans hb')
  have hidx : ∀ {pre rest}, block.ops = pre ++ id :: rest → pre.length = block.ops.idxOf id := by
    intro pre rest hops
    have hnodup := hg.nodup hb
    rw [hops, List.nodup_append] at hnodup
    have hmem : id ∉ pre := fun hid => hnodup.2.2 id hid id List.mem_cons_self rfl
    rw [hops, List.idxOf_append_of_notMem hmem, List.idxOf_cons_self, Nat.add_zero]
  have hlength : pre.length = pre'.length := (hidx hops).trans (hidx hops').symm
  obtain ⟨hpre, hrest⟩ := List.append_inj (hops.symm.trans hops') hlength
  exact ⟨hpre, (List.cons.inj hrest).2⟩

theorem At.mem_pre_iff (hg : g.Linked) (h : g.At pre (id :: rest)) : a ∈ pre ↔ g.Before a id := by
  constructor
  · exact fun ha => before_iff.mpr ⟨pre, rest, h, ha⟩
  · intro hbefore
    obtain ⟨pre', rest', hat, ha⟩ := before_iff.mp hbefore
    rwa [(h.unique hg hat).1]

theorem At.split (h : g.At (pre ++ a :: pre') rest) : g.At pre (a :: (pre' ++ rest)) := by
  obtain ⟨b, block, hb, hops⟩ := h
  exact ⟨b, block, hb, by simpa using hops⟩

theorem At.before_of_mem (h : g.At (pre ++ a :: pre') rest) (hb : b ∈ pre') : g.Before a b := by
  obtain ⟨front, back, rfl⟩ := List.mem_iff_append.mp hb
  have hat : g.At ((pre ++ a :: front) ++ b :: back) rest := by simpa using h
  exact before_iff.mpr ⟨_, _, hat.split, by simp⟩

theorem Before.mem_left (h : g.Before a b) : a ∈ g.attached := by
  obtain ⟨block, hblock, hsub⟩ := h
  obtain ⟨c, hc⟩ := mem_blocks.mp hblock
  exact mem_attached.mpr ⟨c, block, hc, hsub.subset (by simp)⟩

theorem Before.mem_right (h : g.Before a b) : b ∈ g.attached := by
  obtain ⟨block, hblock, hsub⟩ := h
  obtain ⟨c, hc⟩ := mem_blocks.mp hblock
  exact mem_attached.mpr ⟨c, block, hc, hsub.subset (by simp)⟩

theorem Before.trans (hg : g.Linked) (h : g.Before a b) (h' : g.Before b c) : g.Before a c := by
  obtain ⟨pre, rest, hat, hb⟩ := before_iff.mp h'
  obtain ⟨l, r, rfl⟩ := List.append_of_mem hb
  have ha := (hat.split.mem_pre_iff hg).mpr h
  exact before_iff.mpr ⟨_, rest, hat, List.mem_append_left _ ha⟩

theorem Before.irrefl (hg : g.Linked) : ¬g.Before a a := by
  rintro ⟨block, hblock, hsub⟩
  obtain ⟨b, hb⟩ := mem_blocks.mp hblock
  simpa using (hg.nodup hb).sublist hsub

theorem Before.ne (hg : g.Linked) (h : g.Before a b) : a ≠ b := by
  rintro rfl
  exact Before.irrefl hg h

/-- Of two operators before a third one, one stands before the other. -/
theorem Before.connected (h : g.Before a c) (hg : g.Linked) (h' : g.Before b c) :
    a = b ∨ g.Before a b ∨ g.Before b a := by
  obtain ⟨pre, rest, hat, ha⟩ := before_iff.mp h
  obtain ⟨l, r, rfl⟩ := List.append_of_mem ha
  have hb := (hat.mem_pre_iff hg).mpr h'
  obtain hb | hb := List.mem_append.mp hb
  · exact .inr (.inr ((hat.split.mem_pre_iff hg).mp hb))
  · obtain rfl | hb := List.mem_cons.mp hb
    · exact .inl rfl
    · obtain ⟨m, n, rfl⟩ := List.append_of_mem hb
      have hat' : g.At (l ++ a :: m) (b :: (n ++ c :: rest)) := by
        have : l ++ a :: (m ++ b :: n) = (l ++ a :: m) ++ b :: n := by simp
        rw [this] at hat
        exact hat.split
      exact .inr (.inl ((hat'.mem_pre_iff hg).mp (by simp)))

theorem at_of_idxOf? {block : Block} {i : Nat} (hc : g.block d = some block)
    (hi : block.ops.idxOf? a = some i) :
    g.At (block.ops.take i) (a :: block.ops.drop (i + 1)) := by
  obtain ⟨hlt, ha, -⟩ := List.idxOf?_eq_some_iff.mp hi
  refine ⟨d, block, hc, ?_⟩
  rw [← ha, ← List.drop_eq_getElem_cons hlt, List.take_append_drop]

theorem before_iff_idxOf? (hg : g.Linked) {block : Block} {i j : Nat} (hc : g.block d = some block)
    (hi : block.ops.idxOf? a = some i) (hj : block.ops.idxOf? b = some j) :
    g.Before a b ↔ i < j := by
  obtain ⟨hlt, ha, hfirst⟩ := List.idxOf?_eq_some_iff.mp hi
  rw [← (at_of_idxOf? hc hj).mem_pre_iff hg]
  constructor
  · intro hmem
    obtain ⟨k, hk, hka⟩ := List.getElem_of_mem hmem
    rw [List.length_take] at hk
    rw [List.getElem_take] at hka
    by_contra hij
    exact hfirst k (by omega) hka
  · intro hij
    exact List.mem_take_iff_getElem.mpr ⟨i, by omega, ha⟩

theorem idxOf?_of_mem {l : List OpId} (h : a ∈ l) : ∃ i, l.idxOf? a = some i :=
  Option.isSome_iff_exists.mp (List.isSome_idxOf?.mpr h)

theorem allM_eq_true {α : Type} {f : α → Except Error Bool} {l : List α} :
    l.allM f = .ok true ↔ ∀ x ∈ l, f x = .ok true := by
  induction l with
  | nil => simp [List.allM]
  | cons x l ih =>
    rw [List.allM, Except.bind_eq_ok, List.forall_mem_cons, ← ih]
    constructor
    · rintro ⟨b, hb, h⟩
      cases b with
      | true => exact ⟨hb, h⟩
      | false => cases h
    · rintro ⟨hx, h⟩
      exact ⟨true, hx, h⟩

variable {p : Pool} {chains : Chains}

theorem seenByAll_spec (hg : g.Linked) (hc : Tracks chains g) {result : VarId} {b : BlockId}
    {block : Block} {start : Nat} (hb : g.block b = some block)
    (hstart : block.ops.idxOf? id = some start) (defs : List OpId)
    (h : (do
      let users ← g.attachedUses chains result
      users.allM fun reader => do
        let op ← g.op reader
        if op.kind = .addressOf then return false
        match block.ops.idxOf? reader with
        | none => return false
        | some stop =>
          return start < stop && !(defs.filterMap fun d => block.ops.idxOf? d).any (fun w =>
            start < w && w < stop) : Except Error Bool) = .ok true)
    {reader : OpId} (hreader : reader ∈ g.readers result) :
    g.Before id reader ∧ (∀ {op}, g.op reader = some op → op.kind ≠ .addressOf) ∧
      ∀ {w}, w ∈ defs → g.Before id w → ¬g.Before w reader := by
  obtain ⟨users, husers, h⟩ := Except.bind_eq_ok.mp h
  obtain rfl := hc.attachedUses husers
  have h := allM_eq_true.mp h reader hreader
  simp only [Except.bind_eq_ok, Error.lift_eq_ok] at h
  obtain ⟨op', hop', h⟩ := h
  split at h
  · simp at h
  rename_i hkind
  split at h
  case h_1 => simp at h
  rename_i stop hstop
  simp only [Except.pure_eq_ok, Bool.and_eq_true, decide_eq_true_eq] at h
  obtain ⟨hlt, hnone⟩ := h
  refine ⟨(before_iff_idxOf? hg hb hstart hstop).mpr hlt, fun {op} hop => ?_, ?_⟩
  · rwa [Option.some.inj (hop.symm.trans hop')]
  · intro w hw hbefore hbefore'
    have hmem := ((at_of_idxOf? hb hstop).mem_pre_iff hg).mpr hbefore'
    obtain ⟨k, hk⟩ := idxOf?_of_mem (List.mem_of_mem_take hmem)
    have h₁ := (before_iff_idxOf? hg hb hstart hk).mp hbefore
    have h₂ := (before_iff_idxOf? hg hb hk hstop).mp hbefore'
    simp only [Bool.not_eq_true', List.any_eq_false, List.mem_filterMap] at hnone
    simpa [h₁, h₂] using hnone k ⟨w, hw, hk⟩

/-- Every reader of the result comes later in the block, takes no address, and no definition of
the value lies between. -/
theorem seenByReaders_spec (hg : g.Linked) (hc : Tracks chains g) {result : VarId} {value : Expr}
    (h : g.seenByReaders chains id result value = .ok true) {reader : OpId}
    (hreader : reader ∈ g.readers result) :
    g.Before id reader ∧ (∀ {op}, g.op reader = some op → op.kind ≠ .addressOf) ∧
      ∀ {y}, value = .var y → ∀ {w}, w ∈ g.definers y → g.Before id w → ¬g.Before w reader := by
  simp only [seenByReaders, Except.bind_eq_ok, Error.lift_eq_ok] at h
  obtain ⟨op, hop, h⟩ := h
  split at h
  case h_2 => simp at h
  rename_i b hblockOf
  simp only [Except.bind_eq_ok, Error.lift_eq_ok] at h
  obtain ⟨block, hb, h⟩ := h
  split at h
  case h_2 => simp at h
  rename_i start hstart
  cases value with
  | const k =>
    obtain ⟨h₁, h₂, -⟩ := seenByAll_spec hg hc hb hstart [] h hreader
    exact ⟨h₁, h₂, by simp⟩
  | var v =>
    obtain ⟨defs, hdefs, h⟩ := Except.bind_eq_ok.mp h
    obtain rfl := hc.attachedDefs hdefs
    obtain ⟨h₁, h₂, h₃⟩ := seenByAll_spec hg hc hb hstart _ h hreader
    refine ⟨h₁, h₂, ?_⟩
    rintro y ⟨⟩
    exact h₃

theorem isReadOnly_spec (hc : Tracks chains g) {pointer : VarId}
    (h : g.isReadOnly p chains pointer = .ok true) {user : OpId} (huser : user ∈ g.readers pointer)
    {op : Operator} (hop : g.op user = some op) : p.readsThrough pointer op = some true := by
  obtain ⟨users, husers, h⟩ := Except.bind_eq_ok.mp h
  obtain rfl := hc.attachedUses husers
  have h := allM_eq_true.mp h user huser
  simp only [Except.bind_eq_ok, Error.lift_eq_ok] at h
  obtain ⟨op', hop', h⟩ := h
  rwa [Option.some.inj (hop.symm.trans hop')]

/-- A stable variable has at most one definition, and pointers to it that are taken as its
address are only read through. -/
theorem isStable_spec (hc : Tracks chains g) {v : VarId}
    (h : g.isStable p chains (.var v) = .ok true) :
    (∀ {d d'}, d ∈ g.definers v → d' ∈ g.definers v → d = d') ∧
      ∀ {id op pointer}, id ∈ g.readers v → g.op id = some op → op.kind = .addressOf →
        op.result? = some pointer → ∀ {user op'}, user ∈ g.readers pointer →
          g.op user = some op' → p.readsThrough pointer op' = some true := by
  simp only [isStable, Except.bind_eq_ok] at h
  obtain ⟨m, hm, h⟩ := h
  obtain rfl := hc.defCount hm
  split at h
  · simp at h
  · rename_i hmany
    refine ⟨?_, fun {id op pointer} hid hop hkind hresult {user op'} huser hop' => ?_⟩
    · cases hdefs : g.definers v with
      | nil => simp
      | cons x l =>
        cases l with
        | nil =>
          intro d d' hd hd'
          rw [List.mem_singleton.mp hd, List.mem_singleton.mp hd']
        | cons y l =>
          rw [hdefs] at hmany
          exact absurd rfl (hmany (x :: y :: l).length)
    · obtain ⟨users, husers, h⟩ := Except.bind_eq_ok.mp h
      obtain rfl := hc.attachedUses husers
      have h := allM_eq_true.mp h id hid
      simp only [Except.bind_eq_ok, Error.lift_eq_ok] at h
      obtain ⟨op₁, hop₁, h⟩ := h
      obtain rfl := Option.some.inj (hop.symm.trans hop₁)
      rw [hkind, hresult] at h
      exact isReadOnly_spec hc h huser hop'

theorem allStable_spec {es : List Expr} (h : g.allStable p chains es = .ok true) :
    ∀ e ∈ es, g.isStable p chains e = .ok true := by
  induction es with
  | nil => simp
  | cons e es ih =>
    simp only [allStable, Except.bind_eq_ok, Except.pure_eq_ok, Bool.and_eq_true] at h
    obtain ⟨first, hfirst, others, hothers, rfl, rfl⟩ := h
    exact List.forall_mem_cons.mpr ⟨hfirst, ih hothers⟩

/-- A fault moves down within a block, over operators that are pure. -/
theorem faultMovesDown_spec (hg : g.Linked) (h : g.faultMovesDown a b) :
    g.Before a b ∧ ∀ {x op}, g.Before a x → g.Before x b → g.op x = some op → op.isPure := by
  unfold faultMovesDown at h
  split at h
  case h_2 => cases h
  rename_i b₁ b₂ hb₁ hb₂
  dsimp only at h
  split at h
  case h_2 => cases h
  rename_i start stop hstart hstop
  simp only [Bool.and_eq_true, decide_eq_true_eq, List.all_eq_true] at h
  obtain ⟨⟨-, hlt⟩, hpure⟩ := h
  obtain ⟨block, hb⟩ := hg.known hb₁
  simp only [hb, Option.elim_some] at hstart hstop hpure
  refine ⟨(before_iff_idxOf? hg hb hstart hstop).mpr hlt, fun {x op} hax hxb hop => ?_⟩
  have hmem := ((at_of_idxOf? hb hstop).mem_pre_iff hg).mpr hxb
  obtain ⟨k, hk⟩ := idxOf?_of_mem (List.mem_of_mem_take hmem)
  have h₁ := (before_iff_idxOf? hg hb hstart hk).mp hax
  have h₂ := (before_iff_idxOf? hg hb hk hstop).mp hxb
  obtain ⟨hklt, hkx, -⟩ := List.idxOf?_eq_some_iff.mp hk
  have hx := hpure x ?_
  · simpa [hop] using hx
  · refine List.mem_iff_getElem.mpr ⟨k - (start + 1), ?_, ?_⟩
    · simp only [List.length_drop, List.length_take]
      omega
    · simp only [List.getElem_drop, List.getElem_take]
      rw [← hkx]
      congr 1
      omega

end Graph
end ScalarLowering
