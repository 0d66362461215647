import ScalarLowering.Proofs.Swaps

/-! Counting along a run. A property of a graph and of the number of operations lowered so far
that every lowered operation carries from one number to the next holds at the end of the run for
the number that the run reports. So the report is exact: a run that says that it lowered nothing
has changed nothing. -/

namespace ScalarLowering

open ScalarLowering.Graph ScalarLowering.Edit

def Stats.lowered (s : Stats) : Nat := s.constructors + s.equality + s.fieldLoads + s.fieldAddresses

theorem Stats.modified_iff {s : Stats} : s.modified ↔ 0 < s.lowered := by
  simp [modified, lowered]

/-- A property of a graph and of the number of operations lowered so far that a run keeps. -/
structure TallyInvariant (p : Pool) (I : Nat → Graph → Prop) : Prop where
  sameCode : ∀ {k g g'}, g.SameCode g' → g'.version = g.version → I k g → I k g'
  lowers : ∀ {k g g' old op ids}, g.Linked → g.Lowers p g' old op ids → I k g → I (k + 1) g'

variable {p : Pool} {config : Config} {I : Nat → Graph → Prop} {g g' : Graph} {c : Chains}
  {w : WrapperUse} {k n : Nat} {stats : Stats}

namespace Edit

theorem sweep_tally {α : Type} {edit : α → Edit Bool} {R : Nat → Graph → Prop} {as : List α}
    (h : ∀ {k a g b g'}, R k g → edit a g = .ok b g' → R (k + b.toNat) g') (hg : R k g)
    (hs : sweep edit as g = .ok n g') : R (k + n) g' := by
  induction as generalizing g k n with
  | nil =>
    obtain ⟨rfl, rfl⟩ := pure_eq_ok.mp hs
    exact hg
  | cons a as ih =>
    obtain ⟨b, g₁, ha, hs⟩ := bind_eq_ok.mp hs
    obtain ⟨m, g₂, has, hs⟩ := bind_eq_ok.mp hs
    obtain ⟨rfl, rfl⟩ := pure_eq_ok.mp hs
    rw [← Nat.add_assoc]
    exact ih (h hg ha) has

theorem grows_edit (w : WrapperUse) (p : Pool) (c : Chains) (id : OpId) :
    (w.edit p c id).Keeps Grows := by
  cases w with
  | constructor => exact grows_lowerConstructor p c id
  | equality => exact grows_lowerEquality p c id
  | load => exact grows_lowerFieldLoad p c id
  | address => exact grows_lowerFieldAddress p c id

theorem batch_tally (hI : TallyInvariant p I) (hg : g.Coherent ∧ I k g)
    (h : w.batch p g = .ok n g') : g'.Coherent ∧ I (k + n) g' := by
  refine ⟨((moves_batch_sweep (grows_edit w p) _).ok h).steady hg.1, ?_⟩
  obtain ⟨c, g₁, hsnapshot, hsweep, -⟩ := batch_eq_ok.mp h
  obtain ⟨hexact, hg₁, hcode⟩ := snapshot_spec hg.1 hsnapshot
  have hlinked : g₁.checkpointed.Linked := (Move.checkpoint.steady hg₁).linked
  have hexact : Exact c g₁.checkpointed := hexact.of_sameScans ⟨rfl, rfl, rfl, rfl⟩
  have hversion : g₁.checkpointed.version = g.version := (version_of_snapshot hsnapshot :)
  refine (sweep_tally (R := fun k g => g.Linked ∧ Tracks c g ∧ I k g) ?_
    ⟨hlinked, hexact.tracks hlinked, hI.sameCode hcode.checkpointed hversion hg.2⟩ hsweep).2.2
  rintro k id g b g' ⟨hlinked, htracks, hk⟩ hedit
  obtain ⟨rfl, op, ids, hlowers⟩ | ⟨rfl, rfl⟩ := lowers_or_eq_of_edit hlinked htracks hedit
  · obtain ⟨hlinked', hext⟩ := hlowers.swapped.grows hlinked
    exact ⟨hlinked', htracks.extends hext hlinked', hI.lowers hlinked hlowers hk⟩
  · exact ⟨hlinked, htracks, hk⟩

theorem onlyIf_tally (hI : TallyInvariant p I) {enabled : Bool} (hg : g.Coherent ∧ I k g)
    (h : onlyIf enabled (w.batch p) g = .ok n g') : g'.Coherent ∧ I (k + n) g' := by
  unfold onlyIf at h
  split at h
  · exact batch_tally hI hg h
  · obtain ⟨rfl, rfl⟩ := pure_eq_ok.mp h
    exact hg

/-- The batches of a run count on from one another. -/
theorem lowerWrappers_tally (hI : TallyInvariant p I) (hg : g.Coherent ∧ I k g)
    (h : lowerWrappers p config g = .ok stats g') : g'.Coherent ∧ I (k + stats.lowered) g' := by
  obtain ⟨n₁, g₁, h₁, h⟩ := bind_eq_ok.mp h
  obtain ⟨n₂, g₂, h₂, h⟩ := bind_eq_ok.mp h
  obtain ⟨n₃, g₃, h₃, h⟩ := bind_eq_ok.mp h
  obtain ⟨n₄, g₄, h₄, h⟩ := bind_eq_ok.mp h
  obtain ⟨rfl, rfl⟩ := pure_eq_ok.mp h
  have hg₁ := onlyIf_tally (w := .constructor) hI hg h₁
  have hg₂ := onlyIf_tally (w := .equality) hI hg₁ h₂
  have hg₃ := onlyIf_tally (w := .load) hI hg₂ h₃
  have hg₄ := onlyIf_tally (w := .address) hI hg₃ h₄
  simpa only [Stats.lowered, Nat.add_assoc] using hg₄

theorem cleanUp_counts_of_lowerWrappers (h : lowerWrappers p config g = .ok stats g') :
    stats.addressLoads = 0 ∧ stats.droppedVariables = 0 := by
  obtain ⟨n₁, g₁, -, h⟩ := bind_eq_ok.mp h
  obtain ⟨n₂, g₂, -, h⟩ := bind_eq_ok.mp h
  obtain ⟨n₃, g₃, -, h⟩ := bind_eq_ok.mp h
  obtain ⟨n₄, g₄, -, h⟩ := bind_eq_ok.mp h
  obtain ⟨rfl, -⟩ := pure_eq_ok.mp h
  exact ⟨rfl, rfl⟩

theorem lowered_of_cleanUp {stats' : Stats} (h : cleanUp p config stats g = .ok stats' g') :
    stats'.lowered = stats.lowered := by
  obtain ⟨_, g₁, -, h⟩ := bind_eq_ok.mp h
  obtain ⟨_, g₂, -, h⟩ := bind_eq_ok.mp h
  obtain ⟨_, g₃, -, h⟩ := bind_eq_ok.mp h
  obtain ⟨rfl, -⟩ := pure_eq_ok.mp h
  rfl

/-- A run that succeeds, by whether it lowered anything. -/
theorem lower_cases (h : lower p config g = .ok stats g') :
    (lowerWrappers p config g = .ok stats g' ∧ stats.lowered = 0) ∨
      ∃ stats₁ g₁, lowerWrappers p config g = .ok stats₁ g₁ ∧ 0 < stats.lowered ∧
        cleanUp p config stats₁ g₁ = .ok stats g' := by
  obtain ⟨stats₁, g₁, hwrappers, hclean, -⟩ := lower_eq_ok_iff.mp h
  by_cases hmodified : stats₁.modified
  · rw [if_pos hmodified] at hclean
    refine .inr ⟨stats₁, g₁, hwrappers, ?_, hclean⟩
    rw [lowered_of_cleanUp hclean]
    exact Stats.modified_iff.mp hmodified
  · rw [if_neg hmodified] at hclean
    obtain ⟨rfl, rfl⟩ := pure_eq_ok.mp hclean
    exact .inl ⟨hwrappers, by simpa [Stats.modified_iff] using hmodified⟩

end Edit

namespace Graph

def NotBefore (g g' : Graph) : Prop := g.Linked → g'.Linked ∧ g.version ≤ g'.version

instance : Std.Refl NotBefore := ⟨fun _ hg => ⟨hg, Nat.le_refl _⟩⟩

instance : IsTrans Graph NotBefore := by
  refine ⟨fun a b d hab hbd ha => ?_⟩
  obtain ⟨hb, hle⟩ := hab ha
  exact (hbd hb).imp_right (Nat.le_trans hle)

theorem Move.notBefore (h : Move g g') : g.NotBefore g' := by
  intro hg
  cases h with
  | edit h => exact (h hg).imp_right (·.version)
  | strip id v => exact ⟨hg.stripResult id v, Nat.le_succ _⟩
  | drop =>
    refine ⟨hg.of_blocks_eq (fun b => ?_) fun id => ?_, ?_⟩
    · simp only [Graph.block, blocks_dropUnmentioned]
    · simp only [blockOf, op_dropUnmentioned]
    · unfold dropUnmentioned
      dsimp only
      split
      · exact Nat.le_refl _
      · exact Nat.le_succ _
  | refresh _ h =>
    obtain ⟨-, rfl⟩ := refresh_eq_some.mp h
    exact ⟨hg.of_blocks_eq (fun _ => rfl) fun _ => rfl, Nat.le_refl _⟩
  | checkpoint => exact ⟨hg.of_blocks_eq (fun _ => rfl) fun _ => rfl, Nat.le_refl _⟩

theorem Moves.version_le (h : g.Moves g') (hg : g.Linked) : g.version ≤ g'.version :=
  (h.lift Move.notBefore hg).2

/-- The version has gone up with every lowered operation, and while there was none the code is the
same. -/
def CountedIn (g₀ : Graph) (k : Nat) (g : Graph) : Prop :=
  g₀.version + k ≤ g.version ∧ (k = 0 → g₀.SameCode g ∧ g.version = g₀.version)

theorem tally_countedIn (p : Pool) (g₀ : Graph) : TallyInvariant p (CountedIn g₀) where
  sameCode := by
    rintro k g g' hcode hversion ⟨hle, hsame⟩
    refine ⟨hversion ▸ hle, fun hk => ?_⟩
    obtain ⟨hcode₀, hversion₀⟩ := hsame hk
    exact ⟨hcode₀.trans hcode, hversion.trans hversion₀⟩
  lowers := by
    rintro k g g' old op ids hlinked h ⟨hle, -⟩
    refine ⟨?_, fun hk => by omega⟩
    have := h.version
    omega

end Graph

namespace Edit

/-- A run reports that it changed something exactly if it did. If not, the code and the version
are the same and nothing else is reported; if so, the version went up. -/
theorem lower_modified_exact {p : Pool} {config : Config} {g g' : Graph} {stats : Stats}
    (hg : g.Built) (h : lower p config g = .ok stats g') :
    (stats.modified = false → g.SameCode g' ∧ g'.version = g.version ∧ stats.addressLoads = 0 ∧
      stats.droppedVariables = 0) ∧
    (stats.modified = true → g.version < g'.version) := by
  have hstart : g.Coherent ∧ CountedIn g 0 g :=
    ⟨hg.coherent, Nat.le_refl _, fun _ => ⟨.refl g, rfl⟩⟩
  obtain ⟨hwrappers, hzero⟩ | ⟨stats₁, g₁, hwrappers, hpos, hclean⟩ := lower_cases h
  · obtain ⟨hloads, hdropped⟩ := cleanUp_counts_of_lowerWrappers hwrappers
    obtain ⟨-, -, hsame⟩ := lowerWrappers_tally (tally_countedIn p g) hstart hwrappers
    obtain ⟨hcode, hversion⟩ := hsame (by omega)
    refine ⟨fun _ => ⟨hcode, hversion, hloads, hdropped⟩, fun hmodified => ?_⟩
    have := Stats.modified_iff.mp hmodified
    omega
  · obtain ⟨hg₁, hle, -⟩ := lowerWrappers_tally (tally_countedIn p g) hstart hwrappers
    have hlater := ((moves_cleanUp p config stats₁).ok hclean).version_le hg₁.linked
    have hcount := lowered_of_cleanUp hclean
    refine ⟨fun hmodified => ?_, fun _ => by omega⟩
    simp [Stats.modified_iff.mpr hpos] at hmodified

/-- The first run lowers one operation of each kind, the second one finds nothing left. -/
theorem lower_modified_exact_twice : ∃ g' g'',
    lower wrapperPool {} constructedAndRead = .ok ⟨1, 1, 1, 1, 1, 4⟩ g' ∧
      constructedAndRead.version < g'.version ∧ lower wrapperPool {} g' = .ok {} g'' ∧
      g'.SameCode g'' ∧ g''.version = g'.version := by
  have h : (lower wrapperPool {}).result? constructedAndRead = some ⟨1, 1, 1, 1, 1, 4⟩ := by
    decide +kernel
  have h' : (lower wrapperPool {}).result? ((lower wrapperPool {}).after constructedAndRead) =
      some {} := by
    decide +kernel
  have hbuilt : constructedAndRead.Built := ((Built.empty "f").changed _).changed _
  have hfirst := lower_modified_exact hbuilt (eq_ok_of_result? h)
  have hsecond := lower_modified_exact (hbuilt.lower wrapperPool {}) (eq_ok_of_result? h')
  obtain ⟨hcode, hversion, -⟩ := hsecond.1 rfl
  exact ⟨_, _, eq_ok_of_result? h, hfirst.2 rfl, eq_ok_of_result? h', hcode, hversion⟩

end Edit
end ScalarLowering
