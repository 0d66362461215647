import ScalarLowering.Proofs.Runs

/-! How far a budget goes. Each operator costs one step and nothing else does. A run therefore
outlasts every budget, or it takes a certain number of steps to its end: a smaller budget runs out,
and with any other one the machine gives the same answer. -/

namespace ScalarLowering

/-- How a run ends: with an error, or with its last frame and what it returns. -/
abbrev Finish := Except RunError (Frame × Option Value)

def Finish.answer (r : Finish) (steps : Nat) : Except RunError Outcome :=
  r.map fun last => { last.1 with returned := last.2, steps }

namespace Graph

/-- Without a budget, a run from the operators `ids`, the rest of block `b`, ends after a number of
steps. Looking up the operator to run belongs to its step; falling off a block is none. -/
inductive EndsFrom (g : Graph) (p : Pool) : BlockId → List OpId → Frame → Nat → Finish → Prop
  | fellOff {b : BlockId} {s : Frame} : EndsFrom g p b [] s 0 (.error (.fellOffBlock b))
  | unknown {b : BlockId} {id : OpId} {ids : List OpId} {s : Frame} : g.op id = none →
    EndsFrom g p b (id :: ids) s 1 (.error .dangling)
  | fault {b : BlockId} {id : OpId} {ids : List OpId} {op : Operator} {s : Frame} {cause : Fault} :
    g.op id = some op → op.step p g s = .error cause →
    EndsFrom g p b (id :: ids) s 1 (.error (.fault id cause))
  | done {b : BlockId} {id : OpId} {ids : List OpId} {op : Operator} {s t : Frame}
    {returned : Option Value} : g.op id = some op → op.step p g s = .ok (.done returned, t) →
    EndsFrom g p b (id :: ids) s 1 (.ok (t, returned))
  | astray {b c : BlockId} {id : OpId} {ids : List OpId} {op : Operator} {s t : Frame} :
    g.op id = some op → op.step p g s = .ok (.goto c, t) → g.block c = none →
    EndsFrom g p b (id :: ids) s 1 (.error .dangling)
  | next {b : BlockId} {id : OpId} {ids : List OpId} {op : Operator} {s t : Frame} {n : Nat}
    {r : Finish} : g.op id = some op → op.step p g s = .ok (.next, t) → EndsFrom g p b ids t n r →
    EndsFrom g p b (id :: ids) s (n + 1) r
  | goto {b c : BlockId} {id : OpId} {ids : List OpId} {op : Operator} {s t : Frame} {block : Block}
    {n : Nat} {r : Finish} : g.op id = some op → op.step p g s = .ok (.goto c, t) →
    g.block c = some block → EndsFrom g p c block.ops t n r → EndsFrom g p b (id :: ids) s (n + 1) r

variable {g : Graph} {p : Pool} {b : BlockId} {ids : List OpId} {s : Frame} {n fuel left : Nat}
  {r : Finish}

theorem EndsFrom.ne_outOfFuel (h : g.EndsFrom p b ids s n r) (fuel : Nat) :
    r ≠ .error (.outOfFuel fuel) := by
  induction h with
  | next _ _ _ ih => exact ih
  | goto _ _ _ _ ih => exact ih
  | _ => simp

/-- Of a budget that lasts to the end, what is left over plays no part in the answer. -/
theorem EndsFrom.runFrom (h : g.EndsFrom p b ids s n r) (fuel spare : Nat) :
    g.runFrom p fuel (spare + n) b ids s = r.answer (fuel - spare) := by
  induction h with
  | fellOff => simp only [Graph.runFrom, Finish.answer, Except.map]
  | unknown hop => simp only [Graph.runFrom, hop, Finish.answer, Except.map]
  | fault hop hstep => simp only [Graph.runFrom, hop, hstep, Finish.answer, Except.map]
  | done hop hstep => simp only [Graph.runFrom, hop, hstep, Finish.answer, Except.map]
  | astray hop hstep hblock =>
    simp only [Graph.runFrom, hop, hstep, hblock, Finish.answer, Except.map]
  | next hop hstep _ ih =>
    rw [← ih, ← Nat.add_assoc]
    simp only [Graph.runFrom, hop, hstep]
  | goto hop hstep hblock _ ih =>
    rw [← ih, ← Nat.add_assoc]
    simp only [Graph.runFrom, hop, hstep, hblock]

/-- A budget that does not last to the end runs out. -/
theorem EndsFrom.exhausts (h : g.EndsFrom p b ids s n r) (hn : left < n) (fuel : Nat) :
    g.runFrom p fuel left b ids s = .error (.outOfFuel fuel) := by
  induction h generalizing left with
  | fellOff => omega
  | next hop hstep _ ih =>
    cases left with
    | zero => rfl
    | succ left =>
      simp only [Graph.runFrom, hop, hstep]
      exact ih (by omega)
  | goto hop hstep hblock _ ih =>
    cases left with
    | zero => rfl
    | succ left =>
      simp only [Graph.runFrom, hop, hstep, hblock]
      exact ih (by omega)
  | _ =>
    obtain rfl : left = 0 := by omega
    rfl

/-- A run that did not run out of its budget has come to an end. -/
theorem exists_endsFrom (h : g.runFrom p fuel left b ids s ≠ .error (.outOfFuel fuel)) :
    ∃ n r, g.EndsFrom p b ids s n r := by
  induction left generalizing b ids s with
  | zero =>
    cases ids with
    | nil => exact ⟨0, _, .fellOff⟩
    | cons id ids => exact absurd rfl h
  | succ left ih =>
    cases ids with
    | nil => exact ⟨0, _, .fellOff⟩
    | cons id ids =>
      cases hop : g.op id with
      | none => exact ⟨1, _, .unknown hop⟩
      | some op =>
        cases hstep : op.step p g s with
        | error cause => exact ⟨1, _, .fault hop hstep⟩
        | ok result =>
          obtain ⟨control, t⟩ := result
          simp only [Graph.runFrom, hop, hstep] at h
          cases control with
          | done returned => exact ⟨1, _, .done hop hstep⟩
          | next =>
            obtain ⟨n, r, hends⟩ := ih h
            exact ⟨n + 1, r, .next hop hstep hends⟩
          | goto c =>
            cases hblock : g.block c with
            | none => exact ⟨1, _, .astray hop hstep hblock⟩
            | some block =>
              simp only [hblock] at h
              obtain ⟨n, r, hends⟩ := ih h
              exact ⟨n + 1, r, .goto hop hstep hblock hends⟩

/-- The run on arguments and a heap ends after a number of steps, whatever the budget. -/
inductive Ends (g : Graph) (p : Pool) (args : List Value) (heap : Heap) :
    Nat → Except RunError Outcome → Prop
  | refused : g.arguments.length ≠ args.length →
    Ends g p args heap 0 (.error (.argumentCount g.arguments.length args.length))
  | astray : g.arguments.length = args.length → g.block g.entry = none →
    Ends g p args heap 0 (.error .dangling)
  | ran {block : Block} {n : Nat} {r : Finish} : g.arguments.length = args.length →
    g.block g.entry = some block → g.EndsFrom p g.entry block.ops (g.initial args heap) n r →
    Ends g p args heap n (r.answer n)

/-- The answers to different budgets where a run takes `k` steps to its end. -/
structure Threshold (answers : Nat → Except RunError Outcome) (k : Nat)
    (answer : Except RunError Outcome) : Prop where
  short : ∀ fuel < k, answers fuel = .error (.outOfFuel fuel)
  enough : ∀ fuel ≥ k, answers fuel = answer
  ended : ∀ fuel, answer ≠ .error (.outOfFuel fuel)
  steps : ∀ o, answer = .ok o → o.steps = k

theorem run_of_entry {args : List Value} {heap : Heap} {block : Block}
    (hargs : g.arguments.length = args.length) (hblock : g.block g.entry = some block) (fuel : Nat) :
    g.run p args heap fuel =
      g.runFrom p fuel fuel g.entry block.ops (g.initial args heap) := by
  simp [Graph.run, hargs, hblock, initial]

theorem Ends.threshold {args : List Value} {heap : Heap} {k : Nat} {answer : Except RunError Outcome}
    (h : g.Ends p args heap k answer) : Threshold (g.run p args heap) k answer := by
  cases h with
  | refused hargs => exact ⟨by simp, fun fuel _ => by simp [Graph.run, hargs], by simp, by simp⟩
  | astray hargs hblock =>
    exact ⟨by simp, fun fuel _ => by simp [Graph.run, hargs, hblock], by simp, by simp⟩
  | @ran block k r hargs hblock h =>
    refine ⟨fun fuel hfuel => ?_, fun fuel hfuel => ?_, fun fuel => ?_, fun o ho => ?_⟩
    · rw [run_of_entry hargs hblock, h.exhausts hfuel]
    · obtain ⟨spare, rfl⟩ := Nat.exists_eq_add_of_le' hfuel
      rw [run_of_entry hargs hblock, h.runFrom, Nat.add_sub_cancel_left]
    · have hne := h.ne_outOfFuel fuel
      cases r with
      | ok last => simp [Finish.answer, Except.map]
      | error e => simpa [Finish.answer, Except.map] using hne
    · cases r with
      | ok last =>
        obtain rfl := Except.ok.inj ho
        rfl
      | error e => cases ho

theorem exists_ends {args : List Value} {heap : Heap}
    (h : g.run p args heap fuel ≠ .error (.outOfFuel fuel)) : ∃ k answer, g.Ends p args heap k answer := by
  by_cases hargs : g.arguments.length = args.length
  · cases hblock : g.block g.entry with
    | none => exact ⟨0, _, .astray hargs hblock⟩
    | some block =>
      rw [run_of_entry hargs hblock] at h
      obtain ⟨n, r, hends⟩ := exists_endsFrom h
      exact ⟨n, _, .ran hargs hblock hends⟩
  · exact ⟨0, _, .refused hargs⟩

/-- A run outlasts every budget exactly if it has no end. If it has one, the steps to it are the
least budget that is enough; every larger one gives the same answer. -/
theorem budget_threshold (g : Graph) (p : Pool) (args : List Value) (heap : Heap) :
    ((∀ fuel, g.run p args heap fuel = .error (.outOfFuel fuel)) ∧
      ∀ k answer, ¬g.Ends p args heap k answer) ∨
    ∃ k answer, g.Ends p args heap k answer ∧ Threshold (g.run p args heap) k answer := by
  by_cases hends : ∃ k answer, g.Ends p args heap k answer
  · obtain ⟨k, answer, h⟩ := hends
    exact .inr ⟨k, answer, h, h.threshold⟩
  · refine .inl ⟨fun fuel => ?_, fun k answer h => hends ⟨k, answer, h⟩⟩
    exact Classical.byContradiction fun h => hends (exists_ends h)

end Graph
end ScalarLowering
