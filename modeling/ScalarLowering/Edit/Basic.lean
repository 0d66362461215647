import ScalarLowering.Program.Graph
import ScalarLowering.Error

/-! Computations that change a graph. One that fails keeps the changes it made before. -/

namespace ScalarLowering

abbrev Edit := EStateM Error Graph

namespace Edit

/-- Asks the graph a question that can fail. -/
def query {α : Type} (f : Graph → Except Error α) : Edit α := fun g =>
  match f g with
  | .ok a => .ok a g
  | .error e => .error e g

theorem query_eq_ok {α : Type} {f : Graph → Except Error α} {g g' : Graph} {a : α} :
    query f g = .ok a g' ↔ f g = .ok a ∧ g' = g := by
  unfold query
  split <;> simp_all [eq_comm]

theorem query_eq_error {α : Type} {f : Graph → Except Error α} {g g' : Graph} {e : Error} :
    query f g = .error e g' ↔ f g = .error e ∧ g' = g := by
  unfold query
  split <;> simp_all [eq_comm]

/-- Tries an edit at each element in turn and counts where it took place. -/
def sweep {α : Type} (edit : α → Edit Bool) : List α → Edit Nat
  | [] => return 0
  | a :: as => do
    let done ← edit a
    let rest ← sweep edit as
    return done.toNat + rest

end Edit
end ScalarLowering
