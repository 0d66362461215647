import ScalarLowering.Lowering.Pass
import ScalarLowering.Machine.Run
import ScalarLowering.Program.Text
import ScalarLowering.Proofs.Edits
import ScalarLowering.Proofs.Linked
import ScalarLowering.Proofs.Coherent
import ScalarLowering.Proofs.Decisions
import ScalarLowering.Proofs.LiveQueries
import ScalarLowering.Proofs.PassInduction
import ScalarLowering.Proofs.Verification
import ScalarLowering.Proofs.Actions
import ScalarLowering.Proofs.Aliasing
import ScalarLowering.Proofs.Discipline
import ScalarLowering.Proofs.Evolution
import ScalarLowering.Proofs.Promptness
import ScalarLowering.Proofs.Receivers
import ScalarLowering.Proofs.Refinement
import ScalarLowering.Proofs.RoundTrips
import ScalarLowering.Proofs.Wrappers
import ScalarLowering.Proofs.Histories
import ScalarLowering.Proofs.Generations
import ScalarLowering.Proofs.Questions
import ScalarLowering.Proofs.Batches
import ScalarLowering.Proofs.RunSafety
import ScalarLowering.Proofs.Reachability
import ScalarLowering.Proofs.Elimination
import ScalarLowering.Proofs.DeadCode
import ScalarLowering.Proofs.Candidates
import ScalarLowering.Proofs.Narrowing
import ScalarLowering.Proofs.Depletion
import ScalarLowering.Proofs.Idempotence
import ScalarLowering.Proofs.Construction
import ScalarLowering.Proofs.Comparing
import ScalarLowering.Proofs.Coverage
import ScalarLowering.Proofs.Freshness
import ScalarLowering.Proofs.Fusing
import ScalarLowering.Proofs.Redirection
import ScalarLowering.Proofs.Swaps
import ScalarLowering.Proofs.Tally
import ScalarLowering.Proofs.Convergence
import ScalarLowering.Proofs.Layout
import ScalarLowering.Proofs.Atomicity
import ScalarLowering.Proofs.Budget
import ScalarLowering.Proofs.Interning
import ScalarLowering.Proofs.TypeText
import ScalarLowering.Proofs.Writers
import ScalarLowering.Proofs.Forwarding
import ScalarLowering.Proofs.Folding
import ScalarLowering.Proofs.DirectLoads
import ScalarLowering.Proofs.Preservation
