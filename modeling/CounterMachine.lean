import CounterMachine.Assembly.Reading
import CounterMachine.Command.Report
import CounterMachine.Main
import CounterMachine.Program
import CounterMachine.Violation
import CounterMachine.Proofs.Names
import CounterMachine.Proofs.Drawing
import CounterMachine.Proofs.Frames
import CounterMachine.Proofs.Blocks
import CounterMachine.Proofs.Branches
import CounterMachine.Proofs.Growth
import CounterMachine.Proofs.Cutting
import CounterMachine.Proofs.Spreading
import CounterMachine.Proofs.Drafts
import CounterMachine.Proofs.Frontier
import CounterMachine.Proofs.Collapsing
import CounterMachine.Proofs.Actions
import CounterMachine.Proofs.Unfolding
import CounterMachine.Proofs.Resolution
import CounterMachine.Proofs.Acceptance
import CounterMachine.Proofs.Stepping
import CounterMachine.Proofs.Exhaustion
import CounterMachine.Proofs.Safety
import CounterMachine.Proofs.Fuel
import CounterMachine.Proofs.Semantics
import CounterMachine.Proofs.Adequacy
import CounterMachine.Proofs.Routes
import CounterMachine.Proofs.BlockRuns
import CounterMachine.Proofs.Renaming
import CounterMachine.Proofs.CallRuns
import CounterMachine.Proofs.Simulation
import CounterMachine.Proofs.Meaning
import CounterMachine.Proofs.Permutations
import CounterMachine.Proofs.Confluence
import CounterMachine.Proofs.Lockstep
import CounterMachine.Proofs.Histories
import CounterMachine.Proofs.Hygiene
import CounterMachine.Proofs.Degrees
import CounterMachine.Proofs.Rounds
import CounterMachine.Proofs.MainDegree
import CounterMachine.Proofs.Arity
import CounterMachine.Proofs.Linking
import CounterMachine.Proofs.Locality
import CounterMachine.Proofs.CallText
import CounterMachine.Proofs.LineText
import CounterMachine.Proofs.RoundTrip
import CounterMachine.Proofs.Concatenation
import CounterMachine.Proofs.Layout
import CounterMachine.Proofs.Slices
import CounterMachine.Proofs.Reloading
import CounterMachine.Proofs.Alive
import CounterMachine.Proofs.Parts
import CounterMachine.Proofs.Ownership
import CounterMachine.Proofs.Exits
import CounterMachine.Proofs.Signatures
import CounterMachine.Proofs.TargetedCollapse
import CounterMachine.Proofs.InPlace
import CounterMachine.Proofs.FailedSteps
import CounterMachine.Proofs.Courses
import CounterMachine.Proofs.Snapshots
import CounterMachine.Proofs.StepLimits
import CounterMachine.Proofs.Independence
import CounterMachine.Proofs.Lagging
import CounterMachine.Proofs.Peeling
import CounterMachine.Proofs.Footprints
import CounterMachine.Proofs.Metering
import CounterMachine.Proofs.Verification
import CounterMachine.Proofs.Findings
import CounterMachine.Proofs.Measuring
import CounterMachine.Proofs.Copying
import CounterMachine.Proofs.Supplies
