import QueueAssignment.Configuration
import QueueAssignment.Simulation
import QueueAssignment.Proofs.Fidelity
import QueueAssignment.Proofs.Steps
import QueueAssignment.Proofs.Held
import QueueAssignment.Proofs.Targets
import QueueAssignment.Proofs.Scanned
import QueueAssignment.Proofs.Surveys
import QueueAssignment.Proofs.Restart
import QueueAssignment.Proofs.Undelivered
import QueueAssignment.Proofs.Resumption
import QueueAssignment.Proofs.Finality
import QueueAssignment.Proofs.Formed
import QueueAssignment.Proofs.FlushOrder
import QueueAssignment.Proofs.Reworked
import QueueAssignment.Proofs.Difference
import QueueAssignment.Proofs.Detached
import QueueAssignment.Proofs.TakenBack
import QueueAssignment.Proofs.Attached
import QueueAssignment.Proofs.Dispatch
import QueueAssignment.Proofs.Refusals
import QueueAssignment.Proofs.Overlap
import QueueAssignment.Proofs.Hashing
import QueueAssignment.Proofs.Blocks
import QueueAssignment.Proofs.Instruments
import QueueAssignment.Proofs.Identity
