import DeadLanes.Demo
import DeadLanes.Lane.Spread
import DeadLanes.Main
import DeadLanes.Proofs.Acceptance
import DeadLanes.Proofs.LaneOrder
import DeadLanes.Proofs.LaneRules
import DeadLanes.Proofs.Resolution
import DeadLanes.Proofs.Bypassing
import DeadLanes.Proofs.Discarding
import DeadLanes.Proofs.Preservation
import DeadLanes.Proofs.Constants
import DeadLanes.Proofs.Convergence
import DeadLanes.Proofs.Lawfulness
import DeadLanes.Proofs.Bookkeeping
import DeadLanes.Proofs.Frame
import DeadLanes.Proofs.Phases
import DeadLanes.Proofs.Clearing
import DeadLanes.Proofs.Shrinking
import DeadLanes.Proofs.Consistency
import DeadLanes.Proofs.Spreading
import DeadLanes.Proofs.Effort
import DeadLanes.Proofs.Alteration
import DeadLanes.Proofs.Exactness
import DeadLanes.Proofs.Typing
import DeadLanes.Func.Body
import DeadLanes.Proofs.Generations
import DeadLanes.Proofs.Mirroring
import DeadLanes.Proofs.Readback
import DeadLanes.Proofs.Denotation
