import Trampoline.Effect.Concurrent
import Trampoline.Effect.Retry
import Trampoline.Machine.Run
import Trampoline.Proofs.Abandoning
import Trampoline.Proofs.Combining
import Trampoline.Proofs.Deadlocks
import Trampoline.Proofs.Dropping
import Trampoline.Proofs.Instrumenting
import Trampoline.Proofs.Matching
import Trampoline.Proofs.Nesting
import Trampoline.Proofs.Pairing
import Trampoline.Proofs.Parking
import Trampoline.Proofs.Playing
import Trampoline.Proofs.Readings
import Trampoline.Proofs.Releasing
import Trampoline.Proofs.Resuming
import Trampoline.Proofs.Sequencing
import Trampoline.Proofs.Traversing
import Trampoline.Session.Answer
