import LockFreeStack.Pair.Script
import LockFreeStack.Table.Script
import LockFreeStack.Scenario.Run
import LockFreeStack.Workload
import LockFreeStack.Proofs.Counted.Lives
import LockFreeStack.Proofs.Counted.Progress
import LockFreeStack.Proofs.Hazard.Account
import LockFreeStack.Proofs.Hazard.Admission
import LockFreeStack.Proofs.Hazard.Lifetime
import LockFreeStack.Proofs.Hazard.Progress
import LockFreeStack.Proofs.Parking.Protection
import LockFreeStack.Proofs.Pair.Refines
import LockFreeStack.Proofs.Counted.Range
import LockFreeStack.Proofs.Runs
import LockFreeStack.Proofs.Settlement
import LockFreeStack.Proofs.Solo.Pile
import LockFreeStack.Proofs.Solo.Counted
import LockFreeStack.Proofs.Solo.Hazard
import LockFreeStack.Proofs.Solo.Interchange
import LockFreeStack.Proofs.Hazard.Teardown
import LockFreeStack.Proofs.Counted.Tenancy
import LockFreeStack.Proofs.Counted.Teardown
import LockFreeStack.Proofs.Teardown
import LockFreeStack.Proofs.Parking.Meanwhile
import LockFreeStack.Proofs.Hazard.Garbage
import LockFreeStack.Proofs.Hazard.Cache
import LockFreeStack.Proofs.Failures
import LockFreeStack.Proofs.Table.Scan
import LockFreeStack.Proofs.Slot.Protect
