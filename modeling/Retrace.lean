import Retrace.Registry.Calls
import Retrace.Workload.Machine
import Retrace.Workload.Profile
import Retrace.Proofs.Checks
import Retrace.Proofs.Scan.Bits
import Retrace.Proofs.Scan.Agreement
import Retrace.Proofs.Scan.FirstWord
import Retrace.Proofs.Scan.SameWord
import Retrace.Proofs.Patch.Plan
import Retrace.Proofs.Patch.Format
import Retrace.Proofs.Patch.RoundTrip
import Retrace.Proofs.Patch.SizeBound
import Retrace.Proofs.Patch.Inverse
import Retrace.Proofs.Patch.Canonical
import Retrace.Proofs.Patch.Counts
import Retrace.Proofs.Patch.Checked
import Retrace.Proofs.Patch.Reading
import Retrace.Proofs.Patch.Placement
import Retrace.Proofs.Patch.Truncation
import Retrace.Proofs.Patch.InPlace
import Retrace.Proofs.Ring.Layout
import Retrace.Proofs.Ring.Moves
import Retrace.Proofs.Ring.Append
import Retrace.Proofs.Ring.Deque
import Retrace.Proofs.Ring.Chain
import Retrace.Proofs.Ring.Eviction
import Retrace.Proofs.Ring.Space
import Retrace.Proofs.Ring.Retention
import Retrace.Proofs.Ring.Twins
import Retrace.Proofs.Ring.Undone
import Retrace.Proofs.Ring.NearlyFull
import Retrace.Proofs.Ring.Checked
import Retrace.Proofs.Ring.Bounds
import Retrace.Proofs.History.States
import Retrace.Proofs.History.Fidelity
import Retrace.Proofs.History.Failures
import Retrace.Proofs.History.Reached
import Retrace.Proofs.History.Scanners
import Retrace.Proofs.History.Prepared
import Retrace.Proofs.History.Fresh
import Retrace.Proofs.History.Checked
import Retrace.Proofs.Recorder.States
import Retrace.Proofs.Recorder.Rejections
import Retrace.Proofs.Recorder.Conservation
import Retrace.Proofs.Recorder.Exhaustion
import Retrace.Proofs.Recorder.Granularity
import Retrace.Proofs.Registry.Table
import Retrace.Proofs.Registry.Handles
import Retrace.Proofs.Registry.Exchange
import Retrace.Proofs.Registry.Builds
import Retrace.Proofs.Registry.Replies
import Retrace.Proofs.Registry.Isolation
import Retrace.Proofs.Patch.RunLength
import Retrace.Proofs.Bank
import Retrace.Proofs.History.Phases
import Retrace.Proofs.Recorder.Phases
import Retrace.Proofs.Recorder.Tags
