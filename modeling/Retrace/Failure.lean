import Retrace.Config

/-!
# Failures

What can go wrong in a history or while one is recorded.  A failure that comes from one part keeps
that part's error as its source; running out of memory is one failure, whichever part runs out.
-/

namespace Retrace

/-- Why a simulation did not save or load its state. -/
inductive SimulationError where
  | sizeChanged (expected actual : Nat)
  | failed (reason : String)
  deriving DecidableEq, Repr

/-- The text of an error. -/
def SimulationError.message : SimulationError → String
  | .sizeChanged expected actual => s!"state size changed from {expected} to {actual} bytes"
  | .failed reason => reason

/-- Why an operation on a history failed. -/
inductive Failure where
  | empty
  | allocationFailed (bytes : Nat)
  | config (e : ConfigError)
  | ring (e : RingError)
  | patch (e : PatchError)
  | simulation (e : SimulationError)
  deriving DecidableEq, Repr

namespace Failure

/-- The failure that an error of a ring amounts to. -/
def ofRing : RingError → Failure
  | .allocationFailed bytes => .allocationFailed bytes
  | e => .ring e

/-- The failure that an error of a patch or a snapshot amounts to. -/
def ofPatch : PatchError → Failure
  | .allocationFailed bytes => .allocationFailed bytes
  | e => .patch e

/-- The text of the error that a failure comes from. -/
def source : Failure → Option String
  | .empty | .allocationFailed _ => none
  | .config e => some e.message
  | .ring e => some e.message
  | .patch e => some e.message
  | .simulation e => some e.message

/-- The text of a failure. -/
def message : Failure → String
  | .empty => "rewind history is empty"
  | .allocationFailed bytes => s!"rewind unavailable: failed to allocate {bytes} bytes"
  | .config e => "config: " ++ e.message
  | .ring e => "arena: " ++ e.message
  | .patch e => "codec: " ++ e.message
  | .simulation e => "core: " ++ e.message

end Failure

end Retrace
