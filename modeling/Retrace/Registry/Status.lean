import Retrace.Failure

/-!
# Status codes

Every call on a registry answers with a status, a number that is zero on success and negative
otherwise.  A call that is stopped on its way, by an overflow check or another one, answers with a
status as well, and goes no further.
-/

namespace Retrace

/-- How a call on a registry went. -/
inductive Status where
  | ok
  | invalidHandle
  | invalidArgument
  | configError
  | allocationFailed
  | empty
  | internalError
  /-- The call was stopped on its way. -/
  | panicked
  deriving DecidableEq, Repr

namespace Status

/-- The number of a status. -/
def code : Status → Int
  | .ok => 0
  | .invalidHandle => -1
  | .invalidArgument => -2
  | .configError => -3
  | .allocationFailed => -4
  | .empty => -5
  | .internalError => -6
  | .panicked => -128

/-- The status of a failure. -/
def ofFailure : Failure → Status
  | .empty => .empty
  | .allocationFailed _ => .allocationFailed
  | .config _ => .configError
  | .ring _ | .patch _ | .simulation _ => .internalError

end Status

end Retrace
