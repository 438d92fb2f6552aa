import Retrace.History
import Retrace.Registry.Status
import Retrace.Registry.Table

/-!
# Histories behind handles

A registry keeps histories for callers that know them by handles only.  A call that gives more than
a status writes it to a place of the caller's.  A call without such a place is refused before
anything else is looked at, and then one with a handle that reaches no history.

Each call below takes whether the caller gave a place, and gives the registry after the call, the
status, and what was written, if anything was.  It is what the call does without overflow checks.
-/

namespace Retrace

/-- Histories under handles. -/
structure Registry where
  table : Table History

/-- What a call to take back a state writes: nothing, that there is no state, or the state. -/
inductive TakenBack where
  | unset
  | null
  | state (bytes : Bytes)

/-- How much a history holds, and the sizes that it was made for. -/
structure Stats where
  occupancy : Occupancy
  capacity : Nat
  stateSize : Nat
  deriving DecidableEq, Repr

namespace Registry

/-- The registry without histories. -/
def empty : Registry := ⟨Table.empty⟩

/-- A history that was made, under a new handle.  Nothing is added for one that could not be made. -/
def accept (r : Registry) : Except Failure History → Registry × Status × Option Handle
  | .error e => (r, .ofFailure e, none)
  | .ok h =>
    let (table, handle) := r.table.insert h
    (⟨table⟩, .ok, some handle)

/-- A new history under a new handle. -/
def create (r : Registry) (place : Bool) (stateSize capacity : Nat) :
    Registry × Status × Option Handle :=
  if !place then (r, .invalidArgument, none)
  else
    let config := { Config.ofStateSize stateSize with capacity }
    r.accept (History.createWith config config.wrappedLimit .widest)

/-- The registry without the history under a handle. -/
def destroy (r : Registry) (handle : Handle) : Registry × Status :=
  match r.table.remove handle with
  | (table, some _) => (⟨table⟩, .ok)
  | (_, none) => (r, .invalidHandle)

/-- Does `act` to the history under a handle. -/
def onHistory {α : Type} (r : Registry) (place : Bool) (handle : Handle) (absent : α)
    (act : History → History × Status × α) : Registry × Status × α :=
  if !place then (r, .invalidArgument, absent)
  else
    match r.table.get? handle with
    | none => (r, .invalidHandle, absent)
    | some h =>
      let (h, status, answer) := act h
      (⟨r.table.update handle h⟩, status, answer)

/-- Makes a history ready for its next state.  What is written is the place of the staged bytes, so
only whether it was written is told. -/
def prepare (r : Registry) (place : Bool) (handle : Handle) : Registry × Status × Bool :=
  r.onHistory place handle false fun h => (h.prepare, .ok, true)

/-- The caller's own writing to the staged bytes, at the place that `prepare` wrote. -/
def stage (r : Registry) (handle : Handle) (pos : Nat) (src : Bytes) : Registry :=
  (r.onHistory true handle () fun h => (h.stage pos src, .ok, ())).1

/-- Commits the staged bytes as the newest state. -/
def commit (r : Registry) (handle : Handle) : Registry × Status :=
  let (r, status, _) := r.onHistory true handle () fun h =>
    match h.commit with
    | (h, .ok ()) => (h, .ok, ())
    | (h, .error e) => (h, .ofFailure e, ())
  (r, status)

/-- Takes back the newest state. -/
def pop (r : Registry) (place : Bool) (handle : Handle) : Registry × Status × TakenBack :=
  r.onHistory place handle .unset fun h =>
    match h.pop with
    | (h, .ok state) => (h, .ok, .state state)
    | (h, .error e) => (h, .ofFailure e, .null)

/-- Tells how much a history holds. -/
def stats (r : Registry) (place : Bool) (handle : Handle) : Registry × Status × Option Stats :=
  r.onHistory place handle none fun h => (h, .ok, some ⟨h.occupancy, h.capacity, h.stateSize⟩)

/-- Tells what was done to a history. -/
def tally (r : Registry) (place : Bool) (handle : Handle) : Registry × Status × Option Tally :=
  r.onHistory place handle none fun h => (h, .ok, some h.tally)

/-- Drops all states of a history. -/
def clear (r : Registry) (handle : Handle) : Registry × Status :=
  let (r, status, _) := r.onHistory true handle () fun h => (h.clear, .ok, ())
  (r, status)

end Registry

end Retrace
