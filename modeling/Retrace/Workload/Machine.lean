import Retrace.Recorder
import Retrace.Workload.Burst

/-!
# Simulations for trials

A machine is a simulation whose state is a byte string that changes in bursts.  A rig is a machine
that can be told to report another size, to fail in saving, and to fail in loading.
-/

namespace Retrace.Workload

/-! ## Machines -/

/-- A state, where its changes come from, how often a state was loaded, and whether the next load
fails. -/
structure Machine where
  state : Bytes
  source : BurstSource
  loads : Nat := 0
  failNextLoad : Bool := false

namespace Machine

/-- A machine with a zero state. -/
def create (size : Nat) (seed : UInt64) : Machine :=
  { state := Bytes.zeros size, source := .ofSeed seed }

/-- The machine after one step. -/
def step (m : Machine) : Machine :=
  let (state, source) := m.source.disturb m.state
  { m with state, source }

/-- The machine with another state of the same size. -/
def setState (m : Machine) (state : Bytes) : Machine :=
  { m with state := m.state.overlay 0 state }

/-- The machine with this state, unless it was told to fail or the size is not its own. -/
def load (m : Machine) (state : Bytes) : Machine × Except SimulationError Unit :=
  if m.failNextLoad then
    ({ m with failNextLoad := false }, .error (.failed "injected restore failure"))
  else if state.size ≠ m.state.size then
    (m, .error (.sizeChanged m.state.size state.size))
  else ({ m with state, loads := m.loads + 1 }, .ok ())

instance : Simulation Machine where
  stateSize m := m.state.size
  save m out := (out.overlay 0 m.state, .ok ())
  load := load

end Machine

/-! ## Rigs -/

/-- A machine, the size that it reports if not its own, why it fails to save and what it writes
before it does, and why its next load fails. -/
structure Rig where
  machine : Machine
  reportedSize : Option Nat := none
  saveFailure : Option (String × Bytes) := none
  loadFailure : Option String := none

namespace Rig

/-- The rig with this state, unless it or its machine was told to fail. -/
def load (r : Rig) (state : Bytes) : Rig × Except SimulationError Unit :=
  match r.loadFailure with
  | some reason => ({ r with loadFailure := none }, .error (.failed reason))
  | none =>
    let (machine, outcome) := r.machine.load state
    ({ r with machine }, outcome)

/-- What a rig leaves in a buffer when it saves its state, and whether it did. -/
def save (r : Rig) (out : Bytes) : Bytes × Except SimulationError Unit :=
  match r.saveFailure with
  | some (reason, written) => (out.overlay 0 written, .error (.failed reason))
  | none => Simulation.save r.machine out

instance : Simulation Rig where
  stateSize r := r.reportedSize.getD (Simulation.stateSize r.machine)
  save := save
  load := load

/-- What a rig can be told. -/
inductive Order where
  | setState (state : Bytes)
  | step
  | failMachineLoad
  | failLoad (reason : String)
  | failSave (reason : String) (written : Bytes)
  | allowSave
  | reportSize (size : Option Nat)
  | newMachine (size : Nat) (seed : UInt64)

/-- The rig after an order. -/
def obey (r : Rig) : Order → Rig
  | .setState state => { r with machine := r.machine.setState state }
  | .step => { r with machine := r.machine.step }
  | .failMachineLoad => { r with machine := { r.machine with failNextLoad := true } }
  | .failLoad reason => { r with loadFailure := some reason }
  | .failSave reason written => { r with saveFailure := some (reason, written) }
  | .allowSave => { r with saveFailure := none }
  | .reportSize size => { r with reportedSize := size }
  | .newMachine size seed => { r with machine := .create size seed }

end Rig

end Retrace.Workload
