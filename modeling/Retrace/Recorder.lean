import Retrace.History

/-!
# Recording a simulation

A recorder is called once a step.  While the rewind input is held it loads the state before into the
simulation; otherwise it records the simulation's state, every `granularity`-th step since it was
last held.

* `Recorder.start`: a recorder with the simulation's first state;
* `Recorder.step`: one step;
* a state that the simulation does not load stays in the history.
-/

namespace Retrace

/-- What a recorder needs of a simulation.  `save` is given the bytes of a buffer and gives them as
it leaves them, also when it fails. -/
class Simulation (σ : Type) where
  stateSize : σ → Nat
  save : σ → Bytes → Bytes × Except SimulationError Unit
  load : σ → Bytes → σ × Except SimulationError Unit

/-- What a step did. -/
inductive Outcome where
  | recorded
  | skipped
  | rewound
  | exhausted
  deriving DecidableEq, Repr

/-- The name of an outcome. -/
def Outcome.name : Outcome → String
  | .recorded => "Recorded"
  | .skipped => "Skipped"
  | .rewound => "Rewound"
  | .exhausted => "Exhausted"

/-- A history, how many steps lie between two recorded states, and the steps since the last one. -/
structure Recorder where
  history : History
  granularity : UInt32
  counter : UInt32

variable {σ : Type} [Simulation σ]

/-- The history with the state of a simulation as its newest.  What a failed save leaves stays in
the state being prepared. -/
def History.record (h : History) (sim : σ) : History × Except Failure Unit :=
  let h := h.prepare
  match Simulation.save sim h.staged with
  | (bytes, .error e) => (h.stage 0 bytes, .error (.simulation e))
  | (bytes, .ok ()) => (h.stage 0 bytes).commit

namespace Recorder

/-- A recorder for a simulation, with the simulation's state as its first.  The state's size is the
simulation's, whatever the configuration says. -/
def start (config : Config) (sim : σ) : Except Failure Recorder := do
  let config := { config with stateSize := Simulation.stateSize sim }
  let h ← History.create config .widest
  let (h, outcome) := h.record sim
  outcome
  return ⟨h, config.granularity, 0⟩

/-- A step with the rewind input held: the newest state is loaded, or the oldest one again when no
other is left. -/
def back (r : Recorder) (sim : σ) : Recorder × σ × Except Failure Outcome :=
  match r.history.pop with
  | (h, .ok state) =>
    match Simulation.load sim state with
    | (sim, .ok ()) => ({ r with history := h, counter := 0 }, sim, .ok .rewound)
    | (sim, .error e) =>
      ({ r with history := h.putBack, counter := 0 }, sim, .error (.simulation e))
  | (h, .error _) =>
    let r := { r with history := h, counter := 0 }
    match h.current with
    | none => (r, sim, .ok .exhausted)
    | some oldest =>
      match Simulation.load sim oldest with
      | (sim, .ok ()) => (r, sim, .ok .exhausted)
      | (sim, .error e) => (r, sim, .error (.simulation e))

/-- A step with the rewind input not held: the state is recorded if it is its turn. -/
def forward (r : Recorder) (sim : σ) : Recorder × Except Failure Outcome :=
  let r := { r with counter := (r.counter + 1) % r.granularity }
  if r.counter ≠ 0 then (r, .ok .skipped)
  else
    let expected := r.history.stateSize
    let actual := Simulation.stateSize sim
    if actual ≠ expected then (r, .error (.simulation (.sizeChanged expected actual)))
    else
      match r.history.record sim with
      | (h, .error e) => ({ r with history := h }, .error e)
      | (h, .ok ()) => ({ r with history := h }, .ok .recorded)

/-- One step. -/
def step (r : Recorder) (sim : σ) (held : Bool) : Recorder × σ × Except Failure Outcome :=
  if held then r.back sim
  else
    let (r, outcome) := r.forward sim
    (r, sim, outcome)

end Recorder

end Retrace
