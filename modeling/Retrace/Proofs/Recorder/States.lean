import Retrace.Workload.Machine
import Retrace.Proofs.History.Reached

/-!
# A recorder keeps its history through failures

A simulation may report another size, fail to save its state after it wrote some of it, or reject a state that
it is offered.  None of these costs a state: a step adds the saved state, takes the newest one back, or leaves
the states as they are.

* `Stepped`: how a step changes the states of a recorder, with what the simulation does;
* `step_keeps`: every step changes them so;
* `Unrecorded`, `history_step`, `start_commits`: a step commits just where it records, and a recorder is started so;
* `run_keeps_history`: so it is after any steps of a new recorder, with any simulations.
-/

namespace Retrace

namespace History

variable {h : History}

/-! ### What stays as it is -/

theorem config_commit (h : History) : h.commit.1.config = h.config := by
  rw [← h.prepare_fixes.1]
  unfold commit
  dsimp only
  split
  · split <;> rfl
  · rfl

theorem phase_commit (hok : h.commit.2 = .ok ()) : h.commit.1.phase ≠ .empty := by
  unfold commit at hok ⊢
  dsimp only at hok ⊢
  split
  · next hlive =>
    rw [if_pos hlive] at hok
    split
    · next heq =>
      rw [heq] at hok
      contradiction
    · exact Phase.noConfusion
  · exact Phase.noConfusion

/-! ### What a step on the states says -/

section Inversion

variable {states states' : List Bytes} {staged staged' : Bytes} {evicted : Nat}

theorem StatesStep.of_commit {outcome : Except Failure Unit}
    (hstep : StatesStep states staged .commit (.committed outcome) evicted states' staged') :
    states = [] ∧ evicted = 0 ∧ states' = [staged] ∨
      states ≠ [] ∧ evicted ≤ states.length - 1 ∧ states' = (states ++ [staged]).drop evicted := by
  cases hstep with
  | first empty => exact Or.inl ⟨empty, rfl, rfl⟩
  | next nonempty keeps => exact Or.inr ⟨nonempty, keeps, rfl⟩

theorem StatesStep.of_pop_ok {last : Bytes}
    (hstep : StatesStep states staged .pop (.popped (.ok last)) evicted states' staged') :
    states = states' ++ [last] ∧ evicted = 0 := by
  cases hstep with
  | pop newest => exact ⟨newest, rfl⟩

theorem StatesStep.of_pop_error {e : Failure}
    (hstep : StatesStep states staged .pop (.popped (.error e)) evicted states' staged') :
    states = [] ∧ states' = states ∧ evicted = 0 := by
  cases hstep with
  | exhausted empty => exact ⟨empty, rfl, rfl⟩

end Inversion

/-! ### Saving a simulation -/

section Record

variable {σ : Type} [Simulation σ] {size : Nat} {q : List (Nat × Bytes)}

/-- What a buffer holds once a simulation was saved into it: the simulation's state and nothing else, if that
fills the buffer. -/
def saved (sim : σ) (buffer : Bytes) : Bytes := buffer.overlay 0 (Simulation.save sim buffer).1

/-- The history with a simulation saved as the state being prepared. -/
def stageSaved (h : History) (sim : σ) : History :=
  h.prepare.stage 0 (Simulation.save sim h.staged).1

/-- Saving a simulation changes the staged bytes only. -/
theorem Intact.stageSaved (hi : Intact size h q) (sim : σ) :
    (h.stageSaved sim).states = h.states ∧ (h.stageSaved sim).staged = saved sim h.staged ∧
      (h.stageSaved sim).tally = h.tally ∧ ∃ q', Intact size (h.stageSaved sim) q' := by
  obtain ⟨hstates, hstaged, htally, -, q', hq', -⟩ := hi.prepared
  refine ⟨hstates, ?_, htally, q', hq'.ring, hq'.limit, hq'.front, hq'.staging⟩
  have hwrite : (h.stageSaved sim).staged =
      h.prepare.staged.overlay 0 (Simulation.save sim h.staged).1 :=
    h.prepare.staging.bytes_write 0 _
  rw [hwrite, hstaged]
  rfl

theorem Intact.record_of_error (hi : Intact size h q) {sim : σ} {e : SimulationError}
    (hfails : (Simulation.save sim h.staged).2 = .error e) :
    h.record sim = (h.stageSaved sim, .error (.simulation e)) := by
  obtain ⟨-, hstaged, -⟩ := hi.prepared
  unfold record History.stageSaved
  dsimp only
  rw [hstaged]
  generalize Simulation.save sim h.staged = result at hfails ⊢
  obtain ⟨bytes, outcome⟩ := result
  obtain rfl : outcome = .error e := hfails
  rfl

theorem Intact.record_of_ok (hi : Intact size h q) {sim : σ}
    (hsaves : (Simulation.save sim h.staged).2 = .ok ()) :
    h.record sim = (h.stageSaved sim).commit := by
  obtain ⟨-, hstaged, -⟩ := hi.prepared
  unfold record History.stageSaved
  dsimp only
  rw [hstaged]
  generalize Simulation.save sim h.staged = result at hsaves ⊢
  obtain ⟨bytes, outcome⟩ := result
  obtain rfl : outcome = .ok () := hsaves
  rfl

theorem config_stageSaved (h : History) (sim : σ) : (h.stageSaved sim).config = h.config :=
  h.prepare_fixes.1

theorem phase_stageSaved (h : History) (sim : σ) : (h.stageSaved sim).phase = h.phase :=
  h.prepare_fixes.2.1

end Record

/-! ### Putting a state back -/

/-- A state that is put back after it was handed out is where it was. -/
theorem Intact.putBack {size : Nat} {q : List (Nat × Bytes)} {last : Bytes} (hi : Intact size h q)
    (hpop : h.pop.2 = .ok last) :
    h.pop.1.putBack.states = h.states ∧ ∃ q', Intact size h.pop.1.putBack q' := by
  obtain ⟨evicted, -, hstep, q', hq'⟩ := pop_keeps hi
  obtain ⟨-, -, hcases⟩ := h.pop_cases
  rw [hpop] at hstep hcases
  have hback : Intact size h.pop.1.putBack q' := ⟨hq'.ring, hq'.limit, hq'.front, hq'.staging⟩
  refine ⟨?_, q', hback⟩
  rcases hcases with ⟨hlast, hdead⟩ | ⟨hempty, -⟩
  · obtain rfl := Except.ok.inj hlast
    have hlive : h.pop.1.putBack.live = true := rfl
    have hfront : h.pop.1.putBack.front = h.pop.1.front := rfl
    have hbefore : h.pop.1.states = past h.pop.1.front.bytes q' := by
      rw [hq'.states_eq, hdead]
      exact List.append_nil _
    rw [hback.states_eq, hlive, if_pos rfl, hfront, ← hbefore]
    exact hstep.of_pop_ok.1.symm
  · contradiction

end History

namespace Recorder

variable {σ : Type} [Simulation σ]

/-! ### Steps -/

/-- Whether the next step records, if the rewind input is not held. -/
def Due (r : Recorder) : Prop := (r.counter + 1) % r.granularity = 0

/-- The recorder after some steps, each with the simulation as it is then and whether the rewind input is
held. -/
def run (r : Recorder) (steps : List (σ × Bool)) : Recorder :=
  steps.foldl (fun r s => (r.step s.1 s.2).1) r

theorem run_append (r : Recorder) (steps rest : List (σ × Bool)) : r.run (steps ++ rest) = (r.run steps).run rest :=
  List.foldl_append ..

/-- **One step on the states of a recorder**, the oldest first: with a simulation and whether the rewind input
is held, from the recorder before the step to what the step answers, the simulation after it, the number of
states evicted and the states after it.  The state that is recorded is what the staging buffer holds once the
simulation was saved into it; the newest state is the one that is offered. -/
inductive Stepped (r : Recorder) (sim : σ) :
    Bool → Except Failure Outcome → σ → Nat → List Bytes → Prop
  | skipped (early : ¬ r.Due) : Stepped r sim false (.ok .skipped) sim 0 r.history.states
  | resized (due : r.Due) (differs : Simulation.stateSize sim ≠ r.history.stateSize) :
    Stepped r sim false
      (.error (.simulation (.sizeChanged r.history.stateSize (Simulation.stateSize sim)))) sim 0
      r.history.states
  | unsaved {e : SimulationError} (due : r.Due)
    (same : Simulation.stateSize sim = r.history.stateSize)
    (fails : (Simulation.save sim r.history.staged).2 = .error e) :
    Stepped r sim false (.error (.simulation e)) sim 0 r.history.states
  | first (due : r.Due) (same : Simulation.stateSize sim = r.history.stateSize)
    (saves : (Simulation.save sim r.history.staged).2 = .ok ()) (empty : r.history.states = []) :
    Stepped r sim false (.ok .recorded) sim 0 [History.saved sim r.history.staged]
  | next {evicted : Nat} (due : r.Due) (same : Simulation.stateSize sim = r.history.stateSize)
    (saves : (Simulation.save sim r.history.staged).2 = .ok ()) (nonempty : r.history.states ≠ [])
    (keeps : evicted ≤ r.history.states.length - 1) :
    Stepped r sim false (.ok .recorded) sim evicted
      ((r.history.states ++ [History.saved sim r.history.staged]).drop evicted)
  | rewound {before : List Bytes} {last : Bytes} {sim' : σ} (newest : r.history.states = before ++ [last])
    (loads : Simulation.load sim last = (sim', .ok ())) :
    Stepped r sim true (.ok .rewound) sim' 0 before
  | rejected {before : List Bytes} {last : Bytes} {sim' : σ} {e : SimulationError}
    (newest : r.history.states = before ++ [last])
    (fails : Simulation.load sim last = (sim', .error e)) :
    Stepped r sim true (.error (.simulation e)) sim' 0 r.history.states
  | exhausted {oldest : Bytes} {sim' : σ} (empty : r.history.states = [])
    (shown : r.history.current = some oldest) (loads : Simulation.load sim oldest = (sim', .ok ())) :
    Stepped r sim true (.ok .exhausted) sim' 0 []
  | refused {oldest : Bytes} {sim' : σ} {e : SimulationError} (empty : r.history.states = [])
    (shown : r.history.current = some oldest)
    (fails : Simulation.load sim oldest = (sim', .error e)) :
    Stepped r sim true (.error (.simulation e)) sim' 0 []

/-- A recorder that was started with states of `size` bytes. -/
structure Ready (size : Nat) (r : Recorder) : Prop where
  stateSize : r.history.stateSize = size
  started : r.history.phase ≠ .empty
  intact : ∃ q, History.Intact size r.history q

/-- What one step does: a step on the states, which counts its evictions and leaves the recorder ready. -/
def Keeps (size : Nat) (r r' : Recorder) (sim : σ) (held : Bool) (outcome : Except Failure Outcome)
    (sim' : σ) : Prop :=
  Ready size r' ∧ ∃ evicted, r'.history.tally.evictions = r.history.tally.evictions + evicted ∧
    Stepped r sim held outcome sim' evicted r'.history.states

variable {size : Nat} {r : Recorder}

/-! ### Recording -/

theorem forward_of_early (sim : σ) (h : ¬ r.Due) :
    r.forward sim = ({ r with counter := (r.counter + 1) % r.granularity }, .ok .skipped) := if_pos h

theorem forward_of_resized {sim : σ} (h : r.Due)
    (hdiffers : Simulation.stateSize sim ≠ r.history.stateSize) :
    r.forward sim = ({ r with counter := (r.counter + 1) % r.granularity },
      .error (.simulation (.sizeChanged r.history.stateSize (Simulation.stateSize sim)))) := by
  have hturn : ¬ (r.counter + 1) % r.granularity ≠ 0 := not_not.mpr h
  unfold forward
  dsimp only
  rw [if_neg hturn, if_pos hdiffers]

theorem forward_of_due {sim : σ} (h : r.Due) (hsame : Simulation.stateSize sim = r.history.stateSize) :
    r.forward sim =
      ({ r with
          history := (r.history.record sim).1
          counter := (r.counter + 1) % r.granularity },
        (r.history.record sim).2.map fun _ => .recorded) := by
  have hturn : ¬ (r.counter + 1) % r.granularity ≠ 0 := not_not.mpr h
  unfold forward
  dsimp only
  rw [if_neg hturn, if_neg (not_not.mpr hsame)]
  generalize r.history.record sim = result
  obtain ⟨history, _ | _⟩ := result <;> rfl

/-- A step that may record leaves the history, or it saves the simulation into it and commits. -/
theorem forward_cases (r : Recorder) (sim : σ) :
    (r.forward sim).1.history = r.history ∧ (r.forward sim).2 ≠ .ok .recorded ∨
      (r.forward sim).1.history = (r.history.record sim).1 ∧
        (r.forward sim).2 = (r.history.record sim).2.map fun _ => .recorded := by
  by_cases hdue : r.Due
  · by_cases hsame : Simulation.stateSize sim = r.history.stateSize
    · rw [forward_of_due hdue hsame]
      exact Or.inr ⟨rfl, rfl⟩
    · rw [forward_of_resized hdue hsame]
      exact Or.inl ⟨rfl, by simp⟩
  · rw [forward_of_early sim hdue]
    exact Or.inl ⟨rfl, by simp⟩

theorem Ready.setCounter (hr : Ready size r) (counter : UInt32) : Ready size { r with counter } :=
  ⟨hr.stateSize, hr.started, hr.intact⟩

theorem forward_keeps_of_due (hr : Ready size r) {sim : σ} (hdue : r.Due)
    (hsame : Simulation.stateSize sim = r.history.stateSize) :
    Keeps size r (r.forward sim).1 sim false (r.forward sim).2 sim := by
  obtain ⟨q, hi⟩ := hr.intact
  obtain ⟨hstates, hstaged, htally, q', hq'⟩ := hi.stageSaved sim
  have hconfig := r.history.config_stageSaved sim
  have hphase := r.history.phase_stageSaved sim
  rw [forward_of_due hdue hsame]
  cases hsave : (Simulation.save sim r.history.staged).2 with
  | error e =>
    rw [hi.record_of_error hsave]
    refine ⟨⟨?_, ?_, q', hq'⟩, 0, ?_, ?_⟩
    · exact (congrArg Config.stateSize hconfig).trans hr.stateSize
    · exact fun hempty => hr.started (hphase.symm.trans hempty)
    · exact congrArg Tally.evictions htally
    · show Stepped r sim false (.error (.simulation e)) sim 0 (r.history.stageSaved sim).states
      rw [hstates]
      exact .unsaved hdue hsame hsave
  | ok =>
    rw [hi.record_of_ok hsave]
    obtain ⟨evicted, hevictions, hstep, hintact⟩ := History.commit_keeps hq'
    have hok := hq'.commit_ok
    refine ⟨⟨?_, History.phase_commit hok, hintact⟩, evicted, ?_, ?_⟩
    · have hcommit := (History.config_commit (r.history.stageSaved sim)).trans hconfig
      exact (congrArg Config.stateSize hcommit).trans hr.stateSize
    · rw [htally] at hevictions
      exact hevictions
    · rw [hok, hstates, hstaged] at hstep
      rw [hok]
      show Stepped r sim false (.ok .recorded) sim evicted (r.history.stageSaved sim).commit.1.states
      rcases hstep.of_commit with ⟨hempty, rfl, hfirst⟩ | ⟨hnonempty, hkeeps, hnext⟩
      · rw [hfirst]
        exact .first hdue hsame hsave hempty
      · rw [hnext]
        exact .next hdue hsame hsave hnonempty hkeeps

theorem forward_keeps (hr : Ready size r) (sim : σ) :
    Keeps size r (r.forward sim).1 sim false (r.forward sim).2 sim := by
  by_cases hdue : r.Due
  · by_cases hsame : Simulation.stateSize sim = r.history.stateSize
    · exact forward_keeps_of_due hr hdue hsame
    · rw [forward_of_resized hdue hsame]
      exact ⟨hr.setCounter _, 0, rfl, .resized hdue hsame⟩
  · rw [forward_of_early sim hdue]
    exact ⟨hr.setCounter _, 0, rfl, .skipped hdue⟩

/-! ### Going back -/

/-- A step with the rewind input held, by what the pop and the load answer. -/
theorem back_eq (r : Recorder) (sim : σ) :
    r.back sim =
      match r.history.pop.2 with
      | .ok state =>
        match (Simulation.load sim state).2 with
        | .ok () =>
          ({ r with history := r.history.pop.1, counter := 0 }, (Simulation.load sim state).1, .ok .rewound)
        | .error e =>
          ({ r with history := r.history.pop.1.putBack, counter := 0 }, (Simulation.load sim state).1,
            .error (.simulation e))
      | .error _ =>
        match r.history.pop.1.current with
        | none => ({ r with history := r.history.pop.1, counter := 0 }, sim, .ok .exhausted)
        | some oldest =>
          ({ r with history := r.history.pop.1, counter := 0 }, (Simulation.load sim oldest).1,
            match (Simulation.load sim oldest).2 with
            | .ok () => .ok .exhausted
            | .error e => .error (.simulation e)) := by
  unfold back
  generalize r.history.pop = popped
  obtain ⟨history, e | state⟩ := popped
  · dsimp only
    cases history.current with
    | none => rfl
    | some oldest =>
      dsimp only
      generalize Simulation.load sim oldest = loaded
      obtain ⟨sim', _ | _⟩ := loaded <;> rfl
  · dsimp only
    generalize Simulation.load sim state = loaded
    obtain ⟨sim', _ | _⟩ := loaded <;> rfl

theorem back_keeps (hr : Ready size r) (sim : σ) :
    Keeps size r (r.back sim).1 sim true (r.back sim).2.2 (r.back sim).2.1 := by
  obtain ⟨q, hi⟩ := hr.intact
  obtain ⟨hconfig, hphase, hcases⟩ := r.history.pop_cases
  obtain ⟨evicted, hevictions, hstep, hintact⟩ := History.pop_keeps hi
  have hready : Ready size { r with history := r.history.pop.1, counter := 0 } := by
    refine ⟨(congrArg Config.stateSize hconfig).trans hr.stateSize, ?_, hintact⟩
    exact fun hempty => hr.started (hphase.symm.trans hempty)
  rw [back_eq]
  rcases hcases with ⟨hpop, -⟩ | ⟨hpop, hfront⟩
  · obtain ⟨hback, hbackIntact⟩ := hi.putBack hpop
    rw [hpop] at hstep ⊢
    obtain ⟨hnewest, rfl⟩ := hstep.of_pop_ok
    generalize r.history.pop.1.front.bytes = last at hnewest ⊢
    dsimp only
    cases hload : (Simulation.load sim last).2 with
    | error e =>
      refine ⟨⟨hready.stateSize, hready.started, hbackIntact⟩, 0, hevictions, ?_⟩
      show Stepped r sim true _ _ 0 r.history.pop.1.putBack.states
      rw [hback]
      exact .rejected hnewest (Prod.ext rfl hload)
    | ok => exact ⟨hready, 0, hevictions, .rewound hnewest (Prod.ext rfl hload)⟩
  · rw [hpop] at hstep ⊢
    obtain ⟨hempty, hstates, rfl⟩ := hstep.of_pop_error
    have hshown : r.history.current = some r.history.front.bytes := if_neg hr.started
    have hcurrent : r.history.pop.1.current = some r.history.front.bytes := by
      rw [← hfront]
      exact if_neg hready.started
    dsimp only
    rw [hcurrent]
    dsimp only
    rw [hempty] at hstates
    refine ⟨hready, 0, hevictions, ?_⟩
    show Stepped r sim true _ _ 0 r.history.pop.1.states
    rw [hstates]
    cases hload : (Simulation.load sim r.history.front.bytes).2 with
    | error e => exact .refused hempty hshown (Prod.ext rfl hload)
    | ok => exact .exhausted hempty hshown (Prod.ext rfl hload)

/-! ### The history after a step -/

/-- What a step that does not record may make of the history. -/
inductive Unrecorded (h : History) (sim : σ) : History → Prop
  | left : Unrecorded h sim h
  | staged : Unrecorded h sim (h.stageSaved sim)
  | popped : Unrecorded h sim h.pop.1
  | putBack {state : Bytes} (popped : h.pop.2 = .ok state) : Unrecorded h sim h.pop.1.putBack

theorem history_back (r : Recorder) (sim : σ) :
    (r.back sim).2.2 ≠ .ok .recorded ∧ Unrecorded r.history sim (r.back sim).1.history := by
  rw [back_eq]
  cases hpop : r.history.pop.2 with
  | ok state =>
    dsimp only
    cases (Simulation.load sim state).2 with
    | ok => exact ⟨by simp, .popped⟩
    | error e => exact ⟨by simp, .putBack hpop⟩
  | error e =>
    dsimp only
    cases r.history.pop.1.current with
    | none => exact ⟨by simp, .popped⟩
    | some oldest =>
      refine ⟨?_, .popped⟩
      dsimp only
      split <;> simp

theorem history_forward {q : List (Nat × Bytes)} (hi : History.Intact size r.history q) (sim : σ) :
    (r.forward sim).2 = .ok .recorded ∧ (r.forward sim).1.history = (r.history.stageSaved sim).commit.1 ∨
      (r.forward sim).2 ≠ .ok .recorded ∧ Unrecorded r.history sim (r.forward sim).1.history := by
  rcases r.forward_cases sim with ⟨hleft, hunrecorded⟩ | ⟨hrecords, houtcome⟩
  · rw [hleft]
    exact Or.inr ⟨hunrecorded, .left⟩
  · rw [hrecords, houtcome]
    cases hsave : (Simulation.save sim r.history.staged).2 with
    | error e =>
      rw [hi.record_of_error hsave]
      exact Or.inr ⟨by simp [Except.map], .staged⟩
    | ok =>
      obtain ⟨-, -, -, q', hq'⟩ := hi.stageSaved sim
      rw [hi.record_of_ok hsave, hq'.commit_ok]
      exact Or.inl ⟨rfl, rfl⟩

/-- A step saves the simulation and commits just where it records. -/
theorem history_step {q : List (Nat × Bytes)} (hi : History.Intact size r.history q) (sim : σ) (held : Bool) :
    (r.step sim held).2.2 = .ok .recorded ∧
        (r.step sim held).1.history = (r.history.stageSaved sim).commit.1 ∨
      (r.step sim held).2.2 ≠ .ok .recorded ∧ Unrecorded r.history sim (r.step sim held).1.history := by
  cases held with
  | true => exact Or.inr (r.history_back sim)
  | false => exact history_forward hi sim

/-! ### Runs -/

/-- **Every step of a recorder is one step on its states.** -/
theorem step_keeps (hr : Ready size r) (sim : σ) (held : Bool) :
    Keeps size r (r.step sim held).1 sim held (r.step sim held).2.2 (r.step sim held).2.1 := by
  cases held with
  | true => exact back_keeps hr sim
  | false => exact forward_keeps hr sim

theorem run_ready (hr : Ready size r) (steps : List (σ × Bool)) : Ready size (r.run steps) := by
  induction steps generalizing r with
  | nil => exact hr
  | cons s steps ih => exact ih (step_keeps hr s.1 s.2).1

/-! ### New recorders -/

theorem start_eq_ok {config : Config} {sim : σ} (h : start config sim = .ok r) :
    ∃ made, History.create { config with stateSize := Simulation.stateSize sim } .widest = .ok made ∧
      (made.record sim).2 = .ok () ∧ r = ⟨(made.record sim).1, config.granularity, 0⟩ := by
  obtain ⟨made, hmade, h⟩ := bind_eq_ok h
  obtain ⟨⟨⟩, hsaved, h⟩ := bind_eq_ok h
  exact ⟨made, hmade, hsaved, (Except.ok.inj h).symm⟩

/-- A recorder is started with a commit, of a history that was just made. -/
theorem start_commits {config : Config} {sim : σ} (h : start config sim = .ok r) :
    ∃ made, History.create { config with stateSize := Simulation.stateSize sim } .widest = .ok made ∧
      r.history = (made.stageSaved sim).commit.1 := by
  obtain ⟨made, hmade, hsaved, rfl⟩ := start_eq_ok h
  have hi := History.intact_of_create hmade
  refine ⟨made, hmade, ?_⟩
  cases hsave : (Simulation.save sim made.staged).2 with
  | error e =>
    rw [hi.record_of_error hsave] at hsaved
    contradiction
  | ok => rw [hi.record_of_ok hsave]

/-- A new recorder is ready, with the first state of its simulation. -/
theorem start_keeps {config : Config} {sim : σ} (h : start config sim = .ok r) :
    Ready (Simulation.stateSize sim) r ∧
      r.history.states = [History.saved sim (Bytes.zeros (Simulation.stateSize sim))] := by
  obtain ⟨made, hmade, hcommitted⟩ := start_commits h
  have hi := History.intact_of_create hmade
  obtain ⟨-, hstaging, -, hconfig, -, hlive, -, -⟩ := History.create_eq_ok hmade
  have hstaged : made.staged = Bytes.zeros (Simulation.stateSize sim) := Snapshot.bytes_create hstaging
  have hempty : made.states = [] := by
    rw [hi.states_eq, hlive]
    rfl
  obtain ⟨hstates, hfilled, -, q, hq⟩ := hi.stageSaved sim
  obtain ⟨evicted, -, hstep, hintact⟩ := History.commit_keeps hq
  have hcommit := (History.config_commit (made.stageSaved sim)).trans (made.config_stageSaved sim)
  refine ⟨⟨?_, ?_, ?_⟩, ?_⟩
  · rw [History.stateSize, hcommitted, hcommit, hconfig]
  · rw [hcommitted]
    exact History.phase_commit hq.commit_ok
  · rw [hcommitted]
    exact hintact
  · rw [hstates, hempty, hfilled, hstaged] at hstep
    rw [hcommitted]
    rcases hstep.of_commit with ⟨-, -, hfirst⟩ | ⟨hnonempty, -⟩
    · exact hfirst
    · contradiction

/-- **A recorder keeps its history through failures.**  A recorder that could be started has the first state
of its simulation.  After any steps of it, with any simulations, its number of entries is that of its states;
the next step is one step on these, with as many evictions as the tally counts for it, whether the simulation
reports another size, fails to save or to load, or does none of that. -/
theorem run_keeps_history {config : Config} {first : σ} {r₀ : Recorder}
    (hstart : start config first = .ok r₀) :
    r₀.history.states = [History.saved first (Bytes.zeros (Simulation.stateSize first))] ∧
      ∀ (steps : List (σ × Bool)) (sim : σ) (held : Bool),
        let r := r₀.run steps
        let r' := (r.step sim held).1
        r.history.entries = r.history.states.length ∧
          r.history.stateSize = Simulation.stateSize first ∧
            ∃ evicted, r'.history.tally.evictions = r.history.tally.evictions + evicted ∧
              Stepped r sim held (r.step sim held).2.2 (r.step sim held).2.1 evicted r'.history.states := by
  obtain ⟨hready, hfirst⟩ := start_keeps hstart
  refine ⟨hfirst, fun steps sim held => ?_⟩
  have hr := run_ready hready steps
  obtain ⟨q, hq⟩ := hr.intact
  obtain ⟨-, hstep⟩ := step_keeps hr sim held
  exact ⟨hq.entries_eq, hr.stateSize, hstep⟩

/-- A rig with this state. -/
def rigOf (state : Bytes) : Workload.Rig := { machine := { state, source := .ofSeed 0 } }

/-- Three bytes are recorded twice.  Then a save fails after it wrote one byte, a load fails, and the same
state is offered again. -/
theorem run_keeps_history_small :
    let rig := rigOf ⟨#[4, 5, 6]⟩
    let steps := [(rig, false), (rig.obey (.failSave "late" ⟨#[9]⟩), false),
      (rig.obey (.failLoad "busy"), true)]
    ∃ r₀ : Recorder, start ⟨0, 40, 1⟩ (rigOf ⟨#[1, 2, 3]⟩) = .ok r₀ ∧
      (r₀.run steps).history.states = [⟨#[1, 2, 3]⟩, ⟨#[4, 5, 6]⟩] ∧
        ∃ outcome sim evicted states, Stepped (r₀.run steps) rig true outcome sim evicted states ∧
          outcome = .ok .rewound ∧ states = [⟨#[1, 2, 3]⟩] := by
  intro rig steps
  obtain ⟨-, hrun⟩ := run_keeps_history (show start ⟨0, 40, 1⟩ (rigOf ⟨#[1, 2, 3]⟩) = .ok _ from rfl)
  obtain ⟨-, -, evicted, -, hstep⟩ := hrun steps rig true
  exact ⟨_, rfl, by decide +kernel, _, _, evicted, _, hstep, by decide +kernel, by decide +kernel⟩

end Recorder

end Retrace
