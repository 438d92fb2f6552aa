import Retrace.Proofs.History.Prepared
import Retrace.Proofs.Recorder.States

/-!
# A rejected state costs a recorder nothing

A state that a simulation rejects was taken from the history and is put back.  The ring has lost the patch that
made the state by then, so the recorder is not what it was: its history is prepared.

* `reached_run`: the history of a recorder is one that comes about;
* `offered`: the state that a held step offers to the simulation;
* `run_rejections`: rejections leave the recorder with its history prepared and its counter at zero;
* `Abreast.step`: a recorder with its history prepared answers the same to a step, and so on;
* `reports_after_rejections`: so nothing shows, later on, that states were rejected.
-/

namespace Retrace

variable {σ : Type} [Simulation σ]

namespace History

variable {config : Config} {scanner : Scanner} {h h' : History} {size : Nat} {q : List (Nat × Bytes)}

theorem Reached.stageSaved (hr : Reached config scanner h) (sim : σ) :
    Reached config scanner (h.stageSaved sim) := (hr.exec .prepare).exec (.stage 0 _)

/-- A simulation is saved into a prepared history, whether it was prepared before or not. -/
theorem Ahead.record (hi : Intact size h q) (ha : Ahead h h') (sim : σ) : h'.record sim = h.record sim := by
  obtain ⟨-, -, -, htwice, -⟩ := hi.prepared
  rcases ha with rfl | rfl
  · rfl
  · unfold History.record
    rw [htwice]

end History

namespace Recorder

open History (Reached Ahead Intact)

variable {config : Config} {scanner : Scanner} {r r' : Recorder} {size : Nat} {q : List (Nat × Bytes)}

/-! ### The histories of recorders -/

theorem reached_step (hr : Reached config scanner r.history) (sim : σ) (held : Bool) :
    Reached config scanner (r.step sim held).1.history := by
  obtain ⟨q, hi⟩ := hr.lasting.intact
  rcases history_step hi sim held with ⟨-, hcommit⟩ | ⟨-, hleft⟩
  · rw [hcommit]
    exact (hr.stageSaved sim).exec .commit
  · generalize (r.step sim held).1.history = after at hleft ⊢
    cases hleft with
    | left => exact hr
    | staged => exact hr.stageSaved sim
    | popped => exact hr.exec .pop
    | putBack popped => exact hr.putBack popped

theorem reached_run (hr : Reached config scanner r.history) (steps : List (σ × Bool)) :
    Reached config scanner (r.run steps).history := by
  induction steps generalizing r with
  | nil => exact hr
  | cons s steps ih => exact ih (reached_step hr s.1 s.2)

theorem reached_start {sim : σ} (h : start config sim = .ok r) :
    Reached { config with stateSize := Simulation.stateSize sim } .widest r.history := by
  obtain ⟨made, hmade, hcommitted⟩ := start_commits h
  rw [hcommitted]
  exact ((Reached.create hmade).stageSaved sim).exec .commit

/-! ### What a step shows -/

/-- The state that a held step offers to the simulation: the newest, or the one at the front when no state is
left. -/
def offered (r : Recorder) : Option Bytes :=
  match r.history.pop.2 with
  | .ok state => some state
  | .error _ => r.history.pop.1.current

/-- A held step loads the offered state into the simulation and does nothing else with it.  It fails just where
the load does. -/
theorem back_offered (r : Recorder) (sim : σ) :
    ∃ outcome, (r.back sim).2 =
      match r.offered with
      | none => (sim, .ok outcome)
      | some state =>
        ((Simulation.load sim state).1,
          ((Simulation.load sim state).2.mapError Failure.simulation).map fun _ => outcome) := by
  rw [back_eq]
  unfold offered
  cases r.history.pop.2 with
  | ok last =>
    refine ⟨.rewound, ?_⟩
    dsimp only
    cases hload : (Simulation.load sim last).2 <;> rfl
  | error e =>
    refine ⟨.exhausted, ?_⟩
    dsimp only
    cases r.history.pop.1.current with
    | none => rfl
    | some oldest =>
      dsimp only
      cases hload : (Simulation.load sim oldest).2 <;> rfl

/-- What can be seen of a step: what it did, the simulation after it, the state that was offered, and the number
of entries and the tally after it. -/
structure Report (σ : Type) where
  outcome : Except Failure Outcome
  sim : σ
  offered : Option Bytes
  entries : Nat
  tally : Tally

/-- What can be seen of the next step. -/
def report (r : Recorder) (sim : σ) (held : Bool) : Report σ :=
  let (after, sim, outcome) := r.step sim held
  ⟨outcome, sim, if held then r.offered else none, after.history.entries, after.history.tally⟩

/-- What can be seen of some steps, in their order. -/
def reports (r : Recorder) : List (σ × Bool) → List (Report σ)
  | [] => []
  | (sim, held) :: steps => r.report sim held :: reports (r.step sim held).1 steps

theorem reports_concat (r : Recorder) (steps : List (σ × Bool)) (last : σ × Bool) :
    r.reports (steps ++ [last]) = r.reports steps ++ [(r.run steps).report last.1 last.2] := by
  induction steps generalizing r with
  | nil => rfl
  | cons first rest ih => exact congrArg (r.report first.1 first.2 :: ·) (ih (r.step first.1 first.2).1)

/-! ### Rejections -/

/-- Whether a simulation rejects the state that a held step offers to it. -/
def Rejected (r : Recorder) (sim : σ) : Prop :=
  ∃ state e, r.offered = some state ∧ (Simulation.load sim state).2 = .error e

/-- Whether so it is at each of some held steps in a row. -/
def Rejections (r : Recorder) : List σ → Prop
  | [] => True
  | sim :: sims => r.Rejected sim ∧ Rejections (r.back sim).1 sims

/-- The recorder with its history prepared and its counter at zero. -/
def prepared (r : Recorder) : Recorder := { r with history := r.history.prepare, counter := 0 }

theorem back_of_rejected (hi : Intact size r.history q) (hentries : r.history.entries ≠ 0) {sim : σ}
    (hrejected : r.Rejected sim) : (r.back sim).1 = r.prepared := by
  obtain ⟨state, e, hoffered, hload⟩ := hrejected
  rw [back_eq]
  unfold offered at hoffered
  cases hpop : r.history.pop.2 with
  | error e' => exact absurd ((hi.pop_eq_error_iff e').mp hpop).2 hentries
  | ok last =>
    rw [hpop] at hoffered
    obtain rfl : last = state := Option.some.inj hoffered
    dsimp only
    rw [hload, hi.putBack_pop hpop]
    rfl

/-- The first rejection prepares the history, and all that follow find it prepared. -/
theorem run_rejections (hi : Intact size r.history q) (hentries : r.history.entries ≠ 0) (sim : σ)
    (sims : List σ) (hrejects : r.Rejections (sim :: sims)) :
    r.run ((sim :: sims).map (·, true)) = r.prepared := by
  induction sims generalizing r q sim with
  | nil => exact back_of_rejected hi hentries hrejects.1
  | cons next sims ih =>
    obtain ⟨-, -, -, htwice, q', hq', -⟩ := hi.prepared
    obtain ⟨-, hentries', -⟩ := Ahead.shows hi (Or.inr rfl)
    obtain ⟨hfirst, hrest⟩ := hrejects
    have hback := back_of_rejected hi hentries hfirst
    rw [hback] at hrest
    have hpreparedTwice : r.prepared.prepared = r.prepared := by
      unfold prepared
      rw [htwice]
    show run (r.back sim).1 ((next :: sims).map (·, true)) = r.prepared
    rw [hback]
    exact (ih hq' (hentries'.trans_ne hentries) next hrest).trans hpreparedTwice

/-! ### Side by side -/

/-- Two recorders that differ in nothing but that the other one's history may have been prepared once more. -/
structure Abreast (r r' : Recorder) : Prop where
  history : Ahead r.history r'.history
  granularity : r'.granularity = r.granularity
  counter : r'.counter = r.counter

/-- A held step does the same with both. -/
theorem Abreast.back (hi : Intact size r.history q) (ha : Abreast r r') (sim : σ) :
    r'.back sim = r.back sim := by
  have hset (h : History) : Recorder.mk h r'.granularity 0 = Recorder.mk h r.granularity 0 := by
    rw [ha.granularity]
  rw [back_eq, back_eq, ha.history.pop hi]
  simp only [hset]

theorem Abreast.offered (hi : Intact size r.history q) (ha : Abreast r r') : r'.offered = r.offered := by
  unfold Recorder.offered
  rw [ha.history.pop hi]

/-- A step that records does the same with both, and one that does not leaves them as they are to each other. -/
theorem Abreast.forward (hi : Intact size r.history q) (ha : Abreast r r') (sim : σ) :
    (r'.forward sim).2 = (r.forward sim).2 ∧ Abreast (r.forward sim).1 (r'.forward sim).1 := by
  obtain ⟨-, -, -, -, -, hsize⟩ := ha.history.shows hi
  have hdue : r'.Due ↔ r.Due := by
    unfold Due
    rw [ha.counter, ha.granularity]
  have hcount : (r'.counter + 1) % r'.granularity = (r.counter + 1) % r.granularity := by
    rw [ha.counter, ha.granularity]
  by_cases hturn : r.Due
  · by_cases hsame : Simulation.stateSize sim = r.history.stateSize
    · rw [forward_of_due hturn hsame, forward_of_due (hdue.mpr hturn) (hsame.trans hsize.symm),
        ha.history.record hi sim]
      exact ⟨rfl, Or.inl rfl, ha.granularity, hcount⟩
    · have hdiffers : Simulation.stateSize sim ≠ r'.history.stateSize := by rwa [hsize]
      rw [forward_of_resized hturn hsame, forward_of_resized (hdue.mpr hturn) hdiffers, hsize]
      exact ⟨rfl, ha.history, ha.granularity, hcount⟩
  · rw [forward_of_early sim hturn, forward_of_early sim (mt hdue.mp hturn)]
    exact ⟨rfl, ha.history, ha.granularity, hcount⟩

/-- **One step of both**: the same can be seen of it, and they stay as they are to each other. -/
theorem Abreast.step (hr : Reached config scanner r.history) (ha : Abreast r r') (sim : σ) (held : Bool) :
    r'.report sim held = r.report sim held ∧ Abreast (r.step sim held).1 (r'.step sim held).1 := by
  obtain ⟨q, hi⟩ := hr.lasting.intact
  cases held with
  | true =>
    have hstep : r'.step sim true = r.step sim true := ha.back hi sim
    unfold report
    rw [hstep, ha.offered hi]
    exact ⟨rfl, Or.inl rfl, rfl, rfl⟩
  | false =>
    obtain ⟨houtcome, habreast⟩ := ha.forward hi sim
    obtain ⟨q', hq'⟩ := (reached_step hr sim false).lasting.intact
    obtain ⟨-, hentries, -, htally, -⟩ := habreast.history.shows hq'
    refine ⟨?_, habreast⟩
    show Report.mk (r'.forward sim).2 sim none (r'.forward sim).1.history.entries
      (r'.forward sim).1.history.tally = _
    rw [houtcome, hentries, htally]
    rfl

theorem Abreast.reports (hr : Reached config scanner r.history) (ha : Abreast r r')
    (steps : List (σ × Bool)) : r'.reports steps = r.reports steps := by
  induction steps generalizing r r' with
  | nil => rfl
  | cons s steps ih =>
    obtain ⟨hreport, habreast⟩ := ha.step hr s.1 s.2
    show r'.report s.1 s.2 :: Recorder.reports (r'.step s.1 s.2).1 steps =
      r.report s.1 s.2 :: Recorder.reports (r.step s.1 s.2).1 steps
    rw [hreport, ih (reached_step hr s.1 s.2) habreast]

/-- **A rejected state costs a recorder nothing.**  After any steps of a recorder that could be started, while it
has a state, let a number of held steps in a row, one or more, each offer a state that its simulation rejects.
They leave as many entries and the same tally.  And of whatever is done with the recorder from then on, with
any simulations, the same can be seen as if these steps had not been, but for the counter, which they set to
zero. -/
theorem reports_after_rejections {first : σ} {r₀ : Recorder} (hstart : start config first = .ok r₀)
    (steps : List (σ × Bool)) (hentries : (r₀.run steps).history.entries ≠ 0) {sims : List σ}
    (hsome : sims ≠ []) (hrejects : (r₀.run steps).Rejections sims) :
    let r := r₀.run steps
    let left := r.run (sims.map (·, true))
    left.history.entries = r.history.entries ∧ left.history.tally = r.history.tally ∧
      ∀ continuation : List (σ × Bool),
        left.reports continuation = Recorder.reports { r with counter := 0 } continuation := by
  intro r left
  have hr : Reached _ _ r.history := reached_run (reached_start hstart) steps
  obtain ⟨q, hi⟩ := hr.lasting.intact
  obtain ⟨sim, rest, rfl⟩ := List.exists_cons_of_ne_nil hsome
  have hleft : left = r.prepared := run_rejections hi hentries sim rest hrejects
  have hahead : Ahead r.history left.history := by
    rw [hleft]
    exact Or.inr rfl
  have habreast : Abreast { r with counter := 0 } left := by
    refine ⟨hahead, ?_, ?_⟩
    · rw [hleft]
      rfl
    · rw [hleft]
      rfl
  obtain ⟨-, hentries', -, htally, -⟩ := hahead.shows hi
  exact ⟨hentries', htally, habreast.reports hr⟩

/-- Two states are recorded and one is taken back.  The state that is left is rejected twice. -/
theorem reports_after_rejections_small :
    let rig := rigOf ⟨#[4, 5, 6]⟩
    let busy := rig.obey (.failLoad "busy")
    let steps := [(rig, false), (rig, true)]
    ∃ r₀ : Recorder, start ⟨0, 40, 1⟩ (rigOf ⟨#[1, 2, 3]⟩) = .ok r₀ ∧
      (r₀.run steps).history.entries ≠ 0 ∧ (r₀.run steps).Rejections [busy, busy] ∧
        ∀ continuation : List (Workload.Rig × Bool),
          ((r₀.run steps).run [(busy, true), (busy, true)]).reports continuation =
            Recorder.reports { r₀.run steps with counter := 0 } continuation := by
  intro rig busy steps
  have hrejected : ∃ r₀ : Recorder, start ⟨0, 40, 1⟩ (rigOf ⟨#[1, 2, 3]⟩) = .ok r₀ ∧
      (r₀.run steps).history.entries ≠ 0 ∧ (r₀.run steps).Rejections [busy, busy] := by
    refine ⟨_, rfl, by decide +kernel, ?_, ?_, trivial⟩
    · exact ⟨⟨#[1, 2, 3]⟩, .failed "busy", by decide +kernel, by decide +kernel⟩
    · exact ⟨⟨#[1, 2, 3]⟩, .failed "busy", by decide +kernel, by decide +kernel⟩
  obtain ⟨r₀, hstart, hentries, hrejects⟩ := hrejected
  have hafter := reports_after_rejections hstart steps hentries (List.cons_ne_nil _ _) hrejects
  exact ⟨r₀, hstart, hentries, hrejects, hafter.2.2⟩

end Recorder

end Retrace
