import Retrace.Proofs.History.Phases
import Retrace.Proofs.Recorder.States

/-!
# The phase of a recorder's history

A recorder commits just where it records, and it is started with a commit.  A state that its simulation rejects is put
back, which leaves the phase: the front is not live then, and there was a commit, as the recorder asserts.

* `putBack?`, `back?`, `step?`: a step with that assertion;
* `lastCommit`: the history that the last commit of a recorder found;
* `inPhase_step`, `inPhase_run`: the phase keeps in step with it;
* `phases_follow_commits`: so does every history that is used by hand or by a recorder, and the assertion holds.
-/

namespace Retrace

variable {σ : Type} [Simulation σ]

namespace History

variable {size : Nat} {h : History} {last : Option History}

/-- The history with the state that was last taken back in it again, if the front is one that was taken back. -/
def putBack? (h : History) : Option History :=
  if h.live = false ∧ h.phase ≠ .empty then some h.putBack else none

theorem InPhase.putBack (hp : InPhase size last h) {state : Bytes} (hpop : h.pop.2 = .ok state) :
    InPhase size last h.pop.1.putBack := by
  obtain ⟨q, hi⟩ := hp.intact
  obtain ⟨hstates, hintact⟩ := hi.putBack hpop
  obtain ⟨-, -, hring⟩ := h.pop_fixes
  obtain ⟨-, hphase, -⟩ := h.pop_cases
  exact hp.keep hintact hphase (Ring.count_le_of_fixes hring) hstates.trans

theorem InPhase.stageSaved (hp : InPhase size last h) (sim : σ) : InPhase size last (h.stageSaved sim) :=
  hp.prepare.stage 0 _

end History

namespace Recorder

open History (InPhase Phased)

variable {size : Nat} {r : Recorder} {last : Option History}

/-! ### Steps with the assertion -/

/-- A step with the rewind input held, which asserts that a state it puts back was taken. -/
def back? (r : Recorder) (sim : σ) : Option (Recorder × σ × Except Failure Outcome) :=
  match r.history.pop with
  | (h, .ok state) =>
    match Simulation.load sim state with
    | (sim, .ok ()) => some ({ r with history := h, counter := 0 }, sim, .ok .rewound)
    | (sim, .error e) =>
      h.putBack?.map fun h => ({ r with history := h, counter := 0 }, sim, .error (.simulation e))
  | (h, .error _) =>
    let r := { r with history := h, counter := 0 }
    match h.current with
    | none => some (r, sim, .ok .exhausted)
    | some oldest =>
      match Simulation.load sim oldest with
      | (sim, .ok ()) => some (r, sim, .ok .exhausted)
      | (sim, .error e) => some (r, sim, .error (.simulation e))

/-- One step with that assertion. -/
def step? (r : Recorder) (sim : σ) (held : Bool) : Option (Recorder × σ × Except Failure Outcome) :=
  if held then r.back? sim
  else
    let (r, outcome) := r.forward sim
    some (r, sim, outcome)

/-- Where a recorder is ready, a state that was taken may be put back. -/
theorem Ready.putBack?_eq (hr : Ready size r) {state : Bytes} (hpop : r.history.pop.2 = .ok state) :
    r.history.pop.1.putBack? = some r.history.pop.1.putBack := by
  obtain ⟨-, hphase, ⟨-, hdead⟩ | ⟨hnone, -⟩⟩ := r.history.pop_cases
  · exact if_pos ⟨hdead, fun hempty => hr.started (hphase.symm.trans hempty)⟩
  · rw [hpop] at hnone
    contradiction

theorem Ready.back?_eq (hr : Ready size r) (sim : σ) : r.back? sim = some (r.back sim) := by
  have hput (state : Bytes) : r.history.pop.2 = .ok state → _ := hr.putBack?_eq
  unfold back? back
  generalize r.history.pop = popped at hput ⊢
  obtain ⟨h, e | state⟩ := popped
  · dsimp only
    cases h.current with
    | none => rfl
    | some oldest =>
      dsimp only
      generalize Simulation.load sim oldest = loaded
      obtain ⟨sim', _ | _⟩ := loaded <;> rfl
  · dsimp only
    generalize Simulation.load sim state = loaded
    obtain ⟨sim', e | _⟩ := loaded
    · dsimp only
      rw [hput state rfl]
      rfl
    · rfl

theorem Ready.step?_eq (hr : Ready size r) (sim : σ) (held : Bool) : r.step? sim held = some (r.step sim held) := by
  cases held with
  | true => exact hr.back?_eq sim
  | false => rfl

/-! ### The last commit -/

/-- The history that the last commit found, after one more step. -/
def lastCommitAfter (r : Recorder) (last : Option History) (sim : σ) (held : Bool) : Option History :=
  match (r.step sim held).2.2 with
  | .ok .recorded => some (r.history.stageSaved sim)
  | _ => last

/-- The history that the last commit found, after some steps. -/
def lastCommit (r : Recorder) (last : Option History) : List (σ × Bool) → Option History
  | [] => last
  | s :: steps => (r.step s.1 s.2).1.lastCommit (r.lastCommitAfter last s.1 s.2) steps

/-- **One step keeps the phase in step.** -/
theorem inPhase_step (hp : InPhase size last r.history) (sim : σ) (held : Bool) :
    InPhase size (r.lastCommitAfter last sim held) (r.step sim held).1.history := by
  obtain ⟨q, hi⟩ := hp.intact
  unfold lastCommitAfter
  rcases history_step hi sim held with ⟨hrecorded, hcommit⟩ | ⟨hunrecorded, hleft⟩
  · rw [hrecorded, hcommit]
    exact (hp.stageSaved sim).commit
  · split
    · next hrecorded => exact absurd hrecorded hunrecorded
    · generalize (r.step sim held).1.history = after at hleft ⊢
      cases hleft with
      | left => exact hp
      | staged => exact hp.stageSaved sim
      | popped => exact hp.pop
      | putBack popped => exact hp.putBack popped

theorem inPhase_run (hp : InPhase size last r.history) (steps : List (σ × Bool)) :
    InPhase size (r.lastCommit last steps) (r.run steps).history := by
  induction steps generalizing r last with
  | nil => exact hp
  | cons s steps ih => exact ih (inPhase_step hp s.1 s.2)

theorem inPhase_start {config : Config} {first : σ} {r₀ : Recorder} (hstart : start config first = .ok r₀) :
    ∃ made, History.create { config with stateSize := Simulation.stateSize first } .widest = .ok made ∧
      InPhase (Simulation.stateSize first) (some (made.stageSaved first)) r₀.history := by
  obtain ⟨made, hmade, hcommitted⟩ := start_commits hstart
  refine ⟨made, hmade, ?_⟩
  rw [hcommitted]
  exact ((History.inPhase_create hmade).stageSaved first).commit

/-! ### Runs -/

/-- **The phase tells what the last commit found.**  So it is with a history after any operations since it was made,
where the last commit is the last since it was cleared, if there was one; and so it is with the history of a recorder
after any steps with any simulations, and after any operations on that history then.  Wherever a step of the recorder
puts a state back, the front is not live and the phase is not that of an empty history. -/
theorem phases_follow_commits (config : Config) (scanner : Scanner) :
    (∀ h₀, History.create config scanner = .ok h₀ →
      ∀ ops, Phased (h₀.lastCommit none ops) (h₀.run ops)) ∧
    ∀ (first : σ) (r₀ : Recorder), start config first = .ok r₀ →
      ∃ made, History.create { config with stateSize := Simulation.stateSize first } .widest = .ok made ∧
        ∀ steps : List (σ × Bool),
          let r := r₀.run steps
          let last := r₀.lastCommit (some (made.stageSaved first)) steps
          (∀ ops, Phased (r.history.lastCommit last ops) (r.history.run ops)) ∧
            ∀ (sim : σ) (held : Bool), r.step? sim held = some (r.step sim held) := by
  refine ⟨fun h₀ hmade ops => ?_, fun first r₀ hstart => ?_⟩
  · exact ((History.inPhase_create hmade).run ops).phased
  · obtain ⟨made, hmade, hp⟩ := inPhase_start hstart
    obtain ⟨hready, -⟩ := start_keeps hstart
    refine ⟨made, hmade, fun steps => ⟨fun ops => ?_, (run_ready hready steps).step?_eq⟩⟩
    exact ((inPhase_run hp steps).run ops).phased

/-- Two states are committed and taken back, so that the phase still tells of a patch.  The next commit finds no state.
A recorder takes back the state that it recorded, and the rig rejects the one before. -/
theorem phases_follow_commits_small :
    let before : List History.Op := [.stage 0 ⟨#[7, 8, 9]⟩, .commit, .commit, .pop, .pop]
    let steps := [(rigOf ⟨#[4, 5, 6]⟩, false), (rigOf ⟨#[4, 5, 6]⟩, true)]
    let busy := (rigOf ⟨#[4, 5, 6]⟩).obey (.failLoad "busy")
    ∃ h₀ r₀, History.create ⟨3, 40, 1⟩ .vector = .ok h₀ ∧
      start ⟨0, 40, 1⟩ (rigOf ⟨#[1, 2, 3]⟩) = .ok r₀ ∧
        (h₀.run before).phase = .streaming ∧ (h₀.run (before ++ [.commit])).phase = .seeded ∧
          Phased (h₀.lastCommit none (before ++ [.commit])) (h₀.run (before ++ [.commit])) ∧
            (r₀.run steps).history.phase = .streaming ∧ (∃ last, Phased last (r₀.run steps).history) ∧
              ((r₀.run steps).step? busy true).map (·.2.2) = some (.error (.simulation (.failed "busy"))) := by
  intro before steps busy
  obtain ⟨h₀, r₀, hmade, hstart, hstreaming, hseeded, hphase, hbusy⟩ : ∃ h₀ r₀,
      History.create ⟨3, 40, 1⟩ .vector = .ok h₀ ∧ start ⟨0, 40, 1⟩ (rigOf ⟨#[1, 2, 3]⟩) = .ok r₀ ∧
        (h₀.run before).phase = .streaming ∧ (h₀.run (before ++ [.commit])).phase = .seeded ∧
          (r₀.run steps).history.phase = .streaming ∧
            ((r₀.run steps).step busy true).2.2 = .error (.simulation (.failed "busy")) :=
    ⟨_, _, rfl, rfl, by decide +kernel, by decide +kernel, by decide +kernel, by decide +kernel⟩
  obtain ⟨hsession, -⟩ := @phases_follow_commits Workload.Rig _ ⟨3, 40, 1⟩ .vector
  obtain ⟨-, hrecorder⟩ := @phases_follow_commits Workload.Rig _ ⟨0, 40, 1⟩ .vector
  obtain ⟨made, -, hsteps⟩ := hrecorder _ r₀ hstart
  obtain ⟨hphased, hstep⟩ := hsteps steps
  refine ⟨h₀, r₀, hmade, hstart, hstreaming, hseeded, hsession h₀ hmade _, hphase, ⟨_, hphased []⟩, ?_⟩
  rw [hstep busy true, Option.map_some, hbusy]

end Recorder

end Retrace
