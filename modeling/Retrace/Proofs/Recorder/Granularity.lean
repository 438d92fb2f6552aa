import Mathlib.Data.List.DropRight
import Retrace.Proofs.Recorder.States

/-!
# Which steps record

The counter of a recorder is put forward before it is known whether the state can be recorded, and put back to zero
before it is known whether a state can be taken back.  So it counts steps, whatever becomes of them.

* `sinceHeld`: the steps since the rewind input was held;
* `Paced`: the counter is the remainder of such a number;
* `Paced.step`: every step keeps it so;
* `run_paced`: so it is after any steps of a new recorder, and it tells which of them record.
-/

namespace Retrace

namespace Recorder

variable {σ : Type}

/-! ### The counter -/

/-- The number of steps since the last one with the rewind input held, or since the first one. -/
def sinceHeld (steps : List (σ × Bool)) : Nat := (steps.rtakeWhile fun s => !s.2).length

theorem sinceHeld_concat (steps : List (σ × Bool)) (sim : σ) (held : Bool) :
    sinceHeld (steps ++ [(sim, held)]) = if held then 0 else sinceHeld steps + 1 := by
  unfold sinceHeld
  rw [List.rtakeWhile_concat]
  cases held <;> simp

variable [Simulation σ]

/-- A recorder that records every `g`-th step, `k` steps after the rewind input was held. -/
structure Paced (g : UInt32) (k : Nat) (r : Recorder) : Prop where
  granularity : r.granularity = g
  positive : 0 < g.toNat
  counter : r.counter.toNat = k % g.toNat

variable {g : UInt32} {k : Nat} {r : Recorder}

section Counter

variable (h : Paced g k r)
include h

theorem Paced.counter_lt : r.counter.toNat < g.toNat := by
  rw [h.counter]
  exact Nat.mod_lt _ h.positive

theorem Paced.toNat_succ : (r.counter + 1).toNat = r.counter.toNat + 1 := by
  have hlt := h.counter_lt
  have hg := g.toNat_lt
  rw [UInt32.toNat_add, UInt32.toNat_one]
  omega

theorem Paced.toNat_next : ((r.counter + 1) % r.granularity).toNat = (k + 1) % g.toNat := by
  rw [UInt32.toNat_mod, h.toNat_succ, h.granularity, h.counter, Nat.mod_add_mod]

theorem Paced.due_iff : r.Due ↔ g.toNat ∣ k + 1 := by
  rw [Due, ← UInt32.toNat_inj, h.toNat_next, Nat.dvd_iff_mod_eq_zero]
  rfl

/-- A step that does not record finds the counter below the granularity still after it was put forward. -/
theorem Paced.next_of_not_due (hearly : ¬ r.Due) : (r.counter + 1) % r.granularity = r.counter + 1 := by
  have hlt := h.counter_lt
  have hne : r.counter.toNat + 1 ≠ g.toNat := by
    intro heq
    refine hearly ?_
    rw [Due, ← UInt32.toNat_inj, UInt32.toNat_mod, h.toNat_succ, h.granularity, heq, Nat.mod_self]
    rfl
  rw [← UInt32.toNat_inj, UInt32.toNat_mod, h.toNat_succ, h.granularity]
  exact Nat.mod_eq_of_lt (by omega)

end Counter

/-! ### One step -/

theorem granularity_forward (r : Recorder) (sim : σ) :
    (r.forward sim).1.granularity = r.granularity ∧ (r.forward sim).1.counter = (r.counter + 1) % r.granularity := by
  by_cases hdue : r.Due
  · by_cases hsame : Simulation.stateSize sim = r.history.stateSize
    · rw [forward_of_due hdue hsame]
      exact ⟨rfl, rfl⟩
    · rw [forward_of_resized hdue hsame]
      exact ⟨rfl, rfl⟩
  · rw [forward_of_early sim hdue]
    exact ⟨rfl, rfl⟩

theorem granularity_back (r : Recorder) (sim : σ) :
    (r.back sim).1.granularity = r.granularity ∧ (r.back sim).1.counter = 0 := by
  rw [back_eq]
  split
  · split <;> exact ⟨rfl, rfl⟩
  · split <;> exact ⟨rfl, rfl⟩

/-- **Every step keeps the counter at the remainder**, whatever it answers. -/
theorem Paced.step (h : Paced g k r) (sim : σ) (held : Bool) :
    Paced g (if held then 0 else k + 1) (r.step sim held).1 := by
  cases held with
  | true =>
    obtain ⟨hsame, hzero⟩ := r.granularity_back sim
    refine ⟨hsame.trans h.granularity, h.positive, ?_⟩
    show (r.back sim).1.counter.toNat = 0 % g.toNat
    rw [hzero, Nat.zero_mod]
    rfl
  | false =>
    obtain ⟨hsame, hnext⟩ := r.granularity_forward sim
    refine ⟨hsame.trans h.granularity, h.positive, ?_⟩
    show (r.forward sim).1.counter.toNat = (k + 1) % g.toNat
    rw [hnext, h.toNat_next]

/-- What a step that records makes of the history, and answers. -/
def attempt (r : Recorder) (sim : σ) : History × Except Failure Outcome :=
  if Simulation.stateSize sim = r.history.stateSize then
    ((r.history.record sim).1, (r.history.record sim).2.map fun _ => .recorded)
  else (r.history, .error (.simulation (.sizeChanged r.history.stateSize (Simulation.stateSize sim))))

theorem attempt_ne_skipped (r : Recorder) (sim : σ) : (r.attempt sim).2 ≠ .ok .skipped := by
  unfold attempt
  split
  · cases (r.history.record sim).2 <;> simp [Except.map]
  · simp

theorem step_of_due (hdue : r.Due) (sim : σ) :
    r.step sim false = ({ r with history := (r.attempt sim).1, counter := 0 }, sim, (r.attempt sim).2) := by
  have hzero : (r.counter + 1) % r.granularity = 0 := hdue
  have hstep : r.step sim false = ((r.forward sim).1, sim, (r.forward sim).2) := rfl
  rw [hstep]
  unfold attempt
  split
  · next hsame => rw [forward_of_due hdue hsame, hzero]
  · next hdiffers => rw [forward_of_resized hdue hdiffers, hzero]

theorem Paced.step_of_early (h : Paced g k r) (hearly : ¬ r.Due) (sim : σ) :
    r.step sim false = ({ r with counter := r.counter + 1 }, sim, .ok .skipped) := by
  have hstep : r.step sim false = ((r.forward sim).1, sim, (r.forward sim).2) := rfl
  rw [hstep, forward_of_early sim hearly, h.next_of_not_due hearly]

/-! ### Runs -/

theorem paced_start {config : Config} {first : σ} (hstart : start config first = .ok r) :
    Paced config.granularity 0 r := by
  obtain ⟨made, hmade, -, rfl⟩ := start_eq_ok hstart
  obtain ⟨hcheck, -⟩ := History.create_eq_ok_iff.mp ⟨made, hmade⟩
  refine ⟨rfl, Nat.pos_of_ne_zero fun hzero => ?_, (Nat.zero_mod _).symm⟩
  have hnone : config.granularity = 0 := UInt32.toNat_inj.mp hzero
  simp [Config.check, Config.checkWith, hnone] at hcheck
  split at hcheck <;> contradiction

theorem Paced.run (h : Paced g 0 r) (steps : List (σ × Bool)) : Paced g (sinceHeld steps) (r.run steps) := by
  induction steps using List.reverseRecOn with
  | nil => exact h
  | append_singleton steps s ih =>
    rw [sinceHeld_concat, run_append]
    exact ih.step s.1 s.2

/-- **Every `g`-th step records.**  A recorder that could be started has a granularity `g` other than zero.  After any
steps of it, with any simulations, its counter is below `g`, so that the sum with one is not too large for it.  The next
step without the rewind input held is skipped just where `g` does not divide its number, counted since that input was
last held: then it does nothing with the history, and the same with every simulation of any kind.  Else it
attempts to record the state. -/
theorem run_paced {config : Config} {first : σ} {r₀ : Recorder} (hstart : start config first = .ok r₀)
    (steps : List (σ × Bool)) :
    let g := config.granularity.toNat
    let number := sinceHeld steps + 1
    let r := r₀.run steps
    (0 < g ∧ r.granularity.toNat = g) ∧
      (r.counter.toNat < g ∧ (r.counter + 1).toNat = r.counter.toNat + 1) ∧
        (¬ g ∣ number → ∀ {τ : Type} [Simulation τ] (sim : τ),
          r.step sim false = ({ r with counter := r.counter + 1 }, sim, .ok .skipped)) ∧
        (g ∣ number → ∀ {τ : Type} [Simulation τ] (sim : τ),
          r.step sim false = ({ r with history := (r.attempt sim).1, counter := 0 }, sim, (r.attempt sim).2) ∧
            (r.step sim false).2.2 ≠ .ok .skipped) := by
  intro g number r
  have h : Paced config.granularity (sinceHeld steps) r := (paced_start hstart).run steps
  refine ⟨⟨h.positive, congrArg UInt32.toNat h.granularity⟩, ⟨h.counter_lt, h.toNat_succ⟩, ?_, ?_⟩
  · intro hdivides τ _ sim
    exact h.step_of_early (mt h.due_iff.mp hdivides) sim
  · intro hdivides τ _ sim
    have hstep := step_of_due (h.due_iff.mpr hdivides) sim
    refine ⟨hstep, ?_⟩
    rw [hstep]
    exact r.attempt_ne_skipped sim

/-- Every third step is to record.  The third fails to save, and the fifth comes right after a held one, so that the
next one, which is the second since then, is skipped, and the one after it records. -/
theorem run_paced_third :
    let rig := rigOf ⟨#[4, 5, 6]⟩
    let steps := [(rig, false), (rig, false), (rig.obey (.failSave "late" ⟨#[9]⟩), false), (rig, true),
      (rig, false)]
    ∃ r₀ : Recorder, start ⟨0, 40, 3⟩ (rigOf ⟨#[1, 2, 3]⟩) = .ok r₀ ∧ ¬ 3 ∣ sinceHeld steps + 1 ∧
      3 ∣ sinceHeld (steps ++ [(rig, false)]) + 1 ∧ ((r₀.run steps).step rig false).2.2 = .ok .skipped ∧
        ((r₀.run (steps ++ [(rig, false)])).step rig false).2.2 ≠ .ok .skipped := by
  intro rig steps
  have hstarts : ∃ r₀ : Recorder, start ⟨0, 40, 3⟩ (rigOf ⟨#[1, 2, 3]⟩) = .ok r₀ := ⟨_, rfl⟩
  obtain ⟨r₀, hstart⟩ := hstarts
  have hearly : ¬ 3 ∣ sinceHeld steps + 1 := by decide
  have hdue : 3 ∣ sinceHeld (steps ++ [(rig, false)]) + 1 := by decide
  obtain ⟨-, -, hskips, -⟩ := run_paced hstart steps
  obtain ⟨-, -, -, hrecords⟩ := run_paced hstart (steps ++ [(rig, false)])
  obtain ⟨-, hattempts⟩ := hrecords hdue rig
  exact ⟨r₀, hstart, hearly, hdue, congrArg (·.2.2) (hskips hearly rig), hattempts⟩

end Recorder

end Retrace
