import Retrace.Proofs.Recorder.Rejections

/-!
# A recorder without states holds the oldest one

A state that was taken back stays at the front.  When the last one was taken back it is all there is to offer, and it
is offered at each held step until a state is recorded again.  A step that fails to record may have prepared the
history and written to the staging buffer by then, but there is no patch to apply to the front.

* `Holds`: no state is left, and `s` is at the front;
* `Holds.step`: so it stays with every step that does not record;
* `TookLast`: the last of some steps to take a state back took the only one that was left;
* `run_holds_oldest`: where no state is left, that is what all held steps offer.
-/

namespace Retrace

variable {σ : Type} [Simulation σ]

namespace History

variable {size : Nat} {h : History} {q : List (Nat × Bytes)}

/-- The history with one more taking back counted for which there was no state. -/
def missed (h : History) : History := { h with tally := { h.tally with emptyPops := h.tally.emptyPops + 1 } }

section Empty

variable (hi : Intact size h q) (hempty : h.states = [])
include hi hempty

/-- Where no state is left, there is no patch either, and the front is not live. -/
theorem Intact.of_empty : q = [] ∧ h.live = false := by
  have hentries : h.entries = 0 := by
    rw [hi.entries_eq, hempty]
    rfl
  rw [entries, hi.ring.count] at hentries
  obtain ⟨hnone, hdead⟩ := Nat.add_eq_zero_iff.mp hentries
  exact ⟨List.length_eq_zero_iff.mp hnone, Bool.toNat_eq_zero.mp hdead⟩

theorem Intact.pop_of_empty : h.pop = (h.missed, .error .empty) := by
  obtain ⟨rfl, hdead⟩ := hi.of_empty hempty
  exact hi.pop_nil hdead

/-- To save a simulation leaves the front as it is: there is nothing to prepare. -/
theorem Intact.front_stageSaved (sim : σ) : (h.stageSaved sim).front = h.front := by
  obtain ⟨rfl, -⟩ := hi.of_empty hempty
  have hfront : (h.stageSaved sim).front = h.prepare.front := rfl
  rw [hfront, hi.prepare_nil]

end Empty

end History

namespace Recorder

open History (Intact)

variable {size : Nat} {r : Recorder} {s : Bytes}

/-! ### Steps from and to no state -/

section Inversion

variable {sim sim' : σ} {held : Bool} {outcome : Except Failure Outcome} {evicted : Nat} {states' : List Bytes}

/-- With no state left, none is taken back, and only a step that records leaves one. -/
theorem Stepped.of_empty (hstep : Stepped r sim held outcome sim' evicted states')
    (hempty : r.history.states = []) :
    outcome ≠ .ok .rewound ∧ (outcome = .ok .recorded ↔ states' ≠ []) := by
  cases hstep with
  | next due same saves nonempty keeps => exact absurd hempty nonempty
  | rewound newest loads => simp [newest] at hempty
  | rejected newest fails => simp [newest] at hempty
  | first due same saves empty => simp
  | skipped | resized | unsaved => simp [hempty]
  | exhausted | refused => simp

/-- A step that leaves no state took back the only one there was. -/
theorem Stepped.takes_last (hstep : Stepped r sim held outcome sim' evicted states')
    (hsome : r.history.states ≠ []) (hnone : states' = []) :
    held = true ∧ outcome = .ok .rewound ∧ ∃ last, r.history.states = [last] := by
  cases hstep with
  | next due same saves nonempty keeps =>
    have hlength := congrArg List.length hnone
    simp only [List.length_drop, List.length_append, List.length_singleton, List.length_nil] at hlength
    omega
  | rewound newest loads =>
    subst hnone
    exact ⟨rfl, rfl, _, newest⟩
  | first => exact absurd hnone (List.cons_ne_nil _ _)
  | skipped | resized | unsaved | rejected => exact absurd hnone hsome
  | exhausted empty | refused empty => exact absurd empty hsome

end Inversion

/-! ### One step without states -/

/-- The recorder has no state left, and `s` is at the front of its history. -/
structure Holds (size : Nat) (s : Bytes) (r : Recorder) : Prop where
  ready : Ready size r
  empty : r.history.states = []
  front : r.history.front.bytes = s

theorem Holds.current (h : Holds size s r) : r.history.current = some s := by
  rw [← h.front]
  exact if_neg h.ready.started

theorem Holds.offered (h : Holds size s r) : r.offered = some s := by
  obtain ⟨q, hi⟩ := h.ready.intact
  unfold Recorder.offered
  rw [hi.pop_of_empty h.empty]
  exact h.current

/-- A held step offers the state at the front and counts that there was none to take back. -/
theorem Holds.back (h : Holds size s r) (sim : σ) :
    r.back sim =
      ({ r with history := r.history.missed, counter := 0 }, (Simulation.load sim s).1,
        ((Simulation.load sim s).2.mapError Failure.simulation).map fun _ => .exhausted) := by
  obtain ⟨q, hi⟩ := h.ready.intact
  have hcurrent : r.history.missed.current = some s := h.current
  rw [back_eq, hi.pop_of_empty h.empty]
  dsimp only
  rw [hcurrent]
  dsimp only
  cases (Simulation.load sim s).2 <;> rfl

theorem Holds.front_forward (h : Holds size s r) (sim : σ) (hunrecorded : (r.forward sim).2 ≠ .ok .recorded) :
    (r.forward sim).1.history.front = r.history.front := by
  obtain ⟨q, hi⟩ := h.ready.intact
  rcases r.forward_cases sim with ⟨hleft, -⟩ | ⟨hrecords, houtcome⟩
  · rw [hleft]
  · cases hsave : (Simulation.save sim r.history.staged).2 with
    | error e =>
      rw [hrecords, hi.record_of_error hsave]
      exact hi.front_stageSaved h.empty sim
    | ok =>
      -- a commit does not fail, so the state was recorded
      obtain ⟨-, -, -, q', hq'⟩ := hi.stageSaved sim
      rw [houtcome, hi.record_of_ok hsave, hq'.commit_ok] at hunrecorded
      exact absurd rfl hunrecorded

/-- **A step that does not record leaves the front**, whatever else it does. -/
theorem Holds.step (h : Holds size s r) (sim : σ) (held : Bool)
    (hunrecorded : (r.step sim held).2.2 ≠ .ok .recorded) :
    (r.step sim held).2.2 ≠ .ok .rewound ∧ Holds size s (r.step sim held).1 := by
  obtain ⟨hready, evicted, -, hstep⟩ := step_keeps h.ready sim held
  obtain ⟨hnottaken, hrecorded⟩ := hstep.of_empty h.empty
  refine ⟨hnottaken, hready, not_ne_iff.mp (mt hrecorded.mpr hunrecorded), ?_⟩
  cases held with
  | true =>
    show (r.back sim).1.history.front.bytes = s
    rw [h.back sim]
    exact h.front
  | false =>
    show (r.forward sim).1.history.front.bytes = s
    rw [h.front_forward sim hunrecorded]
    exact h.front

theorem Holds.run (h : Holds size s r) (steps : List (σ × Bool))
    (hunrecorded : ∀ report ∈ r.reports steps, report.outcome ≠ .ok .recorded) : Holds size s (r.run steps) := by
  induction steps generalizing r with
  | nil => exact h
  | cons first rest ih =>
    obtain ⟨hfirst, hrest⟩ := List.forall_mem_cons.mp hunrecorded
    exact ih (h.step first.1 first.2 hfirst).2 hrest

/-! ### The last state taken back -/

/-- The only state that is left is offered, and it is at the front once it was taken back. -/
theorem holds_back (hr : Ready size r) (hone : r.history.states = [s]) {sim : σ}
    (htaken : (r.back sim).2.2 = .ok .rewound) : r.offered = some s ∧ Holds size s (r.back sim).1 := by
  obtain ⟨q, hi⟩ := hr.intact
  obtain ⟨hready, -⟩ := back_keeps hr sim
  obtain ⟨evicted, -, hstep, -⟩ := History.pop_keeps hi
  obtain ⟨-, -, hcases⟩ := r.history.pop_cases
  rcases hcases with ⟨hpop, -⟩ | ⟨hpop, -⟩
  · rw [hpop] at hstep
    obtain ⟨hnewest, -⟩ := hstep.of_pop_ok
    have hsplit : [] ++ [s] = r.history.pop.1.states ++ [r.history.pop.1.front.bytes] := hone.symm.trans hnewest
    obtain ⟨hnone, hlast⟩ := List.append_inj' hsplit rfl
    obtain rfl := List.singleton_inj.mp hlast
    have hoffered : r.offered = some r.history.pop.1.front.bytes := by
      unfold offered
      rw [hpop]
    rw [back_eq, hpop] at htaken hready ⊢
    dsimp only at htaken hready ⊢
    cases hload : (Simulation.load sim r.history.pop.1.front.bytes).2 with
    | error e =>
      rw [hload] at htaken
      cases htaken
    | ok =>
      rw [hload] at hready
      exact ⟨hoffered, hready, hnone.symm, rfl⟩
  · rw [hpop] at hstep
    have hnone := hstep.of_pop_error.1
    rw [hone] at hnone
    exact absurd hnone (List.cons_ne_nil _ _)

/-- The last of some steps to take a state back took back `s`, the only state that was left. -/
def TookLast (r : Recorder) (steps : List (σ × Bool)) (s : Bytes) : Prop :=
  ∃ before sim after, steps = before ++ (sim, true) :: after ∧
    let last := r.run before
    last.history.states = [s] ∧ last.offered = some s ∧ (last.step sim true).2.2 = .ok .rewound ∧
      ∀ report ∈ (last.step sim true).1.reports after, report.outcome ≠ .ok .rewound

/-! ### Runs -/

/-- Where some steps leave no state, one of them took the last one back, and it is held since then. -/
theorem tookLast_run (hr : Ready size r) (hsome : r.history.states ≠ []) (steps : List (σ × Bool))
    (hempty : (r.run steps).history.states = []) : ∃ s, TookLast r steps s ∧ Holds size s (r.run steps) := by
  induction steps using List.reverseRecOn with
  | nil => exact absurd hempty hsome
  | append_singleton steps next ih =>
    obtain ⟨sim, held⟩ := next
    have hready := run_ready hr steps
    obtain ⟨-, evicted, -, hstep⟩ := step_keeps hready sim held
    rw [run_append] at hempty ⊢
    by_cases hbefore : (r.run steps).history.states = []
    · -- there was none before this step, so it neither recorded nor took one back
      obtain ⟨s, ⟨before, taker, after, rfl, hone, hoffered, htaken, hsince⟩, hholds⟩ := ih hbefore
      have hunrecorded := mt (hstep.of_empty hbefore).2.mp (not_not.mpr hempty)
      obtain ⟨hnottaken, hstill⟩ := hholds.step sim held hunrecorded
      refine ⟨s, ⟨before, taker, after ++ [(sim, held)], by simp, hone, hoffered, htaken, ?_⟩, hstill⟩
      rw [reports_concat]
      refine List.forall_mem_append.mpr ⟨hsince, List.forall_mem_singleton.mpr ?_⟩
      rw [run_append] at hnottaken
      exact hnottaken
    · obtain ⟨rfl, htaken, s, hone⟩ := hstep.takes_last hbefore hempty
      obtain ⟨hoffered, hholds⟩ := holds_back hready hone htaken
      exact ⟨s, ⟨steps, sim, [], rfl, hone, hoffered, htaken, List.forall_mem_nil _⟩, hholds⟩

/-- **A recorder without states holds the oldest one.**  Let any steps of a recorder that could be started, with any
simulations, leave no state.  There is a state `s` at the front then, and it is what the last of these steps to take a
state back took: the only one that was left.  A held step offers this `s` to the simulation, and is exhausted, or fails
as the simulation does.  It changes nothing in the history but the count of such steps.  So it is after any more steps
too, as long as none of them records, be they held, skipped, or failing with another size or with a simulation that
does not save. -/
theorem run_holds_oldest {config : Config} {first : σ} {r₀ : Recorder} (hstart : start config first = .ok r₀)
    (steps : List (σ × Bool)) (hempty : (r₀.run steps).history.entries = 0) :
    let r := r₀.run steps
    ∃ s, TookLast r₀ steps s ∧ r.history.current = some s ∧
      ∀ rest : List (σ × Bool), (∀ report ∈ r.reports rest, report.outcome ≠ .ok .recorded) →
        let kept := r.run rest
        kept.history.entries = 0 ∧ kept.history.current = some s ∧ kept.offered = some s ∧
          ∀ sim : σ, kept.step sim true =
            ({ kept with history := kept.history.missed, counter := 0 }, (Simulation.load sim s).1,
              ((Simulation.load sim s).2.mapError Failure.simulation).map fun _ => .exhausted) := by
  intro r
  obtain ⟨hready, hfirst⟩ := start_keeps hstart
  obtain ⟨q, hq⟩ := (run_ready hready steps).intact
  have hnone : r.history.states = [] := by rwa [hq.entries_eq, List.length_eq_zero_iff] at hempty
  have hsome : r₀.history.states ≠ [] := hfirst ▸ List.cons_ne_nil _ _
  obtain ⟨s, htook, hholds⟩ := tookLast_run hready hsome steps hnone
  refine ⟨s, htook, hholds.current, fun rest hunrecorded => ?_⟩
  have hkept := hholds.run rest hunrecorded
  obtain ⟨q', hq'⟩ := hkept.ready.intact
  refine ⟨?_, hkept.current, hkept.offered, hkept.back⟩
  rw [hq'.entries_eq, hkept.empty]
  rfl

/-- Two states are taken back.  A save that fails after it wrote a byte, a rig that reports another size, and a load
that fails lie between two held steps that offer the first state again. -/
theorem run_holds_oldest_small :
    let rig := rigOf ⟨#[4, 5, 6]⟩
    let steps := [(rig, false), (rig, true), (rig, true)]
    let rest := [(rig.obey (.failSave "late" ⟨#[9]⟩), false), (rig.obey (.reportSize (some 5)), false),
      (rig.obey (.failLoad "busy"), true)]
    ∃ r₀ : Recorder, start ⟨0, 40, 1⟩ (rigOf ⟨#[1, 2, 3]⟩) = .ok r₀ ∧
      (r₀.run steps).history.entries = 0 ∧ (∀ report ∈ (r₀.run steps).reports rest, report.outcome ≠ .ok .recorded) ∧
        TookLast r₀ steps ⟨#[1, 2, 3]⟩ ∧ ((r₀.run steps).step rig true).2.2 = .ok .exhausted ∧
          ((r₀.run steps).run rest).offered = some ⟨#[1, 2, 3]⟩ := by
  intro rig steps rest
  obtain ⟨r₀, hstart, hempty, hshown, hunrecorded⟩ : ∃ r₀ : Recorder,
      start ⟨0, 40, 1⟩ (rigOf ⟨#[1, 2, 3]⟩) = .ok r₀ ∧ (r₀.run steps).history.entries = 0 ∧
        (r₀.run steps).history.current = some ⟨#[1, 2, 3]⟩ ∧
          ∀ report ∈ (r₀.run steps).reports rest, report.outcome ≠ .ok .recorded :=
    ⟨_, rfl, by decide +kernel, by decide +kernel, by decide +kernel⟩
  obtain ⟨s, htook, hcurrent, hkept⟩ := run_holds_oldest hstart steps hempty
  obtain rfl := Option.some.inj (hshown.symm.trans hcurrent)
  obtain ⟨-, -, -, hheld⟩ := hkept [] (List.forall_mem_nil _)
  obtain ⟨-, -, hoffered, -⟩ := hkept rest hunrecorded
  exact ⟨r₀, hstart, hempty, hunrecorded, htook, congrArg (·.2.2) (hheld rig), hoffered⟩

end Recorder

end Retrace
