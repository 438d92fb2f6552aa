import Retrace.Proofs.Recorder.States

/-!
# Every state that was committed is accounted for

A state that was committed is still there, or it was taken back, evicted, or dropped when all was cleared.  The
states of a history are not counted anywhere: their number is that of the patches, and one more while the
front is live.

* `Balanced`: the tally and the entries of a history add up;
* `exec_balances`: one operation keeps the balance;
* `tally_putBack`: putting a state back takes back just what its pop had counted;
* `Recorder.run_conserves`: a history is in balance after any operations, and so is one that a recorder kept.
-/

namespace Retrace

namespace History

variable {size c : Nat} {h : History} {q : List (Nat × Bytes)}

/-! ### What is counted -/

/-- The committed states are those taken back, evicted, still there, and `c` more. -/
def Balanced (h : History) (c : Nat) : Prop :=
  h.tally.pushes = h.tally.pops + h.tally.evictions + h.entries + c

/-- How many of the entries an operation drops uncounted. -/
def Op.drops (entries : Nat) : Op → Nat
  | .clear => entries
  | .prepare | .stage .. | .commit | .pop => 0

/-- The entries that were there just before each time that all was cleared, added up over some operations. -/
def dropped (h : History) : List Op → Nat
  | [] => 0
  | op :: ops => op.drops h.entries + dropped (h.exec op).1 ops

/-- The states that an answer says were added. -/
def Answer.added : Answer → Nat
  | .committed (.ok ()) => 1
  | _ => 0

/-- The states that an answer says were taken back. -/
def Answer.taken : Answer → Nat
  | .popped (.ok _) => 1
  | _ => 0

theorem StatesStep.balance {states states' : List Bytes} {staged staged' : Bytes} {op : Op} {answer : Answer}
    {evicted : Nat} (hstep : StatesStep states staged op answer evicted states' staged') :
    states.length + answer.added = answer.taken + evicted + states'.length + op.drops states.length := by
  cases hstep with
  | next nonempty keeps =>
    have := List.length_pos_iff.mpr nonempty
    simp [Answer.added, Answer.taken, Op.drops]
    omega
  | pop newest =>
    simp [Answer.added, Answer.taken, Op.drops, newest]
    omega
  | first empty => simp [Answer.added, Answer.taken, Op.drops, empty]
  | prepare | stage | exhausted | clear => simp [Answer.added, Answer.taken, Op.drops]

theorem tally_pop (h : History) :
    h.pop.1.tally =
      match h.pop.2 with
      | .ok _ => { h.tally with pops := h.tally.pops + 1 }
      | .error _ => { h.tally with emptyPops := h.tally.emptyPops + 1 } := by
  unfold pop stepBack
  cases h.live with
  | true => rfl
  | false => cases h.ring.newest <;> rfl

/-- The tally counts the states that were added and those taken back. -/
theorem Intact.exec_tally (hi : Intact size h q) (op : Op) :
    (h.exec op).1.tally.pushes = h.tally.pushes + (h.exec op).2.added ∧
      (h.exec op).1.tally.pops = h.tally.pops + (h.exec op).2.taken := by
  obtain ⟨-, -, htally, -⟩ := hi.prepared
  cases op with
  | prepare =>
    dsimp only [exec]
    rw [htally]
    exact ⟨rfl, rfl⟩
  | commit =>
    dsimp only [exec]
    rw [← htally]
    rcases hi.commit_cases with ⟨-, hcommit⟩ | ⟨-, hcommit⟩
    · rw [hcommit]
      exact ⟨rfl, rfl⟩
    · rw [hcommit]
      exact ⟨rfl, rfl⟩
  | pop =>
    dsimp only [exec]
    rw [h.tally_pop]
    cases h.pop.2 <;> exact ⟨rfl, rfl⟩
  | stage | clear => exact ⟨rfl, rfl⟩

/-! ### Histories -/

/-- **One operation keeps the balance.** -/
theorem exec_balances (hi : Intact size h q) (hb : Balanced h c) (op : Op) :
    Balanced (h.exec op).1 (c + op.drops h.entries) := by
  obtain ⟨hpushes, hpops⟩ := hi.exec_tally op
  obtain ⟨evicted, hevictions, hstep, q', hq'⟩ := exec_keeps hi op
  have hentries := hstep.balance
  rw [← hi.entries_eq, ← hq'.entries_eq] at hentries
  unfold Balanced at hb ⊢
  omega

theorem run_balances (hi : Intact size h q) (hb : Balanced h c) (ops : List Op) :
    Balanced (h.run ops) (c + h.dropped ops) := by
  induction ops generalizing h q c with
  | nil => exact hb
  | cons op ops ih =>
    obtain ⟨evicted, -, -, q', hq'⟩ := exec_keeps hi op
    have hrest := ih hq' (exec_balances hi hb op)
    rwa [Nat.add_assoc] at hrest

/-- A history with the same states and the same tally is in balance just as well. -/
theorem Balanced.congr (hb : Balanced h c) {h' : History} {q' : List (Nat × Bytes)} (hi : Intact size h q)
    (hi' : Intact size h' q') (hstates : h'.states = h.states) (htally : h'.tally = h.tally) :
    Balanced h' c := by
  have hentries : h'.entries = h.entries := by rw [hi'.entries_eq, hi.entries_eq, hstates]
  unfold Balanced at hb ⊢
  rwa [htally, hentries]

theorem balanced_create {config : Config} {scanner : Scanner} (hmade : create config scanner = .ok h) :
    Balanced h 0 := by
  have hi := intact_of_create hmade
  obtain ⟨-, -, -, -, -, hlive, -, htally⟩ := create_eq_ok hmade
  have hentries : h.entries = 0 := by
    rw [entries, hi.ring.count, hlive]
    rfl
  unfold Balanced
  rw [htally, hentries]
  rfl

/-- **Putting a state back** takes back just what its pop had counted. -/
theorem tally_putBack {state : Bytes} (hpop : h.pop.2 = .ok state) :
    h.pop.1.tally.pops = h.tally.pops + 1 ∧ h.pop.1.putBack.tally = h.tally := by
  have htally := h.tally_pop
  rw [hpop] at htally
  unfold putBack
  dsimp only
  rw [htally]
  exact ⟨rfl, rfl⟩

/-- Saving a simulation keeps the balance, whether it fails or not. -/
theorem Balanced.stageSaved {σ : Type} [Simulation σ] (hb : Balanced h c) (hi : Intact size h q) (sim : σ) :
    Balanced (h.stageSaved sim) c := by
  obtain ⟨hstates, -, htally, q', hq'⟩ := hi.stageSaved sim
  exact hb.congr hi hq' hstates htally

theorem Balanced.commitSaved {σ : Type} [Simulation σ] (hb : Balanced h c) (hi : Intact size h q) (sim : σ) :
    Balanced (h.stageSaved sim).commit.1 c := by
  obtain ⟨-, -, -, q', hq'⟩ := hi.stageSaved sim
  exact exec_balances hq' (hb.stageSaved hi sim) .commit

end History

/-! ### Recorders -/

namespace Recorder

open History (Balanced)

variable {σ : Type} [Simulation σ] {size c : Nat} {r : Recorder}

theorem step_balances (hr : Ready size r) (hb : Balanced r.history c) (sim : σ) (held : Bool) :
    Balanced (r.step sim held).1.history c := by
  obtain ⟨q, hi⟩ := hr.intact
  rcases history_step hi sim held with ⟨-, hcommit⟩ | ⟨-, hleft⟩
  · rw [hcommit]
    exact hb.commitSaved hi sim
  · generalize (r.step sim held).1.history = after at hleft ⊢
    cases hleft with
    | left => exact hb
    | staged => exact hb.stageSaved hi sim
    | popped => exact History.exec_balances hi hb .pop
    | putBack popped =>
      obtain ⟨hstates, q', hq'⟩ := hi.putBack popped
      exact hb.congr hi hq' hstates (History.tally_putBack popped).2

theorem run_balances (hr : Ready size r) (hb : Balanced r.history c) (steps : List (σ × Bool)) :
    Balanced (r.run steps).history c := by
  induction steps generalizing r with
  | nil => exact hb
  | cons s steps ih => exact ih (step_keeps hr s.1 s.2).1 (step_balances hr hb s.1 s.2)

theorem balanced_start {config : Config} {sim : σ} (hstart : start config sim = .ok r) :
    Balanced r.history 0 := by
  obtain ⟨made, hmade, hcommitted⟩ := start_commits hstart
  rw [hcommitted]
  exact (History.balanced_create hmade).commitSaved (History.intact_of_create hmade) sim

/-- **Conservation of states.**  After any operations on a new history, the states that were committed are
those taken back, those evicted, the entries, and the entries that were there each time that all was cleared.
So it is with the history of a recorder after any steps, with any simulations, and with what is done to it
afterwards; and where the recorder puts back a state that was popped, there is a pop in the tally to take
back. -/
theorem run_conserves :
    (∀ {config : Config} {scanner : Scanner} {h₀ : History}, History.create config scanner = .ok h₀ →
      ∀ ops, let h := h₀.run ops
        h.tally.pushes = h.tally.pops + h.tally.evictions + h.entries + h₀.dropped ops) ∧
    (∀ {config : Config} {first : σ} {r₀ : Recorder}, start config first = .ok r₀ →
      ∀ (steps : List (σ × Bool)), let kept := (r₀.run steps).history
        (∀ ops, let h := kept.run ops
          h.tally.pushes = h.tally.pops + h.tally.evictions + h.entries + kept.dropped ops) ∧
        ∀ state, kept.pop.2 = .ok state →
          kept.pop.1.tally.pops ≠ 0 ∧ kept.pop.1.putBack.tally = kept.tally) := by
  constructor
  · intro config scanner h₀ hmade ops
    have hrun := History.run_balances (History.intact_of_create hmade) (History.balanced_create hmade) ops
    rwa [Nat.zero_add] at hrun
  · intro config first r₀ hstart steps kept
    have hready := (start_keeps hstart).1
    have hkept : Balanced kept 0 := run_balances hready (balanced_start hstart) steps
    obtain ⟨q, hi⟩ := (run_ready hready steps).intact
    refine ⟨fun ops => ?_, fun state hpop => ?_⟩
    · have hrun := History.run_balances hi hkept ops
      rwa [Nat.zero_add] at hrun
    · obtain ⟨hpops, htally⟩ := History.tally_putBack hpop
      exact ⟨by omega, htally⟩

/-- Five states of three bytes: one is taken back, one is there when all is cleared, and of the three after
that one is evicted.  A recorder that met a save and a load that failed offers the state that was put back
again; its history is cleared then. -/
theorem run_conserves_small :
    let ops : List History.Op :=
      [.commit, .stage 0 ⟨#[1, 2, 3]⟩, .commit, .pop, .clear, .pop, .commit, .commit, .commit]
    let rig := rigOf ⟨#[4, 5, 6]⟩
    let steps := [(rig, false), (rig.obey (.failSave "late" ⟨#[9]⟩), false),
      (rig.obey (.failLoad "busy"), true)]
    (∃ h₀, History.create ⟨3, 40, 1⟩ .vector = .ok h₀ ∧ h₀.dropped ops = 1 ∧
      let h := h₀.run ops
      (h.tally.pushes, h.tally.pops, h.tally.evictions, h.entries) = (5, 1, 1, 2) ∧
        h.tally.pushes = h.tally.pops + h.tally.evictions + h.entries + h₀.dropped ops) ∧
    ∃ r₀ : Recorder, start ⟨0, 40, 1⟩ (rigOf ⟨#[1, 2, 3]⟩) = .ok r₀ ∧
      let kept := (r₀.run steps).history
      let h := kept.run [.clear]
      kept.pop.2 = .ok ⟨#[4, 5, 6]⟩ ∧ kept.pop.1.tally.pops ≠ 0 ∧
        h.tally.pushes = h.tally.pops + h.tally.evictions + h.entries + kept.dropped [.clear] := by
  intro ops rig steps
  obtain ⟨hhistory, hrecorder⟩ := run_conserves (σ := Workload.Rig)
  constructor
  · obtain ⟨h₀, hmade, hdropped, hcounts⟩ : ∃ h₀, History.create ⟨3, 40, 1⟩ .vector = .ok h₀ ∧
        h₀.dropped ops = 1 ∧ ((h₀.run ops).tally.pushes, (h₀.run ops).tally.pops,
          (h₀.run ops).tally.evictions, (h₀.run ops).entries) = (5, 1, 1, 2) :=
      ⟨_, rfl, by decide +kernel, by decide +kernel⟩
    exact ⟨h₀, hmade, hdropped, hcounts, hhistory hmade ops⟩
  · obtain ⟨r₀, hstart, hpop⟩ : ∃ r₀ : Recorder, start ⟨0, 40, 1⟩ (rigOf ⟨#[1, 2, 3]⟩) = .ok r₀ ∧
        (r₀.run steps).history.pop.2 = .ok ⟨#[4, 5, 6]⟩ := ⟨_, rfl, by decide +kernel⟩
    obtain ⟨hruns, hputs⟩ := hrecorder hstart steps
    exact ⟨r₀, hstart, hpop, (hputs _ hpop).1, hruns [.clear]⟩

end Recorder

end Retrace
