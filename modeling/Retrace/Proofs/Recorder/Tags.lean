import Mathlib.Algebra.Group.Nat.Even
import Retrace.Proofs.Bank
import Retrace.Proofs.History.Checked
import Retrace.Proofs.Recorder.States

/-!
# The tags of a history

The front and the staging snapshot have the tags that they were made with, and nothing that is written to them reaches
these.  A commit puts the two in each other's place, so the tags tell whether the number of commits is even.

* `Tagged`: the tags after so many commits;
* `Tagged.exec`, `Tagged.run`: an operation changes them as it commits or not, and so on;
* `tagged_step`, `tagged_run`: so it is with the steps of a recorder;
* `labels_travel`: snapshots show byte strings with a label that is never written, and so do those of any history.
-/

namespace Retrace

variable {σ : Type} [Simulation σ]

namespace History

variable {size n : Nat} {h : History} {q : List (Nat × Bytes)}

/-! ### Commits -/

/-- How many commits an operation is. -/
def Op.commits : Op → Nat
  | .commit => 1
  | .prepare | .stage _ _ | .pop | .clear => 0

/-- How many commits there are among some operations. -/
def commits : List Op → Nat
  | [] => 0
  | op :: ops => op.commits + commits ops

/-- **The tags after `n` commits.** -/
structure Tagged (n : Nat) (h : History) : Prop where
  front : h.front.tag = if Even n then 0xFFFF else 0x0000
  staging : h.staging.tag = if Even n then 0x0000 else 0xFFFF

theorem tagged_create {config : Config} {scanner : Scanner} (hmade : create config scanner = .ok h) : Tagged 0 h := by
  obtain ⟨hfront, hstaging, -⟩ := create_eq_ok hmade
  exact ⟨Snapshot.tag_create hfront, Snapshot.tag_create hstaging⟩

/-- What leaves the tags. -/
theorem Tagged.keep (ht : Tagged n h) {h' : History}
    (htags : h'.front.tag = h.front.tag ∧ h'.staging.tag = h.staging.tag) : Tagged n h' :=
  ⟨htags.1.trans ht.front, htags.2.trans ht.staging⟩

theorem Tagged.prepare (ht : Tagged n h) : Tagged n h.prepare := by
  obtain ⟨hfront, hstaging⟩ := h.tags_prepare
  exact ht.keep ⟨hfront, congrArg Snapshot.tag hstaging⟩

theorem Tagged.stage (ht : Tagged n h) (pos : Nat) (src : Bytes) : Tagged n (h.stage pos src) :=
  ht.keep ⟨rfl, h.staging.tag_write pos src⟩

theorem Tagged.commit (ht : Tagged n h) (hi : Intact size h q) : Tagged (n + 1) h.commit.1 := by
  obtain ⟨hfront, hstaging⟩ := hi.tags_commit
  constructor
  · rw [hfront, ht.staging]
    simp only [Nat.even_add_one, ite_not]
  · rw [hstaging, ht.front]
    simp only [Nat.even_add_one, ite_not]

theorem Tagged.pop (ht : Tagged n h) : Tagged n h.pop.1 := by
  obtain ⟨hfront, hstaging⟩ := h.tags_pop
  exact ht.keep ⟨hfront, congrArg Snapshot.tag hstaging⟩

theorem Tagged.clear (ht : Tagged n h) : Tagged n h.clear := ht.keep ⟨h.front.tag_erase, h.staging.tag_erase⟩

/-- **One operation** puts the tags in each other's place if it commits. -/
theorem Tagged.exec (ht : Tagged n h) (hi : Intact size h q) (op : Op) : Tagged (n + op.commits) (h.exec op).1 := by
  cases op with
  | prepare => exact ht.prepare
  | stage pos src => exact ht.stage pos src
  | commit => exact ht.commit hi
  | pop => exact ht.pop
  | clear => exact ht.clear

theorem Tagged.run (ht : Tagged n h) (hi : Intact size h q) (ops : List Op) :
    Tagged (n + commits ops) (h.run ops) := by
  induction ops generalizing n h q with
  | nil => exact ht
  | cons op ops ih =>
    obtain ⟨evicted, -, -, q', hq'⟩ := exec_keeps hi op
    have hrun := ih (ht.exec hi op) hq'
    rwa [Nat.add_assoc] at hrun

theorem Tagged.stageSaved (ht : Tagged n h) (sim : σ) : Tagged n (h.stageSaved sim) := ht.prepare.stage 0 _

theorem Tagged.commitSaved (ht : Tagged n h) (hi : Intact size h q) (sim : σ) :
    Tagged (n + 1) (h.stageSaved sim).commit.1 := by
  obtain ⟨-, -, -, q', hq'⟩ := hi.stageSaved sim
  exact (ht.stageSaved sim).commit hq'

end History

namespace Recorder

open History (Tagged)

variable {size n : Nat} {r : Recorder}

/-! ### Recorders -/

/-- How many commits a step is that answers so. -/
def commitsOf : Except Failure Outcome → Nat
  | .ok .recorded => 1
  | _ => 0

/-- How many commits there are in some steps. -/
def commits (r : Recorder) : List (σ × Bool) → Nat
  | [] => 0
  | s :: steps => commitsOf (r.step s.1 s.2).2.2 + commits (r.step s.1 s.2).1 steps

theorem tagged_step (hr : Ready size r) (ht : Tagged n r.history) (sim : σ) (held : Bool) :
    Tagged (n + commitsOf (r.step sim held).2.2) (r.step sim held).1.history := by
  obtain ⟨q, hi⟩ := hr.intact
  rcases history_step hi sim held with ⟨hrecorded, hcommit⟩ | ⟨hunrecorded, hleft⟩
  · rw [hrecorded, hcommit]
    exact ht.commitSaved hi sim
  · have hnone : commitsOf (r.step sim held).2.2 = 0 := by
      unfold commitsOf
      split
      · next hrecorded => exact absurd hrecorded hunrecorded
      · rfl
    rw [hnone]
    generalize (r.step sim held).1.history = after at hleft ⊢
    cases hleft with
    | left => exact ht
    | staged => exact ht.stageSaved sim
    | popped => exact ht.pop
    | putBack popped => exact ht.pop.keep ⟨rfl, rfl⟩

theorem tagged_run (hr : Ready size r) (ht : Tagged n r.history) (steps : List (σ × Bool)) :
    Tagged (n + r.commits steps) (r.run steps).history := by
  induction steps generalizing n r with
  | nil => exact ht
  | cons s steps ih =>
    obtain ⟨hready, -⟩ := step_keeps hr s.1 s.2
    have hrun := ih hready (tagged_step hr ht s.1 s.2)
    rwa [Nat.add_assoc] at hrun

theorem tagged_start {config : Config} {first : σ} {r₀ : Recorder} (hstart : start config first = .ok r₀) :
    Tagged 1 r₀.history := by
  obtain ⟨made, hmade, hcommitted⟩ := start_commits hstart
  rw [hcommitted]
  exact (History.tagged_create hmade).commitSaved (History.intact_of_create hmade) first

/-! ### Labels -/

open Bank in
/-- **Snapshots are byte strings with a label that is never written.**  Some snapshots of any sizes and tags are made,
written to, filled, copied to, patched, erased, swapped and cloned, in any order.  What they show of their bytes is
what byte strings of these sizes show, and their sizes and tags are what labels show that are left by all that is
written; what can not be done with these can not be done with the snapshots.  A patch of any bytes is applied in place,
run by run, and erasing clears every word but the tag.  So in a history that was made and then used, or that a recorder
has after any steps with any simulations, and that is then used, the tags are `0xFFFF` and `0x0000`, the front having
`0xFFFF` just where the number of commits is even. -/
theorem labels_travel :
    (∀ (bank : List Snapshot) (uses : List Use),
      (snapshots.run? bank uses).map (List.map Snapshot.bytes) = byteStrings.run? (bank.map Snapshot.bytes) uses ∧
        (snapshots.run? bank uses).map (List.map label) = labels.run? (bank.map label) uses) ∧
      (∀ (s : Snapshot) (patch : Bytes), s.apply patch = s.replay 0 (Patch.decode patch).segments) ∧
      (∀ s : Snapshot, s.erase.words = List.replicate (wordCount s.size) 0 ++ [s.tag]) ∧
      (∀ config scanner h₀, History.create config scanner = .ok h₀ →
        ∀ ops, Tagged (History.commits ops) (h₀.run ops)) ∧
      ∀ config (first : σ) (r₀ : Recorder), start config first = .ok r₀ →
        ∀ (steps : List (σ × Bool)) ops,
          Tagged (1 + r₀.commits steps + History.commits ops) ((r₀.run steps).history.run ops) := by
  refine ⟨fun bank uses => ⟨hom_bytes.run? bank uses, hom_label.run? bank uses⟩, Snapshot.apply_eq_replay,
    Snapshot.words_erase, fun config scanner h₀ hmade ops => ?_, fun config first r₀ hstart steps ops => ?_⟩
  · have hrun := (History.tagged_create hmade).run (History.intact_of_create hmade) ops
    rwa [Nat.zero_add] at hrun
  · obtain ⟨hready, -⟩ := start_keeps hstart
    obtain ⟨q, hi⟩ := (run_ready hready steps).intact
    exact (tagged_run hready (tagged_start hstart) steps).run hi ops

open Bank in
/-- A snapshot of three bytes is filled, and a patch of four words is applied to it.  It changes places with an empty
one and is cloned, and the clone is erased.  A history has had three commits, and a recorder two. -/
theorem labels_travel_small :
    let patch : Bytes := ⟨#[4, 0, 0, 0, 1, 2, 3, 4, 5, 6, 7, 8, 0, 0, 0, 0, 0, 0]⟩
    let uses := [.create 3 7, .create 0 9, .edit 0 (.fill 255), .edit 0 (.patch patch), .swap 0 1, .clone 1,
      .edit 2 .zero]
    let ops : List History.Op := [.commit, .pop, .commit, .commit, .clear]
    let steps := [(rigOf ⟨#[4, 5, 6]⟩, false), (rigOf ⟨#[4, 5, 6]⟩, true)]
    (snapshots.run? [] uses).map (List.map Snapshot.bytes) = some [⟨#[]⟩, ⟨#[1, 2, 3]⟩, ⟨#[0, 0, 0]⟩] ∧
      (snapshots.run? [] uses).map (List.map label) = some [⟨0, 9⟩, ⟨3, 7⟩, ⟨3, 7⟩] ∧
        ∃ h₀ r₀, History.create ⟨3, 40, 1⟩ .vector = .ok h₀ ∧
          start ⟨0, 40, 1⟩ (rigOf ⟨#[1, 2, 3]⟩) = .ok r₀ ∧
            (h₀.run ops).front.tag = 0x0000 ∧ (r₀.run steps).history.front.tag = 0xFFFF := by
  intro patch uses ops steps
  obtain ⟨hbank, -, -, hsession, hrecorder⟩ := @labels_travel Workload.Rig _
  obtain ⟨hbytes, hlabels⟩ := hbank [] uses
  obtain ⟨h₀, hmade⟩ : ∃ h₀, History.create ⟨3, 40, 1⟩ .vector = .ok h₀ := ⟨_, rfl⟩
  obtain ⟨r₀, hstart, hcommits⟩ : ∃ r₀,
      start ⟨0, 40, 1⟩ (rigOf ⟨#[1, 2, 3]⟩) = .ok r₀ ∧ r₀.commits steps = 1 := ⟨_, rfl, by decide +kernel⟩
  have hodd : (h₀.run ops).front.tag = if Even 3 then 0xFFFF else 0x0000 := (hsession _ _ h₀ hmade ops).front
  have heven := (hrecorder _ _ r₀ hstart steps []).front
  rw [hcommits] at heven
  exact ⟨hbytes.trans (by decide +kernel), hlabels.trans (by decide +kernel), h₀, r₀, hmade, hstart,
    hodd.trans (if_neg (by decide)), heven⟩

end Recorder

end Retrace
