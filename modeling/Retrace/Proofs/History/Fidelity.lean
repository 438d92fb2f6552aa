import Retrace.Proofs.History.States

/-!
# What goes into a history comes out of it

What can be done with a history, what it answers, and how that changes the list of its states: a commit adds
the staged bytes at the end and may evict at the front, and the states are taken back from the end.

* `StatesStep`: how an operation changes the states and the staged bytes;
* `exec_keeps`: the operations of a history change them so;
* `run_keeps_states`: so it is after any operations on a new history.
-/

namespace Retrace

namespace History

/-- What can be done with a history. -/
inductive Op where
  | prepare
  | stage (pos : Nat) (src : Bytes)
  | commit
  | pop
  | clear

/-- What a history answers. -/
inductive Answer where
  | done
  | committed (outcome : Except Failure Unit)
  | popped (outcome : Except Failure Bytes)

/-- The history after one operation, and its answer. -/
def exec (h : History) : Op → History × Answer
  | .prepare => (h.prepare, .done)
  | .stage pos src => (h.stage pos src, .done)
  | .commit => (h.commit.1, .committed h.commit.2)
  | .pop => (h.pop.1, .popped h.pop.2)
  | .clear => (h.clear, .done)

/-- The history after some operations. -/
def run (h : History) (ops : List Op) : History := ops.foldl (fun h op => (h.exec op).1) h

/-- **One step on the states of a history**, the oldest first, and on its staged bytes: from both before an
operation, with its answer and the number of states evicted for it, to both after it.  Of the states, the
one before the new one is never evicted.  After a commit and after all is cleared, nothing is said of the
staged bytes. -/
inductive StatesStep (states : List Bytes) (staged : Bytes) :
    Op → Answer → Nat → List Bytes → Bytes → Prop
  | prepare : StatesStep states staged .prepare .done 0 states staged
  | stage {pos : Nat} {src : Bytes} :
    StatesStep states staged (.stage pos src) .done 0 states (staged.overlay pos src)
  | first {staged' : Bytes} (empty : states = []) :
    StatesStep states staged .commit (.committed (.ok ())) 0 [staged] staged'
  | next {evicted : Nat} {staged' : Bytes} (nonempty : states ≠ []) (keeps : evicted ≤ states.length - 1) :
    StatesStep states staged .commit (.committed (.ok ())) evicted ((states ++ [staged]).drop evicted)
      staged'
  | pop {before : List Bytes} {last : Bytes} (newest : states = before ++ [last]) :
    StatesStep states staged .pop (.popped (.ok last)) 0 before staged
  | exhausted (empty : states = []) :
    StatesStep states staged .pop (.popped (.error .empty)) 0 states staged
  | clear {staged' : Bytes} : StatesStep states staged .clear .done 0 [] staged'

/-- What one operation does: a step on the states, which counts its evictions and leaves the patches laid
out. -/
def Keeps (size : Nat) (h h' : History) (op : Op) (answer : Answer) : Prop :=
  ∃ evicted, h'.tally.evictions = h.tally.evictions + evicted ∧
    StatesStep h.states h.staged op answer evicted h'.states h'.staged ∧ ∃ q, Intact size h' q

variable {size : Nat} {h : History} {q : List (Nat × Bytes)}

/-! ### Preparing -/

/-- A prepared history is as before but for the state at its front, which is live if there is one. -/
theorem Intact.prepared (hi : Intact size h q) :
    h.prepare.states = h.states ∧ h.prepare.staged = h.staged ∧ h.prepare.tally = h.tally ∧
      h.prepare.prepare = h.prepare ∧
        ∃ q', Intact size h.prepare q' ∧ (h.prepare.live = false → q' = []) := by
  cases hlive : h.live with
  | true =>
    rw [prepare_of_live hlive, prepare_of_live hlive]
    refine ⟨rfl, rfl, rfl, rfl, q, hi, fun hdead => ?_⟩
    rw [hlive] at hdead
    contradiction
  | false =>
    rcases List.eq_nil_or_concat' q with rfl | ⟨older, record, rfl⟩
    · rw [hi.prepare_nil, hi.prepare_nil]
      exact ⟨rfl, rfl, rfl, rfl, [], hi, fun _ => rfl⟩
    · have hback := hi.back.setLive true
      rw [hi.prepare_concat hlive, prepare_of_live rfl]
      refine ⟨?_, rfl, rfl, rfl, older, hback, fun hdead => by cases hdead⟩
      rw [hback.states_eq, hi.states_back hlive]
      rfl

theorem prepare_keeps (hi : Intact size h q) : Keeps size h h.prepare .prepare .done := by
  obtain ⟨hstates, hstaged, htally, -, q', hq', -⟩ := hi.prepared
  refine ⟨0, by rw [htally]; rfl, ?_, q', hq'⟩
  rw [hstates, hstaged]
  exact .prepare

theorem stage_keeps (hi : Intact size h q) (pos : Nat) (src : Bytes) :
    Keeps size h (h.stage pos src) (.stage pos src) .done := by
  have hstaged : (h.stage pos src).staged = h.staged.overlay pos src := h.staging.bytes_write pos src
  refine ⟨0, rfl, ?_, q, hi.ring, hi.limit, hi.front, hi.staging⟩
  rw [hstaged]
  exact .stage

/-! ### Committing -/

/-- The history with a patch from the staged state to the front, and the staged state at the front. -/
def extend (h : History) : History :=
  { h.swap with
    ring := h.extended
    phase := .streaming
    tally := h.tally.stored ⟨h.ring.place, h.undo.size, h.ring.evictions⟩ }

theorem Intact.commit_of_live (hi : Intact size h q) (hlive : h.live = true) :
    h.commit = (h.extend, .ok ()) := by
  unfold commit
  rw [prepare_of_live hlive]
  dsimp only
  rw [if_pos hlive, hi.pushDiff_eq]
  rfl

theorem Intact.extend (hi : Intact size h q) :
    Intact size h.extend (q.drop h.ring.evictions ++ [(h.ring.place, h.undo)]) :=
  ⟨hi.layout_extended, hi.ring.patchLimit_vacate.trans hi.limit, hi.staging, hi.front⟩

theorem Intact.states_extend (hi : Intact size h q) (hlive : h.live = true) :
    h.extend.states = (h.states ++ [h.staged]).drop h.ring.evictions := by
  have hevictions := hi.ring.evictions_le
  have hfront : h.extend.front.bytes = h.staged := rfl
  have hlive' : h.extend.live = h.live := rfl
  rw [hi.extend.states_eq, hi.states_eq, hfront, hlive', hlive, if_pos rfl, if_pos rfl, past_concat,
    hi.apply_undo, past_drop, List.append_assoc, List.append_assoc,
    List.drop_append_of_le_length (by rw [length_past]; exact hevictions)]

theorem commit_keeps_of_live (hi : Intact size h q) (hlive : h.live = true) :
    Keeps size h h.commit.1 .commit (.committed h.commit.2) := by
  have hevictions := hi.ring.evictions_le
  have hlength : h.states.length = q.length + 1 := by
    rw [hi.states_eq, hlive, List.length_append, length_past]
    rfl
  have hnonempty : h.states ≠ [] := by
    intro hnil
    rw [hnil] at hlength
    contradiction
  rw [hi.commit_of_live hlive]
  refine ⟨h.ring.evictions, rfl, ?_, _, hi.extend⟩
  rw [hi.states_extend hlive]
  exact .next hnonempty (by omega)

theorem Intact.commit_of_empty (hi : Intact size h []) (hlive : h.live = false) :
    h.commit = (h.seed, .ok ()) := by
  unfold commit
  rw [hi.prepare_nil]
  dsimp only
  rw [hlive]
  rfl

theorem Intact.seed (hi : Intact size h q) : Intact size h.seed q :=
  ⟨hi.ring, hi.limit, hi.staging, hi.front⟩

theorem commit_keeps_of_empty (hi : Intact size h []) (hlive : h.live = false) :
    Keeps size h h.commit.1 .commit (.committed h.commit.2) := by
  have hempty : h.states = [] := by
    rw [hi.states_eq, hlive]
    rfl
  have hstates : h.seed.states = [h.staged] := hi.seed.states_eq
  rw [hi.commit_of_empty hlive]
  refine ⟨0, rfl, ?_, [], hi.seed⟩
  rw [hstates]
  exact .first hempty

/-- A commit prepares first, so it makes no difference whether that was done before. -/
theorem Intact.commit_prepare (hi : Intact size h q) : h.prepare.commit = h.commit := by
  obtain ⟨-, -, -, htwice, -⟩ := hi.prepared
  unfold commit
  rw [htwice]

/-- The two things that a commit may do. -/
theorem Intact.commit_cases (hi : Intact size h q) :
    h.prepare.live = true ∧ h.commit = (h.prepare.extend, .ok ()) ∨
      h.prepare.live = false ∧ h.commit = (h.prepare.seed, .ok ()) := by
  obtain ⟨-, -, -, -, q', hq', hdead⟩ := hi.prepared
  rw [← hi.commit_prepare]
  cases hlive : h.prepare.live with
  | true => exact Or.inl ⟨rfl, hq'.commit_of_live hlive⟩
  | false =>
    obtain rfl := hdead hlive
    exact Or.inr ⟨rfl, hq'.commit_of_empty hlive⟩

theorem commit_keeps (hi : Intact size h q) :
    Keeps size h h.commit.1 .commit (.committed h.commit.2) := by
  obtain ⟨hstates, hstaged, htally, -, q', hq', hdead⟩ := hi.prepared
  -- preparing shows nothing, so the commit may start from there
  have hkeeps : Keeps size h.prepare h.commit.1 .commit (.committed h.commit.2) := by
    rw [← hi.commit_prepare]
    cases hlive : h.prepare.live with
    | true => exact commit_keeps_of_live hq' hlive
    | false =>
      obtain rfl := hdead hlive
      exact commit_keeps_of_empty hq' hlive
  unfold Keeps at hkeeps ⊢
  rwa [hstates, hstaged, htally] at hkeeps

/-! ### Taking back -/

theorem pop_of_live (hlive : h.live = true) :
    h.pop = ({ h with live := false, tally := { h.tally with pops := h.tally.pops + 1 } },
      .ok h.front.bytes) := by
  unfold pop
  rw [if_pos hlive]

theorem Intact.pop_nil (hi : Intact size h []) (hlive : h.live = false) :
    h.pop = ({ h with tally := { h.tally with emptyPops := h.tally.emptyPops + 1 } },
      .error .empty) := by
  unfold pop
  rw [hlive, hi.stepBack_nil]
  rfl

theorem Intact.pop_concat {record : Nat × Bytes} (hi : Intact size h (q ++ [record]))
    (hlive : h.live = false) :
    h.pop = ({ h.back record.2 with tally := { h.tally with pops := h.tally.pops + 1 } },
      .ok (h.back record.2).front.bytes) := by
  unfold pop
  rw [hlive, hi.stepBack_concat]
  rfl

theorem Intact.setTally (hi : Intact size h q) (tally : Tally) : Intact size { h with tally } q :=
  ⟨hi.ring, hi.limit, hi.front, hi.staging⟩

theorem pop_keeps (hi : Intact size h q) : Keeps size h h.pop.1 .pop (.popped h.pop.2) := by
  cases hlive : h.live with
  | true =>
    have hdead := (hi.setLive false).setTally { h.tally with pops := h.tally.pops + 1 }
    rw [pop_of_live hlive]
    refine ⟨0, rfl, .pop ?_, q, hdead⟩
    rw [hi.states_eq, hdead.states_eq, hlive]
    simp
  | false =>
    rcases List.eq_nil_or_concat' q with rfl | ⟨older, record, rfl⟩
    · have hempty : h.states = [] := by
        rw [hi.states_eq, hlive]
        rfl
      rw [hi.pop_nil hlive]
      exact ⟨0, rfl, .exhausted hempty, [], hi.setTally _⟩
    · have hback := hi.back.setTally { h.tally with pops := h.tally.pops + 1 }
      have hdead : (h.back record.2).live = false := hlive
      rw [hi.pop_concat hlive]
      refine ⟨0, rfl, .pop ?_, older, hback⟩
      rw [hi.states_back hlive, hback.states_eq, hdead]
      simp

theorem Intact.clear (hi : Intact size h q) : Intact size h.clear [] :=
  ⟨hi.ring.clear, hi.limit, hi.front, hi.staging⟩

theorem clear_keeps (hi : Intact size h q) : Keeps size h h.clear .clear .done := by
  have hempty : h.clear.states = [] := hi.clear.states_eq
  refine ⟨0, rfl, ?_, [], hi.clear⟩
  rw [hempty]
  exact .clear

/-! ### Runs -/

/-- One operation of a history is one step on its states. -/
theorem exec_keeps (hi : Intact size h q) (op : Op) :
    Keeps size h (h.exec op).1 op (h.exec op).2 := by
  cases op with
  | prepare => exact prepare_keeps hi
  | stage pos src => exact stage_keeps hi pos src
  | commit => exact commit_keeps hi
  | pop => exact pop_keeps hi
  | clear => exact clear_keeps hi

theorem run_intact (hi : Intact size h q) (ops : List Op) : ∃ q', Intact size (h.run ops) q' := by
  induction ops generalizing h q with
  | nil => exact ⟨q, hi⟩
  | cons op ops ih =>
    obtain ⟨evicted, -, -, q', hq'⟩ := exec_keeps hi op
    exact ih hq'

theorem exists_snapshot {size : Nat} (hmemory : Patch.bound size ≤ maxAllocation) (tag : UInt16) :
    ∃ s, Snapshot.create size tag = .ok s ∧ s.size = size := by
  have hstored : Snapshot.storedSize size ≤ Patch.bound size := by
    have hwords : Snapshot.storedSize size = 2 * wordCount size + 2 := rfl
    have hterminator : Patch.terminatorSize = 6 := rfl
    rw [Patch.bound_eq]
    omega
  unfold Snapshot.create
  rw [if_neg (by omega)]
  exact ⟨_, rfl, rfl⟩

theorem recordSpace_lt_capacity {config : Config} {limit : Nat} (h : config.checkWith limit = .ok ()) :
    Ring.recordSpace limit < config.capacity := by
  unfold Config.checkWith at h
  dsimp only at h
  split at h
  · contradiction
  · split at h
    · contradiction
    · split at h
      · contradiction
      · omega

theorem lt_capacity {config : Config} (hvalid : config.check = .ok ())
    (hmemory : config.capacity ≤ maxAllocation) :
    Ring.headerSize + Patch.bound config.stateSize < config.capacity := by
  have hmax : maxAllocation < maxSize := by decide
  have hspace : Ring.recordSpace config.patchLimit =
      min (Ring.headerSize + Patch.bound config.stateSize) maxSize := rfl
  have hlt : Ring.recordSpace config.patchLimit < config.capacity := recordSpace_lt_capacity hvalid
  omega

theorem intact_create {config : Config} (hvalid : config.check = .ok ())
    (hmemory : config.capacity ≤ maxAllocation) (scanner : Scanner) :
    ∃ h, create config scanner = .ok h ∧ Intact config.stateSize h [] ∧ h.live = false := by
  have hcapacity := lt_capacity hvalid hmemory
  obtain ⟨front, hfront, hfrontSize⟩ :=
    exists_snapshot (show Patch.bound config.stateSize ≤ maxAllocation by omega) frontTag
  obtain ⟨staging, hstaging, hstagingSize⟩ :=
    exists_snapshot (show Patch.bound config.stateSize ≤ maxAllocation by omega) stagingTag
  obtain ⟨ring, hring, hlimit, hlayout⟩ := Ring.layout_create hcapacity hmemory
  have hring' : Ring.create config.capacity config.patchLimit = .ok ring := hring
  have hvalid' : config.checkWith config.patchLimit = .ok () := hvalid
  refine ⟨⟨config, scanner, ring, front, staging, false, .empty, {}⟩, ?_,
    ⟨hlayout, hlimit, hfrontSize, hstagingSize⟩, rfl⟩
  unfold create createWith
  rw [hvalid', hfront, hstaging, hring']
  rfl

/-- **What goes into a history comes out of it.**  A history can be made for every valid configuration whose
region can be allocated, and has no states then.  After any operations on it, its number of entries is
that of its states, and the next operation is one step on these and on the staged bytes, with as many
evictions as the tally counts for it. -/
theorem run_keeps_states {config : Config} (hvalid : config.check = .ok ())
    (hmemory : config.capacity ≤ maxAllocation) (scanner : Scanner) :
    ∃ h₀, create config scanner = .ok h₀ ∧ h₀.states = [] ∧
      ∀ (ops : List Op) (op : Op),
        let h := h₀.run ops
        let h' := (h.exec op).1
        h.entries = h.states.length ∧
          ∃ evicted, h'.tally.evictions = h.tally.evictions + evicted ∧
            StatesStep h.states h.staged op (h.exec op).2 evicted h'.states h'.staged := by
  obtain ⟨h₀, hcreate, hi, hlive⟩ := intact_create hvalid hmemory scanner
  have hempty : h₀.states = [] := by
    rw [hi.states_eq, hlive]
    rfl
  refine ⟨h₀, hcreate, hempty, fun ops op => ?_⟩
  obtain ⟨q, hq⟩ := run_intact hi ops
  obtain ⟨evicted, htally, hstep, -⟩ := exec_keeps hq op
  exact ⟨hq.entries_eq, evicted, htally, hstep⟩

theorem run_keeps_states_small :
    (Config.mk 4 40 1).check = .ok () ∧ (Config.mk 4 40 1).capacity ≤ maxAllocation ∧
      ∃ h₀, create ⟨4, 40, 1⟩ .vector = .ok h₀ ∧
        let h := h₀.run [.stage 0 ⟨#[1, 2]⟩, .commit, .stage 3 ⟨#[5]⟩, .commit]
        h.entries = h.states.length ∧
          ∃ evicted, StatesStep h.states h.staged .pop (.popped h.pop.2) evicted h.pop.1.states
            h.pop.1.staged := by
  have hvalid : (Config.mk 4 40 1).check = .ok () := by decide
  have hmemory : (Config.mk 4 40 1).capacity ≤ maxAllocation := by decide
  obtain ⟨h₀, hcreate, -, hrun⟩ := run_keeps_states hvalid hmemory .vector
  obtain ⟨hentries, evicted, -, hstep⟩ :=
    hrun [.stage 0 ⟨#[1, 2]⟩, .commit, .stage 3 ⟨#[5]⟩, .commit] .pop
  exact ⟨hvalid, hmemory, h₀, hcreate, hentries, evicted, hstep⟩

end History

end Retrace
