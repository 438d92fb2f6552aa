import Retrace.Proofs.Checks
import Retrace.Proofs.History.Fidelity
import Retrace.Proofs.Ring.Chain

/-!
# What can fail in a history, and when

A history is refused for its configuration or for want of memory.  Once it is made, no commit fails, and the
only failure of a pop is that there is no state left.

* `createIn`: a history in a memory that may refuse any request; `create` has all the memory there can be;
* `createIn_config_iff`, `createIn_eq_ok_iff`: just when a configuration is refused, and when a history is made;
* `Intact.commit_ok`, `Intact.pop_eq_error_iff`: what can fail in a history that is intact;
* `failures_exact`: all of it, over any operations.
-/

namespace Retrace

/-! ### Memory -/

/-- Which requests there is memory for.  None of more than `maxAllocation` bytes is granted. -/
structure Memory where
  grants : Nat → Bool
  le_of_grants : ∀ {bytes : Nat}, grants bytes = true → bytes ≤ maxAllocation

namespace Memory

/-- All the memory that can be allocated. -/
def ample : Memory := ⟨fun bytes => decide (bytes ≤ maxAllocation), of_decide_eq_true⟩

@[simp]
theorem grants_ample (bytes : Nat) : ample.grants bytes = true ↔ bytes ≤ maxAllocation := decide_eq_true_iff

/-- A request for some bytes.  A failure reports the size that they were asked for. -/
def request (m : Memory) (bytes size : Nat) : Except Failure Unit :=
  if m.grants bytes then .ok () else .error (.allocationFailed size)

end Memory

/-! ### Configurations -/

namespace Config

/-- The sizes of a configuration, that of the largest patch included, are 64-bit. -/
structure Sized (c : Config) : Prop where
  stateSize : c.stateSize ≤ maxSize
  capacity : c.capacity ≤ maxSize
  patchLimit : c.patchLimit ≤ maxSize

variable {c : Config}

/-- A configuration is valid just where none of these three things is wrong with it. -/
theorem check_eq_ok_iff (hsized : c.Sized) :
    c.check = .ok () ↔
      ¬ (c.stateSize = 0 ∨ c.granularity = 0 ∨
        c.capacity ≤ Ring.headerSize + Patch.bound c.stateSize) := by
  have hcapacity := hsized.capacity
  have hspace : Ring.recordSpace c.patchLimit = min (Ring.headerSize + Patch.bound c.stateSize) maxSize := rfl
  unfold check checkWith
  dsimp only
  split
  · next hsize => simp [hsize]
  · next hsize =>
    split
    · next hsteps => simp [hsteps]
    · next hsteps =>
      split
      · next hsmall =>
        have hle : c.capacity ≤ Ring.headerSize + Patch.bound c.stateSize := by omega
        simp [hle]
      · next hlarge =>
        have hlt : ¬ c.capacity ≤ Ring.headerSize + Patch.bound c.stateSize := by omega
        simp [hsize, hsteps, hlt]

end Config

namespace History

/-! ### Making a history -/

section Create

variable {config : Config} {scanner : Scanner} {h : History}

/-- What a new history is made of. -/
theorem create_eq_ok (hmade : create config scanner = .ok h) :
    Snapshot.create config.stateSize frontTag = .ok h.front ∧
      Snapshot.create config.stateSize stagingTag = .ok h.staging ∧
        Ring.create config.capacity config.patchLimit = .ok h.ring ∧
          h.config = config ∧ h.scanner = scanner ∧ h.live = false ∧ h.phase = .empty ∧ h.tally = {} := by
  obtain ⟨-, -, hmade⟩ := bind_eq_ok hmade
  obtain ⟨front, hfront, hmade⟩ := bind_eq_ok hmade
  obtain ⟨staging, hstaging, hmade⟩ := bind_eq_ok hmade
  obtain ⟨ring, hring, hmade⟩ := bind_eq_ok hmade
  obtain rfl := Except.ok.inj hmade
  exact ⟨mapError_eq_ok hfront, mapError_eq_ok hstaging, mapError_eq_ok hring, rfl, rfl, rfl, rfl, rfl⟩

/-- A history is made just where the configuration is valid and its region can be allocated. -/
theorem create_eq_ok_iff :
    (∃ h, create config scanner = .ok h) ↔ config.check = .ok () ∧ config.capacity ≤ maxAllocation := by
  constructor
  · rintro ⟨h, hmade⟩
    obtain ⟨⟨⟩, hvalid, -⟩ := bind_eq_ok hmade
    obtain ⟨-, -, hring, -⟩ := create_eq_ok hmade
    obtain ⟨-, hmemory, -⟩ := Ring.create_eq_ok hring
    exact ⟨mapError_eq_ok hvalid, hmemory⟩
  · rintro ⟨hvalid, hmemory⟩
    obtain ⟨h, hmade, -⟩ := intact_create hvalid hmemory scanner
    exact ⟨h, hmade⟩

end Create

/-- An empty history in this memory, with room for one patch of `limit` bytes at least: memory for a snapshot of
each kind is asked for first, then for the region. -/
def createWithIn (m : Memory) (config : Config) (limit : Nat) (scanner : Scanner) : Except Failure History := do
  (config.checkWith limit).mapError .config
  m.request (Snapshot.storedSize config.stateSize) config.stateSize
  m.request config.capacity config.capacity
  createWith config limit scanner

/-- An empty history in this memory. -/
def createIn (m : Memory) (config : Config) (scanner : Scanner) : Except Failure History :=
  createWithIn m config config.patchLimit scanner

variable {m : Memory} {config : Config} {scanner : Scanner}

section Limit

variable {limit : Nat}

theorem createWithIn_of_refused {e : ConfigError} (h : config.checkWith limit = .error e) :
    createWithIn m config limit scanner = .error (.config e) := by
  unfold createWithIn
  rw [h]
  rfl

theorem createWithIn_of_valid (h : config.checkWith limit = .ok ()) :
    createWithIn m config limit scanner =
      if m.grants (Snapshot.storedSize config.stateSize) then
        if m.grants config.capacity then createWith config limit scanner
        else .error (.allocationFailed config.capacity)
      else .error (.allocationFailed config.stateSize) := by
  unfold createWithIn Memory.request
  rw [h]
  split
  · split <;> rfl
  · rfl

theorem createWith_of_large_state (h : config.checkWith limit = .ok ())
    (hlarge : maxAllocation < Snapshot.storedSize config.stateSize) :
    createWith config limit scanner = .error (.allocationFailed config.stateSize) := by
  unfold createWith Snapshot.create
  rw [h, if_pos hlarge]
  rfl

theorem createWith_of_large_region (h : config.checkWith limit = .ok ())
    (hsnapshot : Snapshot.storedSize config.stateSize ≤ maxAllocation)
    (hlarge : maxAllocation < config.capacity) :
    createWith config limit scanner = .error (.allocationFailed config.capacity) := by
  have hfloor : ¬ config.capacity ≤ Ring.recordSpace limit := Nat.not_le.mpr (recordSpace_lt_capacity h)
  unfold createWith Snapshot.create Ring.create
  rw [h, if_neg (Nat.not_lt.mpr hsnapshot), if_neg (Nat.not_lt.mpr hsnapshot), if_neg hfloor,
    if_pos hlarge]
  rfl

/-- With all the memory that can be allocated, a history is made or not as it is. -/
theorem createWithIn_ample : createWithIn .ample config limit scanner = createWith config limit scanner := by
  cases hcheck : config.checkWith limit with
  | error e =>
    rw [createWithIn_of_refused hcheck]
    unfold createWith
    rw [hcheck]
    rfl
  | ok =>
    rw [createWithIn_of_valid hcheck]
    simp only [Memory.grants_ample]
    split
    · next hsnapshot =>
      split
      · rfl
      · next hregion => rw [createWith_of_large_region hcheck hsnapshot (Nat.lt_of_not_le hregion)]
    · next hsnapshot => rw [createWith_of_large_state hcheck (Nat.lt_of_not_le hsnapshot)]

end Limit

theorem createIn_of_refused {e : ConfigError} (h : config.check = .error e) :
    createIn m config scanner = .error (.config e) := createWithIn_of_refused h

theorem createIn_of_valid (h : config.check = .ok ()) :
    createIn m config scanner =
      if m.grants (Snapshot.storedSize config.stateSize) then
        if m.grants config.capacity then create config scanner
        else .error (.allocationFailed config.capacity)
      else .error (.allocationFailed config.stateSize) := createWithIn_of_valid h

/-- A history that was made has the same start, whatever the memory. -/
theorem create_of_createIn {h : History} (hmade : createIn m config scanner = .ok h) :
    create config scanner = .ok h := by
  obtain ⟨-, -, hmade⟩ := bind_eq_ok hmade
  obtain ⟨-, -, hmade⟩ := bind_eq_ok hmade
  obtain ⟨-, -, hmade⟩ := bind_eq_ok hmade
  exact hmade

theorem createIn_eq_ok_iff :
    (∃ h, createIn m config scanner = .ok h) ↔
      config.check = .ok () ∧ m.grants (Snapshot.storedSize config.stateSize) = true ∧
        m.grants config.capacity = true := by
  constructor
  · rintro ⟨h, hmade⟩
    obtain ⟨hcheck, -⟩ := create_eq_ok_iff.mp ⟨h, create_of_createIn hmade⟩
    rw [createIn_of_valid hcheck] at hmade
    split at hmade
    · next hsnapshot =>
      split at hmade
      · next hregion => exact ⟨hcheck, hsnapshot, hregion⟩
      · contradiction
    · contradiction
  · rintro ⟨hcheck, hsnapshot, hregion⟩
    rw [createIn_of_valid hcheck, if_pos hsnapshot, if_pos hregion]
    exact create_eq_ok_iff.mpr ⟨hcheck, m.le_of_grants hregion⟩

/-- A valid configuration fails for want of memory only. -/
theorem createIn_of_valid_cases (h : config.check = .ok ()) :
    (∃ made, createIn m config scanner = .ok made) ∨
      ∃ bytes, createIn m config scanner = .error (.allocationFailed bytes) := by
  by_cases hregion : m.grants config.capacity = true
  · by_cases hsnapshot : m.grants (Snapshot.storedSize config.stateSize) = true
    · exact Or.inl (createIn_eq_ok_iff.mpr ⟨h, hsnapshot, hregion⟩)
    · exact Or.inr ⟨_, by rw [createIn_of_valid h, if_neg hsnapshot]⟩
  · rw [createIn_of_valid h, if_neg hregion]
    split <;> exact Or.inr ⟨_, rfl⟩

/-- A configuration is refused just where it is not valid. -/
theorem createIn_config_iff :
    (∃ e, createIn m config scanner = .error (.config e)) ↔ config.check ≠ .ok () := by
  constructor
  · rintro ⟨e, hrefused⟩ hcheck
    rcases createIn_of_valid_cases hcheck with ⟨made, hmade⟩ | ⟨bytes, hmade⟩
    · cases hmade.symm.trans hrefused
    · cases hmade.symm.trans hrefused
  · intro hinvalid
    cases hcheck : config.check with
    | error e => exact ⟨e, createIn_of_refused hcheck⟩
    | ok => contradiction

/-! ### Committing and taking back -/

section Answers

variable {states states' : List Bytes} {staged staged' : Bytes} {evicted : Nat}

theorem StatesStep.commit_ok {outcome : Except Failure Unit}
    (hstep : StatesStep states staged .commit (.committed outcome) evicted states' staged') :
    outcome = .ok () := by
  cases hstep <;> rfl

theorem StatesStep.pop_eq_error_iff {outcome : Except Failure Bytes} {e : Failure}
    (hstep : StatesStep states staged .pop (.popped outcome) evicted states' staged') :
    outcome = .error e ↔ e = .empty ∧ states = [] := by
  cases hstep with
  | pop newest => simp [newest]
  | exhausted empty => simp [empty, eq_comm]

end Answers

section Failures

variable {size : Nat} {h : History} {q : List (Nat × Bytes)}

/-- A commit does not fail. -/
theorem Intact.commit_ok (hi : Intact size h q) : h.commit.2 = .ok () := by
  obtain ⟨evicted, -, hstep, -⟩ := commit_keeps hi
  exact hstep.commit_ok

/-- A pop fails just where no state is left. -/
theorem Intact.pop_eq_error_iff (hi : Intact size h q) (e : Failure) :
    h.pop.2 = .error e ↔ e = .empty ∧ h.entries = 0 := by
  obtain ⟨evicted, -, hstep, -⟩ := pop_keeps hi
  rw [hstep.pop_eq_error_iff, hi.entries_eq, List.length_eq_zero_iff]

end Failures

theorem intact_of_create {h : History} (hmade : create config scanner = .ok h) :
    Intact config.stateSize h [] := by
  obtain ⟨hcheck, hmemory⟩ := create_eq_ok_iff.mp ⟨h, hmade⟩
  obtain ⟨made, hmade', hi, -⟩ := intact_create hcheck hmemory scanner
  obtain rfl : h = made := Except.ok.inj (hmade.symm.trans hmade')
  exact hi

/-- **What can fail, and just when.**  For a configuration with 64-bit sizes, a history is refused for its
configuration just where a state has no bytes, no step is recorded, or the region has no room for more than
the largest record; else it is made, or fails for want of memory, and it is made if there is memory.  After
any operations on it no commit fails, and a pop fails just where no state is left, for that reason. -/
theorem failures_exact (hsized : config.Sized) (m : Memory) (scanner : Scanner) :
    let invalid := config.stateSize = 0 ∨ config.granularity = 0 ∨
      config.capacity ≤ Ring.headerSize + Patch.bound config.stateSize
    ((∃ e, createIn m config scanner = .error (.config e)) ↔ invalid) ∧
      (¬ invalid → (∃ h, createIn m config scanner = .ok h) ∨
        ∃ bytes, createIn m config scanner = .error (.allocationFailed bytes)) ∧
      ((∃ h, createIn m config scanner = .ok h) ↔
        ¬ invalid ∧ m.grants (Snapshot.storedSize config.stateSize) = true ∧
          m.grants config.capacity = true) ∧
      createIn .ample config scanner = create config scanner ∧
      ∀ h₀, createIn m config scanner = .ok h₀ → ∀ ops : List Op,
        let h := h₀.run ops
        h.commit.2 = .ok () ∧ ∀ e, h.pop.2 = .error e ↔ e = .empty ∧ h.entries = 0 := by
  intro invalid
  have hvalid : config.check = .ok () ↔ ¬ invalid := Config.check_eq_ok_iff hsized
  refine ⟨?_, ?_, ?_, createWithIn_ample, fun h₀ hmade ops => ?_⟩
  · rw [createIn_config_iff, Ne, hvalid, not_not]
  · rw [← hvalid]
    exact createIn_of_valid_cases
  · rw [createIn_eq_ok_iff, hvalid]
  · obtain ⟨q, hq⟩ := run_intact (intact_of_create (create_of_createIn hmade)) ops
    exact ⟨hq.commit_ok, hq.pop_eq_error_iff⟩

/-- A history of three bytes a state, after a commit, a state taken back and another commit. -/
theorem failures_exact_small :
    (Config.mk 3 40 1).Sized ∧ ∃ h₀, createIn .ample ⟨3, 40, 1⟩ .vector = .ok h₀ ∧
      let h := h₀.run [.stage 0 ⟨#[7, 8, 9]⟩, .commit, .pop, .commit, .pop]
      h.commit.2 = .ok () ∧ h.entries = 0 ∧ h.pop.2 = .error .empty := by
  have hsized : (Config.mk 3 40 1).Sized := ⟨by decide, by decide, by decide⟩
  obtain ⟨-, -, -, -, hrun⟩ := failures_exact hsized .ample .vector
  refine ⟨hsized, _, rfl, ?_⟩
  intro h
  obtain ⟨hcommit, hpop⟩ := hrun _ rfl [.stage 0 ⟨#[7, 8, 9]⟩, .commit, .pop, .commit, .pop]
  have hentries : h.entries = 0 := by decide +kernel
  exact ⟨hcommit, hentries, (hpop .empty).mpr ⟨rfl, hentries⟩⟩

end History

end Retrace
