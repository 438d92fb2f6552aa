import Retrace.Proofs.History.Reached

/-!
# The phase of a history

The phase is stored beside the ring and the mark of a live front, and only a commit and clearing change it.  It tells
what the last commit found: nothing since all was cleared, no state, or a state to make a patch to.

* `lastCommit`: the history that the last commit found;
* `Phased`: what the phase says, of that commit and of the history;
* `StoresPatch`, `Intact.storesPatch_iff`: a commit stores a patch just where it finds a state;
* `InPhase.exec`, `InPhase.run`: the phase keeps in step with the ring and the front, whatever is done;
* `InPhase.phased`: so it says all that.
-/

namespace Retrace

/-- A ring that lost no more than its newest record has no more records than it had. -/
theorem Ring.count_le_of_fixes {r r' : Ring} (hring : r' = r ∨ r' = r.dropNewest.1) : r'.count ≤ r.count := by
  rcases hring with rfl | rfl
  · exact Nat.le_refl _
  · unfold dropNewest
    split
    · exact Nat.le_refl _
    · split
      · exact Nat.zero_le _
      · exact Nat.sub_le _ _

namespace History

variable {size : Nat} {h h' found : History} {q : List (Nat × Bytes)} {last : Option History}

/-! ### The last commit -/

/-- The history that the last commit found since the last clearing, after one more operation on `h`. -/
def Op.lastCommit (h : History) (last : Option History) : Op → Option History
  | .commit => some h
  | .clear => none
  | .prepare | .stage _ _ | .pop => last

/-- The history that the last commit found since the last clearing, after some operations on `h`. -/
def lastCommit (h : History) (last : Option History) : List Op → Option History
  | [] => last
  | op :: ops => (h.exec op).1.lastCommit (op.lastCommit h last) ops

/-- A commit stores a patch: it is the newest record then, after evictions, and it makes the newest state that the
history had of the one that was staged. -/
def StoresPatch (h : History) : Prop :=
  ∃ evicted place patch,
    h.commit.1.ring.records = h.prepare.ring.records.drop evicted ++ [(place, patch)] ∧
      h.states.getLast? = some (Patch.apply patch h.staged)

/-- **What the phase says**, where `last` is what the last commit found since the history was made or cleared. -/
structure Phased (last : Option History) (h : History) : Prop where
  empty_iff : h.phase = .empty ↔ last = none
  seeded_iff : h.phase = .seeded ↔ ∃ found, last = some found ∧ found.entries = 0
  streaming_iff : h.phase = .streaming ↔ ∃ found, last = some found ∧ found.StoresPatch
  of_empty : h.phase = .empty → h.states = [] ∧ h.entries = 0 ∧ h.current = none
  of_seeded : h.phase = .seeded → h.ring.records = [] ∧ h.entries ≤ 1
  of_patches : h.ring.records ≠ [] → h.phase = .streaming

/-! ### What a commit stores -/

theorem Intact.records_eq_nil_iff (hi : Intact size h q) : h.ring.records = [] ↔ h.ring.count = 0 := by
  rw [hi.ring.records_eq, hi.ring.count, List.length_eq_zero_iff]

theorem Intact.entries_eq_zero_iff (hi : Intact size h q) : h.entries = 0 ↔ h.states = [] := by
  rw [hi.entries_eq, List.length_eq_zero_iff]

/-- A commit prepares first, and a prepared history has a live front just where it has a state. -/
theorem Intact.live_prepare_iff (hi : Intact size h q) : h.prepare.live = true ↔ h.entries ≠ 0 := by
  obtain ⟨hstates, -, -, -, q', hq', hdead⟩ := hi.prepared
  rw [Ne, hi.entries_eq_zero_iff, ← hstates, hq'.states_eq]
  cases hlive : h.prepare.live with
  | true => simp
  | false =>
    obtain rfl := hdead hlive
    simp [past, unwind]

theorem Intact.storesPatch_iff (hi : Intact size h q) : h.StoresPatch ↔ h.entries ≠ 0 := by
  obtain ⟨hstates, hstaged, -, -, q', hq', hdead⟩ := hi.prepared
  rw [← hi.live_prepare_iff]
  rcases hi.commit_cases with ⟨hlive, hcommit⟩ | ⟨hlive, hcommit⟩
  · refine iff_of_true ⟨h.prepare.ring.evictions, h.prepare.ring.place, h.prepare.undo, ?_, ?_⟩ hlive
    · rw [hcommit, hq'.extend.ring.records_eq, hq'.ring.records_eq]
    · rw [← hstates, ← hstaged, hq'.apply_undo, hq'.states_eq, hlive, if_pos rfl, List.getLast?_concat]
  · refine iff_of_false (fun ⟨evicted, place, patch, hrecords, _⟩ => ?_) (by rw [hlive]; decide)
    -- a seeded history keeps its ring, which is empty, so there is no newest record
    obtain rfl := hdead hlive
    have hempty : h.commit.1.ring.records = [] := by
      rw [hcommit]
      exact hq'.seed.ring.records_eq
    rw [hempty] at hrecords
    exact List.append_ne_nil_of_right_ne_nil _ (List.cons_ne_nil _ _) hrecords.symm

/-! ### The phase keeps in step -/

theorem StatesStep.of_pop_nil {staged staged' : Bytes} {states' : List Bytes} {evicted : Nat}
    {outcome : Except Failure Bytes}
    (hstep : StatesStep [] staged .pop (.popped outcome) evicted states' staged') : states' = [] := by
  cases hstep with
  | pop newest => exact absurd newest.symm (List.append_ne_nil_of_right_ne_nil _ (List.cons_ne_nil _ _))
  | exhausted empty => rfl

/-- The phase that a commit leaves, by what it found. -/
def phaseAfter : Option History → Phase
  | none => .empty
  | some found => if found.entries = 0 then .seeded else .streaming

/-- The phase is that after the last commit.  There are no patches unless the last commit stored one, and no states
if there was none. -/
structure InPhase (size : Nat) (last : Option History) (h : History) : Prop where
  intact : ∃ q, Intact size h q
  found : ∀ found ∈ last, ∃ q, Intact size found q
  phase : h.phase = phaseAfter last
  unpatched : h.phase ≠ .streaming → h.ring.count = 0
  empty : h.phase = .empty → h.states = []

theorem inPhase_create {config : Config} {scanner : Scanner} (hmade : create config scanner = .ok h) :
    InPhase config.stateSize none h := by
  have hi := intact_of_create hmade
  obtain ⟨-, -, -, -, -, hlive, hphase, -⟩ := create_eq_ok hmade
  have hempty : h.states = [] := by
    rw [hi.states_eq, hlive]
    rfl
  exact ⟨⟨[], hi⟩, fun found hfound => absurd hfound (Option.not_mem_none found), hphase, fun _ => hi.ring.count,
    fun _ => hempty⟩

/-- What keeps the phase and adds neither a patch nor a first state. -/
theorem InPhase.keep (hp : InPhase size last h) (hintact : ∃ q, Intact size h' q) (hphase : h'.phase = h.phase)
    (hcount : h'.ring.count ≤ h.ring.count) (hstates : h.states = [] → h'.states = []) : InPhase size last h' := by
  refine ⟨hintact, hp.found, hphase.trans hp.phase, fun hphase' => ?_, fun hphase' => ?_⟩
  · rw [hphase] at hphase'
    exact Nat.le_zero.mp (hp.unpatched hphase' ▸ hcount)
  · rw [hphase] at hphase'
    exact hstates (hp.empty hphase')

theorem InPhase.prepare (hp : InPhase size last h) : InPhase size last h.prepare := by
  obtain ⟨q, hi⟩ := hp.intact
  obtain ⟨hstates, -, -, -, q', hq', -⟩ := hi.prepared
  obtain ⟨-, hphase, -, hring⟩ := h.prepare_fixes
  exact hp.keep ⟨q', hq'⟩ hphase (Ring.count_le_of_fixes hring) hstates.trans

theorem InPhase.stage (hp : InPhase size last h) (pos : Nat) (src : Bytes) : InPhase size last (h.stage pos src) := by
  obtain ⟨q, hi⟩ := hp.intact
  obtain ⟨evicted, -, -, hintact⟩ := stage_keeps hi pos src
  exact hp.keep hintact rfl (Nat.le_refl _) id

theorem InPhase.commit (hp : InPhase size last h) : InPhase size (some h) h.commit.1 := by
  obtain ⟨q, hi⟩ := hp.intact
  obtain ⟨-, -, -, -, q', hq', hdead⟩ := hi.prepared
  have hfound : ∀ found ∈ some h, ∃ q, Intact size found q := fun found hmem => by
    obtain rfl := Option.mem_some_iff.mp hmem
    exact ⟨q, hi⟩
  have hnonempty := hi.live_prepare_iff
  rcases hi.commit_cases with ⟨hlive, hcommit⟩ | ⟨hlive, hcommit⟩
  · rw [hcommit]
    have hphase : phaseAfter (some h) = .streaming := if_neg (hnonempty.mp hlive)
    exact ⟨⟨_, hq'.extend⟩, hfound, hphase.symm, fun hne => absurd rfl hne, fun heq => by cases heq⟩
  · obtain rfl := hdead hlive
    have hnone : h.entries = 0 := not_ne_iff.mp (mt hnonempty.mpr (by rw [hlive]; decide))
    rw [hcommit]
    have hphase : phaseAfter (some h) = .seeded := if_pos hnone
    exact ⟨⟨_, hq'.seed⟩, hfound, hphase.symm, fun _ => hq'.seed.ring.count, fun heq => by cases heq⟩

theorem InPhase.pop (hp : InPhase size last h) : InPhase size last h.pop.1 := by
  obtain ⟨q, hi⟩ := hp.intact
  obtain ⟨evicted, -, hstep, hintact⟩ := pop_keeps hi
  obtain ⟨-, -, hring⟩ := h.pop_fixes
  obtain ⟨-, hphase, -⟩ := h.pop_cases
  refine hp.keep hintact hphase (Ring.count_le_of_fixes hring) fun hempty => ?_
  rw [hempty] at hstep
  exact hstep.of_pop_nil

theorem InPhase.clear (hp : InPhase size last h) : InPhase size none h.clear := by
  obtain ⟨q, hi⟩ := hp.intact
  exact ⟨⟨[], hi.clear⟩, fun found hfound => absurd hfound (Option.not_mem_none found), rfl, fun _ => rfl,
    fun _ => hi.clear.states_eq⟩

/-- **One operation keeps the phase in step.** -/
theorem InPhase.exec (hp : InPhase size last h) (op : Op) : InPhase size (op.lastCommit h last) (h.exec op).1 := by
  cases op with
  | prepare => exact hp.prepare
  | stage pos src => exact hp.stage pos src
  | commit => exact hp.commit
  | pop => exact hp.pop
  | clear => exact hp.clear

theorem InPhase.run (hp : InPhase size last h) (ops : List Op) : InPhase size (h.lastCommit last ops) (h.run ops) := by
  induction ops generalizing h last with
  | nil => exact hp
  | cons op ops ih => exact ih (hp.exec op)

/-! ### What the phase says -/

theorem phaseAfter_eq_empty_iff : phaseAfter last = .empty ↔ last = none := by
  cases last with
  | none => simp [phaseAfter]
  | some found => simp only [phaseAfter]; split <;> simp

theorem phaseAfter_eq_seeded_iff :
    phaseAfter last = .seeded ↔ ∃ found, last = some found ∧ found.entries = 0 := by
  cases last with
  | none => simp [phaseAfter]
  | some found => simp [phaseAfter]

theorem phaseAfter_eq_streaming_iff :
    phaseAfter last = .streaming ↔ ∃ found, last = some found ∧ found.entries ≠ 0 := by
  cases last with
  | none => simp [phaseAfter]
  | some found => simp [phaseAfter]

theorem InPhase.phased (hp : InPhase size last h) : Phased last h := by
  obtain ⟨q, hi⟩ := hp.intact
  have hstored : (∃ found, last = some found ∧ found.entries ≠ 0) ↔
      ∃ found, last = some found ∧ found.StoresPatch := by
    refine exists_congr fun found => and_congr_right fun hlast => ?_
    obtain ⟨q', hq'⟩ := hp.found found hlast
    exact hq'.storesPatch_iff.symm
  refine ⟨?_, ?_, ?_, fun hphase => ?_, fun hphase => ?_, fun hrecords => ?_⟩
  · rw [hp.phase, phaseAfter_eq_empty_iff]
  · rw [hp.phase, phaseAfter_eq_seeded_iff]
  · rw [hp.phase, phaseAfter_eq_streaming_iff, hstored]
  · have hstates := hp.empty hphase
    exact ⟨hstates, hi.entries_eq_zero_iff.mpr hstates, if_pos hphase⟩
  · have hcount : h.ring.count = 0 := hp.unpatched (by rw [hphase]; decide)
    refine ⟨hi.records_eq_nil_iff.mpr hcount, ?_⟩
    rw [entries, hcount, Nat.zero_add]
    exact Bool.toNat_le _
  · by_contra hphase
    exact hrecords (hi.records_eq_nil_iff.mpr (hp.unpatched hphase))

end History

end Retrace
