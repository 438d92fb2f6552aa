import Retrace.Proofs.History.Reached

/-!
# A history does not show that it was prepared

To prepare a history may take its newest patch back and drop it, which changes the ring, the front and whether
the front is live.  Every operation that looks at these prepares first or does what preparing would have
done, so the two histories meet again there.

* `Intact.putBack_pop`: a state that is put back after it was taken is where preparing leaves it;
* `Ahead`: a history and the same history, which may have been prepared once more;
* `Ahead.exec`: so they stay, they answer the same, and a commit, a taking back or clearing makes them equal;
* `Padded`: operations among which there are more preparations;
* `run_padded`: these show in no outcome.
-/

namespace Retrace

/-- Once all is cleared, it makes no difference whether the newest record was dropped before. -/
theorem Ring.clear_dropNewest (r : Ring) : r.dropNewest.1.clear = r.clear := by
  unfold dropNewest
  split
  · rfl
  · split <;> rfl

namespace History

variable {size : Nat} {h h' : History} {q : List (Nat × Bytes)}

/-! ### One preparation more -/

theorem stage_prepare (h : History) (pos : Nat) (src : Bytes) :
    (h.stage pos src).prepare = h.prepare.stage pos src := by
  have hlive : (h.stage pos src).live = h.live := rfl
  have hring : (h.stage pos src).ring = h.ring := rfl
  unfold prepare stepBack
  rw [hlive, hring]
  split
  · rfl
  · cases h.ring.newest <;> rfl

/-- What is taken back is at the front already, or a preparation brings it there. -/
theorem Intact.pop_prepare (hi : Intact size h q) : h.prepare.pop = h.pop := by
  cases hlive : h.live with
  | true => rw [prepare_of_live hlive]
  | false =>
    rcases List.eq_nil_or_concat' q with rfl | ⟨older, record, rfl⟩
    · rw [hi.prepare_nil]
    · rw [hi.prepare_concat hlive, pop_of_live rfl, hi.pop_concat hlive]
      simp only [History.back, hlive]

/-- A state that is put back after it was taken is where a preparation would have left it. -/
theorem Intact.putBack_pop (hi : Intact size h q) {last : Bytes} (hpop : h.pop.2 = .ok last) :
    h.pop.1.putBack = h.prepare := by
  cases hlive : h.live with
  | true =>
    rw [pop_of_live hlive, prepare_of_live hlive]
    simp only [History.putBack, Nat.add_sub_cancel, ← hlive]
  | false =>
    rcases List.eq_nil_or_concat' q with rfl | ⟨older, record, rfl⟩
    · rw [hi.pop_nil hlive] at hpop
      contradiction
    · rw [hi.pop_concat hlive, hi.prepare_concat hlive]
      simp only [History.putBack, History.back, Nat.add_sub_cancel]

theorem clear_prepare (h : History) : h.prepare.clear = h.clear := by
  unfold prepare stepBack
  split
  · rfl
  · cases h.ring.newest with
    | none => rfl
    | some newest =>
      have hring : h.ring.dropNewest.1.clear = h.ring.clear := h.ring.clear_dropNewest
      have hfront : (h.front.apply newest.1).erase = h.front.erase := h.front.erase_write 0 _
      simp only [clear, Option.map_some, hring, hfront]

/-! ### Two histories, one of them prepared -/

/-- The other history is the same or was prepared once more. -/
def Ahead (h h' : History) : Prop := h' = h ∨ h' = h.prepare

/-- The operations after which it makes no difference whether a preparation came before. -/
def Op.Settles : Op → Prop
  | .prepare => False
  | .stage _ _ => False
  | .commit => True
  | .pop => True
  | .clear => True

theorem Ahead.extra (hi : Intact size h q) (ha : Ahead h h') : Ahead h h'.prepare := by
  obtain ⟨-, -, -, htwice, -⟩ := hi.prepared
  rcases ha with rfl | rfl
  · exact Or.inr rfl
  · exact Or.inr htwice

theorem Ahead.prepare (ha : Ahead h h') : Ahead h.prepare h'.prepare := by
  rcases ha with rfl | rfl
  · exact Or.inl rfl
  · exact Or.inr rfl

theorem Ahead.stage (ha : Ahead h h') (pos : Nat) (src : Bytes) :
    Ahead (h.stage pos src) (h'.stage pos src) := by
  rcases ha with rfl | rfl
  · exact Or.inl rfl
  · exact Or.inr (h.stage_prepare pos src).symm

theorem Ahead.pop (hi : Intact size h q) (ha : Ahead h h') : h'.pop = h.pop := by
  rcases ha with rfl | rfl
  · rfl
  · exact hi.pop_prepare

/-- Both have the same states, though not the same ring and not the same front. -/
theorem Ahead.shows (hi : Intact size h q) (ha : Ahead h h') :
    h'.states = h.states ∧ h'.entries = h.entries ∧ h'.phase = h.phase ∧ h'.tally = h.tally ∧
      h'.staged = h.staged ∧ h'.stateSize = h.stateSize := by
  obtain ⟨hstates, hstaged, htally, -, q', hq', -⟩ := hi.prepared
  obtain ⟨hconfig, hphase, -⟩ := h.prepare_fixes
  rcases ha with rfl | rfl
  · exact ⟨rfl, rfl, rfl, rfl, rfl, rfl⟩
  · refine ⟨hstates, ?_, hphase, htally, hstaged, congrArg Config.stateSize hconfig⟩
    rw [hq'.entries_eq, hstates, hi.entries_eq]

/-- An operation that settles does the same to a history and to the same history prepared. -/
theorem Intact.exec_prepare (hi : Intact size h q) {op : Op} (hop : op.Settles) :
    h.prepare.exec op = h.exec op := by
  cases op with
  | prepare => exact hop.elim
  | stage pos src => exact hop.elim
  | commit => rw [History.exec, hi.commit_prepare, History.exec]
  | pop => rw [History.exec, hi.pop_prepare, History.exec]
  | clear => rw [History.exec, h.clear_prepare, History.exec]

/-- **One operation on both**: the answer is the same, they stay as they are to each other, and an operation
that settles makes them equal. -/
theorem Ahead.exec (hi : Intact size h q) (ha : Ahead h h') (op : Op) :
    (h'.exec op).2 = (h.exec op).2 ∧ Ahead (h.exec op).1 (h'.exec op).1 ∧
      (op.Settles → (h'.exec op).1 = (h.exec op).1) := by
  have hmeet (hop : op.Settles) : h'.exec op = h.exec op := by
    rcases ha with rfl | rfl
    · rfl
    · exact hi.exec_prepare hop
  have hequal (hop : op.Settles) : (h'.exec op).2 = (h.exec op).2 ∧
      Ahead (h.exec op).1 (h'.exec op).1 ∧ (op.Settles → (h'.exec op).1 = (h.exec op).1) := by
    rw [hmeet hop]
    exact ⟨rfl, Or.inl rfl, fun _ => rfl⟩
  cases op with
  | prepare => exact ⟨rfl, ha.prepare, fun hop => hop.elim⟩
  | stage pos src => exact ⟨rfl, ha.stage pos src, fun hop => hop.elim⟩
  | commit => exact hequal trivial
  | pop => exact hequal trivial
  | clear => exact hequal trivial

/-! ### Runs -/

/-- Operations, and the same operations with any number of preparations among them. -/
inductive Padded : List Op → List Op → Prop
  | nil : Padded [] []
  | same (op : Op) {ops padded : List Op} (rest : Padded ops padded) : Padded (op :: ops) (op :: padded)
  | extra {ops padded : List Op} (rest : Padded ops padded) : Padded ops (.prepare :: padded)

/-- Whether an answer tells of an outcome. -/
def Answer.told : Answer → Bool
  | .done => false
  | .committed _ => true
  | .popped _ => true

/-- What comes of the commits and the takings back among some operations, in their order. -/
def outcomes (h : History) (ops : List Op) : List Answer := (h.answers ops).filter Answer.told

theorem outcomes_cons (h : History) (op : Op) (ops : List Op) :
    h.outcomes (op :: ops) = [(h.exec op).2].filter Answer.told ++ (h.exec op).1.outcomes ops :=
  List.filter_append [(h.exec op).2] _

theorem Ahead.run (hi : Intact size h q) (ha : Ahead h h') {ops padded : List Op}
    (hp : Padded ops padded) :
    h'.outcomes padded = h.outcomes ops ∧ Ahead (h.run ops) (h'.run padded) := by
  induction hp generalizing h h' q with
  | nil => exact ⟨rfl, ha⟩
  | same op rest ih =>
    obtain ⟨-, -, -, q', hq'⟩ := exec_keeps hi op
    obtain ⟨hanswer, hahead, -⟩ := ha.exec hi op
    obtain ⟨houtcomes, hrun⟩ := ih hq' hahead
    refine ⟨?_, hrun⟩
    rw [outcomes_cons, outcomes_cons, hanswer, houtcomes]
  | extra rest ih =>
    -- the added preparation answers nothing that is told
    exact ih hi (ha.extra hi)

/-- **No history shows that it was prepared.**  To any operations on a history that comes about, any number of
preparations can be added, at any points.  They change no outcome of a commit or of a taking back, and
after all the operations, which may be any first part of more, the same states are there, as many entries, the
same phase, the same tally and the same staged bytes.  Whatever is done next is answered the same, and if it is
a commit, a taking back or clearing, the two histories are equal after it. -/
theorem run_padded {config : Config} {scanner : Scanner} (hr : Reached config scanner h)
    {ops padded : List Op} (hp : Padded ops padded) :
    let plain := h.run ops
    let extra := h.run padded
    h.outcomes padded = h.outcomes ops ∧ extra.states = plain.states ∧ extra.entries = plain.entries ∧
      extra.phase = plain.phase ∧ extra.tally = plain.tally ∧ extra.staged = plain.staged ∧
        ∀ op : Op, (extra.exec op).2 = (plain.exec op).2 ∧
          (op.Settles → (extra.exec op).1 = (plain.exec op).1) := by
  obtain ⟨q, hq⟩ := hr.lasting.intact
  obtain ⟨q', hq'⟩ := (hr.run ops).lasting.intact
  have hsame : Ahead h h := Or.inl rfl
  obtain ⟨houtcomes, hahead⟩ := hsame.run hq hp
  obtain ⟨hstates, hentries, hphase, htally, hstaged, -⟩ := hahead.shows hq'
  have hnext (op : Op) := hahead.exec hq' op
  exact ⟨houtcomes, hstates, hentries, hphase, htally, hstaged, fun op => ⟨(hnext op).1, (hnext op).2.2⟩⟩

/-- Two states are committed and one is taken back.  The preparation after that drops the patch of the other. -/
theorem run_padded_small :
    let ops : List Op := [.stage 0 ⟨#[1, 2]⟩, .commit, .commit, .pop, .stage 1 ⟨#[3]⟩]
    let padded : List Op :=
      [.stage 0 ⟨#[1, 2]⟩, .commit, .prepare, .commit, .pop, .prepare, .stage 1 ⟨#[3]⟩, .prepare]
    Padded ops padded ∧
      ∃ h, Reached ⟨4, 40, 1⟩ .vector h ∧ h.outcomes padded = h.outcomes ops ∧
        (h.run padded).states = (h.run ops).states := by
  intro ops padded
  have hpadded : Padded ops padded :=
    .same _ (.same _ (.extra (.same _ (.same _ (.extra (.same _ (.extra .nil)))))))
  have hvalid : (Config.mk 4 40 1).check = .ok () := by decide
  obtain ⟨h, hmade, -⟩ := intact_create hvalid (by decide) .vector
  obtain ⟨houtcomes, hstates, -⟩ := run_padded (.create hmade) hpadded
  exact ⟨hpadded, h, .create hmade, houtcomes, hstates⟩

end History

end Retrace
