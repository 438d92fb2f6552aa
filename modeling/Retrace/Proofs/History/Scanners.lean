import Retrace.Proofs.History.Reached

/-!
# A history does not show its scanner

Every scanner counts the same words, so it is the same spans, the same patch and the same bytes in the ring
whichever is used.  All else that a history does it does without its scanner.

* `Ring.pushDiff_scanner`: the same record is appended, or the same error is answered;
* `exec_withScanner`: two histories that differ in their scanners still do so, and only so, after the same
  operation, and answer the same to it;
* `scanner_unobservable`: so it is with new histories, over any operations.
-/

namespace Retrace

theorem Ring.pushDiff_scanner (s t : Scanner) (r : Ring) (newer older : Bytes) :
    r.pushDiff s newer older = r.pushDiff t newer older := by
  unfold pushDiff
  simp only [Patch.writeInto_scanner s t]

/-! ### Histories -/

namespace History

/-- The history with another scanner. -/
def withScanner (h : History) (s : Scanner) : History := { h with scanner := s }

variable (h : History) (s : Scanner)

theorem stepBack_withScanner : (h.withScanner s).stepBack = h.stepBack.map (·.withScanner s) := by
  have hring : (h.withScanner s).ring = h.ring := rfl
  unfold stepBack
  rw [hring]
  cases h.ring.newest <;> rfl

theorem prepare_withScanner : (h.withScanner s).prepare = h.prepare.withScanner s := by
  unfold prepare
  rw [stepBack_withScanner]
  have hlive : (h.withScanner s).live = h.live := rfl
  rw [hlive]
  split
  · rfl
  · cases h.stepBack <;> rfl

theorem commit_withScanner :
    (h.withScanner s).commit = (h.commit.1.withScanner s, h.commit.2) := by
  unfold commit
  rw [prepare_withScanner]
  generalize h.prepare = h
  have hpush : (h.withScanner s).ring.pushDiff (h.withScanner s).scanner (h.withScanner s).staged
      (h.withScanner s).front.bytes = h.ring.pushDiff h.scanner h.staged h.front.bytes :=
    Ring.pushDiff_scanner s h.scanner h.ring h.staged h.front.bytes
  have hlive : (h.withScanner s).live = h.live := rfl
  dsimp only
  rw [hpush, hlive]
  split
  · generalize h.ring.pushDiff _ _ _ = pushed
    obtain ⟨ring, _ | _⟩ := pushed <;> rfl
  · rfl

theorem pop_withScanner : (h.withScanner s).pop = (h.pop.1.withScanner s, h.pop.2) := by
  unfold pop
  rw [stepBack_withScanner]
  have hlive : (h.withScanner s).live = h.live := rfl
  rw [hlive]
  cases h.live with
  | true => rfl
  | false => cases h.stepBack <;> rfl

theorem exec_withScanner (op : Op) :
    (h.withScanner s).exec op = ((h.exec op).1.withScanner s, (h.exec op).2) := by
  cases op with
  | prepare => exact congrArg (·, Answer.done) (h.prepare_withScanner s)
  | stage pos src => rfl
  | commit => simp only [exec, commit_withScanner]
  | pop => simp only [exec, pop_withScanner]
  | clear => rfl

theorem run_withScanner (ops : List Op) : (h.withScanner s).run ops = (h.run ops).withScanner s := by
  induction ops generalizing h with
  | nil => rfl
  | cons op ops ih =>
    have hexec : ((h.withScanner s).exec op).1 = (h.exec op).1.withScanner s := by rw [exec_withScanner]
    show run ((h.withScanner s).exec op).1 ops = (run (h.exec op).1 ops).withScanner s
    rw [hexec, ih]

theorem answers_withScanner (ops : List Op) : (h.withScanner s).answers ops = h.answers ops := by
  induction ops generalizing h with
  | nil => rfl
  | cons op ops ih => rw [answers, answers, exec_withScanner, ih]

theorem create_withScanner (config : Config) (t : Scanner) :
    create config t = (create config s).map (·.withScanner t) := by
  unfold create createWith
  cases config.checkWith config.patchLimit with
  | error e => rfl
  | ok =>
    cases Snapshot.create config.stateSize frontTag with
    | error e => rfl
    | ok front =>
      cases Snapshot.create config.stateSize stagingTag with
      | error e => rfl
      | ok staging =>
        cases Ring.create config.capacity config.patchLimit with
        | error e => rfl
        | ok ring => rfl

theorem createIn_withScanner (m : Memory) (config : Config) (t : Scanner) :
    createIn m config t = (createIn m config s).map (·.withScanner t) := by
  cases hcheck : config.check with
  | error e =>
    rw [createIn_of_refused hcheck, createIn_of_refused hcheck]
    rfl
  | ok =>
    rw [createIn_of_valid hcheck, createIn_of_valid hcheck, create_withScanner s config t]
    split
    · split <;> rfl
    · rfl

/-- **No history shows its scanner.**  For any strings and any output buffer, every two scanners give the same
error, or the same patch in the same buffer.  For any configuration, in any memory, a history is made with one
as it is with the other, or the same error is answered.  And a history that has the one scanner in place of the
other answers the same to any operations and differs in nothing else after them: its ring, its snapshots and its
tally are the same at every step. -/
theorem scanner_unobservable (s t : Scanner) :
    (∀ old new out : Bytes, Patch.writeInto s old new out = Patch.writeInto t old new out) ∧
      (∀ (m : Memory) (config : Config),
        createIn m config t = (createIn m config s).map (·.withScanner t)) ∧
      ∀ (h : History) (ops : List Op),
        (h.withScanner t).answers ops = h.answers ops ∧
          (h.withScanner t).run ops = (h.run ops).withScanner t :=
  ⟨Patch.writeInto_scanner s t, fun m config => createIn_withScanner s m config t,
    fun h ops => ⟨h.answers_withScanner t ops, h.run_withScanner t ops⟩⟩

end History

end Retrace
