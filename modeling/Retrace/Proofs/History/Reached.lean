import Retrace.Proofs.History.Failures
import Retrace.Proofs.Ring.Chain

/-!
# The histories that come about

A history is made and then used.  A recorder does one thing more than that: a state that its simulation
rejects is put back right after it was taken.

* `Reached`: the histories that come about so, for a configuration and a scanner;
* `Lasting`: what no use of a history changes, and what stays true of its ring;
* `Reached.lasting`: so it is with every history that comes about;
* `answers`: what a history answers to some operations.
-/

namespace Retrace

namespace History

/-! ### Answers -/

/-- What a history answers to some operations, in their order. -/
def answers (h : History) : List Op → List Answer
  | [] => []
  | op :: ops => (h.exec op).2 :: answers (h.exec op).1 ops

/-! ### What comes about -/

/-- **The histories that come about** from a configuration and a scanner: a new one, any of them after an
operation, and any of them after a state was taken and put back. -/
inductive Reached (config : Config) (scanner : Scanner) : History → Prop
  | create {h : History} (made : create config scanner = .ok h) : Reached config scanner h
  | exec {h : History} (op : Op) (before : Reached config scanner h) :
    Reached config scanner (h.exec op).1
  | putBack {h : History} {state : Bytes} (before : Reached config scanner h)
    (popped : h.pop.2 = .ok state) : Reached config scanner h.pop.1.putBack

variable {config : Config} {scanner : Scanner} {h : History}

theorem Reached.run (hr : Reached config scanner h) (ops : List Op) :
    Reached config scanner (h.run ops) := by
  induction ops generalizing h with
  | nil => exact hr
  | cons op ops ih => exact ih (hr.exec op)

/-- Where a history comes about, a new one can be made. -/
theorem Reached.created (hr : Reached config scanner h) : ∃ fresh, History.create config scanner = .ok fresh := by
  induction hr with
  | create made => exact ⟨_, made⟩
  | exec op before ih => exact ih
  | putBack before popped ih => exact ih

/-! ### What an operation leaves as it is -/

theorem prepare_fixes (h : History) :
    h.prepare.config = h.config ∧ h.prepare.phase = h.phase ∧ h.prepare.scanner = h.scanner ∧
      (h.prepare.ring = h.ring ∨ h.prepare.ring = h.ring.dropNewest.1) := by
  unfold prepare stepBack
  split
  · exact ⟨rfl, rfl, rfl, Or.inl rfl⟩
  · cases h.ring.newest with
    | none => exact ⟨rfl, rfl, rfl, Or.inl rfl⟩
    | some newest => exact ⟨rfl, rfl, rfl, Or.inr rfl⟩

theorem pop_fixes (h : History) :
    h.pop.1.config = h.config ∧ h.pop.1.scanner = h.scanner ∧
      (h.pop.1.ring = h.ring ∨ h.pop.1.ring = h.ring.dropNewest.1) := by
  unfold pop stepBack
  cases h.live with
  | true => exact ⟨rfl, rfl, Or.inl rfl⟩
  | false =>
    cases h.ring.newest with
    | none => exact ⟨rfl, rfl, Or.inl rfl⟩
    | some newest => exact ⟨rfl, rfl, Or.inr rfl⟩

/-- A pop hands out the front, which is not live then, or finds no state to hand out. -/
theorem pop_cases (h : History) :
    h.pop.1.config = h.config ∧ h.pop.1.phase = h.phase ∧
      (h.pop.2 = .ok h.pop.1.front.bytes ∧ h.pop.1.live = false ∨
        h.pop.2 = .error .empty ∧ h.pop.1.front = h.front) := by
  cases hlive : h.live with
  | true =>
    rw [pop_of_live hlive]
    exact ⟨rfl, rfl, Or.inl ⟨rfl, rfl⟩⟩
  | false =>
    have hdead : ¬ h.live = true := by rw [hlive]; decide
    unfold pop stepBack
    rw [if_neg hdead]
    cases h.ring.newest with
    | none => exact ⟨rfl, rfl, Or.inr ⟨rfl, rfl⟩⟩
    | some newest => exact ⟨rfl, rfl, Or.inl ⟨rfl, hlive⟩⟩

/-! ### What lasts -/

/-- A history with the configuration, the scanner and the size of the region that it was made with; its
patches are laid out, and a ring without any is back at zero. -/
structure Lasting (config : Config) (scanner : Scanner) (h : History) : Prop where
  sameConfig : h.config = config
  sameScanner : h.scanner = scanner
  capacity : h.ring.capacity = config.capacity
  settled : h.ring.Settled
  intact : ∃ q, Intact config.stateSize h q

theorem lasting_create (hmade : create config scanner = .ok h) : Lasting config scanner h := by
  obtain ⟨-, -, hring, hconfig, hscanner, -⟩ := create_eq_ok hmade
  obtain ⟨-, -, hshape⟩ := Ring.create_eq_ok hring
  refine ⟨hconfig, hscanner, ?_, (Ring.layout_of_create hring).2, [], intact_of_create hmade⟩
  rw [hshape]
  exact Bytes.size_zeros _

/-- What does no more to the ring than to drop its newest record. -/
theorem Lasting.transfer (hl : Lasting config scanner h) {h' : History}
    (hfixes : h'.config = h.config ∧ h'.scanner = h.scanner ∧
      (h'.ring = h.ring ∨ h'.ring = h.ring.dropNewest.1))
    (hintact : ∃ q, Intact config.stateSize h' q) : Lasting config scanner h' := by
  obtain ⟨hconfig, hscanner, hring⟩ := hfixes
  refine ⟨hconfig.trans hl.sameConfig, hscanner.trans hl.sameScanner, ?_, ?_, hintact⟩
  · rcases hring with hring | hring
    · rw [hring]
      exact hl.capacity
    · rw [hring, Ring.capacity_dropNewest]
      exact hl.capacity
  · rcases hring with hring | hring
    · rw [hring]
      exact hl.settled
    · rw [hring]
      exact hl.settled.dropNewest

theorem Lasting.prepare (hl : Lasting config scanner h) : Lasting config scanner h.prepare := by
  obtain ⟨q, hq⟩ := hl.intact
  obtain ⟨-, -, -, -, q', hq', -⟩ := hq.prepared
  obtain ⟨hconfig, -, hscanner, hring⟩ := h.prepare_fixes
  exact hl.transfer ⟨hconfig, hscanner, hring⟩ ⟨q', hq'⟩

theorem Lasting.pop (hl : Lasting config scanner h) : Lasting config scanner h.pop.1 := by
  obtain ⟨q, hq⟩ := hl.intact
  obtain ⟨evicted, -, -, hintact⟩ := pop_keeps hq
  exact hl.transfer h.pop_fixes hintact

theorem Lasting.extend (hl : Lasting config scanner h) : Lasting config scanner h.extend := by
  obtain ⟨q, hq⟩ := hl.intact
  refine ⟨hl.sameConfig, hl.sameScanner, ?_, Ring.settled_link _ _, _, hq.extend⟩
  show h.extended.capacity = config.capacity
  rw [extended, Ring.capacity_link, hq.ring.capacity_filled]
  exact hl.capacity

theorem Lasting.commit (hl : Lasting config scanner h) : Lasting config scanner h.commit.1 := by
  obtain ⟨q, hq⟩ := hl.intact
  rcases hq.commit_cases with ⟨-, hcommit⟩ | ⟨-, hcommit⟩
  · rw [hcommit]
    exact hl.prepare.extend
  · obtain ⟨q', hq'⟩ := hl.prepare.intact
    rw [hcommit]
    exact hl.prepare.transfer ⟨rfl, rfl, Or.inl rfl⟩ ⟨q', hq'.seed⟩

theorem Lasting.clear (hl : Lasting config scanner h) : Lasting config scanner h.clear := by
  obtain ⟨q, hq⟩ := hl.intact
  exact ⟨hl.sameConfig, hl.sameScanner, hl.capacity, Ring.settled_clear _, [], hq.clear⟩

theorem Lasting.exec (hl : Lasting config scanner h) (op : Op) : Lasting config scanner (h.exec op).1 := by
  cases op with
  | prepare => exact hl.prepare
  | stage pos src =>
    obtain ⟨q, hq⟩ := hl.intact
    obtain ⟨evicted, -, -, hintact⟩ := stage_keeps hq pos src
    exact hl.transfer ⟨rfl, rfl, Or.inl rfl⟩ hintact
  | commit => exact hl.commit
  | pop => exact hl.pop
  | clear => exact hl.clear

/-- Every history that comes about is as it was made in this. -/
theorem Reached.lasting (hr : Reached config scanner h) : Lasting config scanner h := by
  induction hr with
  | create made => exact lasting_create made
  | exec op before ih => exact ih.exec op
  | putBack before popped ih =>
    obtain ⟨q, hq⟩ := ih.pop.intact
    exact ih.pop.transfer ⟨rfl, rfl, Or.inl rfl⟩ ⟨q, hq.ring, hq.limit, hq.front, hq.staging⟩

end History

end Retrace
