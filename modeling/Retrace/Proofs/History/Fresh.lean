import Retrace.Proofs.History.Reached
import Retrace.Proofs.Ring.Twins

/-!
# A history without states is as good as new

The region keeps the bytes of records that are no more, and the two snapshots keep the bytes of former states and
may have changed places.  Once a history has no state, nothing of this shows, but that the staged bytes are
stale until they are written, and that the front shows a former state until there is a new one.

* `Alike`: a new history and a used one that differ in no more than that;
* `Alike.exec`: so they stay, and they answer the same, if no stale byte is committed;
* `Overwrites`: operations that commit no stale byte;
* `run_as_new`: a history that was cleared, or that has no state, goes on like a new one.
-/

namespace Retrace

/-! ### Tallies -/

/-- What a used history has counted is what it had counted before and what a new one has counted since.  Nothing
is said of the size of the last patch, which is no count. -/
structure Tally.Extends (base fresh used : Tally) : Prop where
  pushes : used.pushes = base.pushes + fresh.pushes
  pops : used.pops = base.pops + fresh.pops
  emptyPops : used.emptyPops = base.emptyPops + fresh.emptyPops
  evictions : used.evictions = base.evictions + fresh.evictions
  patchBytes : used.patchBytes = base.patchBytes + fresh.patchBytes

namespace Tally.Extends

variable {base fresh used : Tally} (he : base.Extends fresh used)

theorem refl (base : Tally) : base.Extends {} base := ⟨rfl, rfl, rfl, rfl, rfl⟩

include he

theorem stored (receipt : Ring.Receipt) : base.Extends (fresh.stored receipt) (used.stored receipt) := by
  obtain ⟨hpushes, hpops, hemptyPops, hevictions, hpatchBytes⟩ := he
  refine ⟨?_, hpops, hemptyPops, ?_, ?_⟩
  · simp only [Tally.stored, hpushes, Nat.add_assoc]
  · simp only [Tally.stored, hevictions, Nat.add_assoc]
  · simp only [Tally.stored, hpatchBytes, Nat.add_assoc]

theorem pushed :
    base.Extends { fresh with pushes := fresh.pushes + 1 } { used with pushes := used.pushes + 1 } :=
  { he with pushes := by simp only [he.pushes, Nat.add_assoc] }

theorem popped :
    base.Extends { fresh with pops := fresh.pops + 1 } { used with pops := used.pops + 1 } :=
  { he with pops := by simp only [he.pops, Nat.add_assoc] }

theorem exhausted :
    base.Extends { fresh with emptyPops := fresh.emptyPops + 1 }
      { used with emptyPops := used.emptyPops + 1 } :=
  { he with emptyPops := by simp only [he.emptyPops, Nat.add_assoc] }

end Tally.Extends

namespace History

/-! ### Alike -/

/-- **A new history and a used one that go on alike**, with these records in both rings: a used one had counted
`base` before.  If `shown`, the fronts show the same; else there is no state yet.  The staged states have the
same bytes at the offsets that are `covered`. -/
structure Alike (size : Nat) (base : Tally) (shown : Prop) (covered : Nat → Prop) (fresh used : History)
    (q : List (Nat × Bytes)) : Prop where
  left : Intact size fresh q
  right : Intact size used q
  twins : Ring.Twins fresh.ring used.ring q
  scanner : used.scanner = fresh.scanner
  live : used.live = fresh.live
  front : shown → used.front.bytes = fresh.front.bytes ∧ used.phase = fresh.phase
  unshown : ¬ shown → fresh.live = false ∧ q = []
  staged : ∀ i < size, covered i → used.staged.byteAt i = fresh.staged.byteAt i
  tally : base.Extends fresh.tally used.tally

variable {size : Nat} {base : Tally} {shown : Prop} {covered : Nat → Prop} {fresh used : History}
  {q : List (Nat × Bytes)}

section Alike

variable (ha : Alike size base shown covered fresh used q)
include ha

theorem Alike.mono {covered' : Nat → Prop} (hle : ∀ i, covered' i → covered i) :
    Alike size base shown covered' fresh used q :=
  { ha with staged := fun i hi hcovered => ha.staged i hi (hle i hcovered) }

/-- A live front was committed to both. -/
theorem Alike.shown_of_live (hlive : fresh.live = true) : shown := by
  by_contra hshown
  have hdead := (ha.unshown hshown).1
  rw [hlive] at hdead
  contradiction

theorem Alike.staged_eq (hcovered : ∀ i < size, covered i) : used.staged = fresh.staged := by
  have hsize : used.staged.size = fresh.staged.size := by rw [ha.right.size_staged, ha.left.size_staged]
  refine Bytes.ext_byteAt hsize fun i hi => ?_
  rw [ha.right.size_staged] at hi
  exact ha.staged i hi (hcovered i hi)

theorem Alike.occupancy : used.occupancy = fresh.occupancy := by
  have hcount : used.ring.count = fresh.ring.count := congrArg Ring.Marks.count ha.twins.marks
  obtain ⟨husedBytes, hnearlyFull⟩ := ha.twins.occupied
  unfold History.occupancy entries
  rw [hcount, ha.live, husedBytes, hnearlyFull]

theorem Alike.current (hshown : shown) : used.current = fresh.current := by
  obtain ⟨hbytes, hphase⟩ := ha.front hshown
  unfold History.current
  rw [hbytes, hphase]

/-! ### Parts that change -/

theorem Alike.setLive (hshown : shown) (live : Bool) :
    Alike size base shown covered { fresh with live } { used with live } q :=
  { ha with
    left := ha.left.setLive live
    right := ha.right.setLive live
    live := rfl
    unshown := fun hnot => absurd hshown hnot }

theorem Alike.setTally {tally tally' : Tally} (htally : base.Extends tally tally') :
    Alike size base shown covered { fresh with tally := tally } { used with tally := tally' } q :=
  { ha with
    left := ha.left.setTally tally
    right := ha.right.setTally tally'
    tally := htally }

end Alike

section Back

variable {record : Nat × Bytes} (ha : Alike size base shown covered fresh used (q ++ [record]))
include ha

/-- A record was stored for both, and something was committed to both for that. -/
theorem Alike.shown_of_concat : shown := by
  by_contra hshown
  have hnil := (ha.unshown hshown).2
  simp at hnil

theorem Alike.back : Alike size base shown covered (fresh.back record.2) (used.back record.2) q := by
  have hshown := ha.shown_of_concat
  obtain ⟨hbytes, hphase⟩ := ha.front hshown
  refine ⟨ha.left.back, ha.right.back, ha.twins.dropNewest, ha.scanner, ha.live, fun _ => ⟨?_, hphase⟩,
    fun hnot => absurd hshown hnot, ha.staged, ha.tally⟩
  show (used.front.apply record.2).bytes = (fresh.front.apply record.2).bytes
  rw [Snapshot.bytes_apply, Snapshot.bytes_apply, hbytes]

end Back

/-! ### One operation on both -/

section Exec

variable (ha : Alike size base shown covered fresh used q)
include ha

theorem Alike.prepare :
    ∃ q', Alike size base shown covered fresh.prepare used.prepare q' ∧
      (fresh.prepare.live = false → q' = []) := by
  cases hlive : fresh.live with
  | true =>
    have hlive' : used.live = true := ha.live.trans hlive
    rw [prepare_of_live hlive, prepare_of_live hlive']
    refine ⟨q, ha, fun hdead => ?_⟩
    rw [hlive] at hdead
    contradiction
  | false =>
    have hlive' : used.live = false := ha.live.trans hlive
    rcases List.eq_nil_or_concat' q with rfl | ⟨older, record, rfl⟩
    · rw [ha.left.prepare_nil, ha.right.prepare_nil]
      exact ⟨[], ha, fun _ => rfl⟩
    · rw [ha.left.prepare_concat hlive, ha.right.prepare_concat hlive']
      exact ⟨older, ha.back.setLive ha.shown_of_concat true, fun hdead => by cases hdead⟩

theorem Alike.stage (pos : Nat) (src : Bytes) :
    Alike size base shown (fun i => covered i ∨ pos ≤ i ∧ i < pos + src.size) (fresh.stage pos src)
      (used.stage pos src) q := by
  have hstaged : (fresh.stage pos src).staged = fresh.staged.overlay pos src :=
    fresh.staging.bytes_write pos src
  have hstaged' : (used.stage pos src).staged = used.staged.overlay pos src :=
    used.staging.bytes_write pos src
  refine ⟨⟨ha.left.ring, ha.left.limit, ha.left.front, ha.left.staging⟩,
    ⟨ha.right.ring, ha.right.limit, ha.right.front, ha.right.staging⟩, ha.twins, ha.scanner, ha.live,
    ha.front, ha.unshown, fun i hi hcovered => ?_, ha.tally⟩
  rw [hstaged, hstaged', Bytes.byteAt_overlay, Bytes.byteAt_overlay, ha.left.size_staged,
    ha.right.size_staged]
  split
  · rfl
  · next hout =>
    rcases hcovered with hbefore | hwritten
    · exact ha.staged i hi hbefore
    · omega

/-- The same patch is made in both and stored in the same place. -/
theorem Alike.extend (hlive : fresh.live = true) (hcovered : ∀ i < size, covered i) :
    Alike size base True (fun _ => shown) fresh.extend used.extend
      (q.drop fresh.ring.evictions ++ [(fresh.ring.place, fresh.undo)]) := by
  have hshown := ha.shown_of_live hlive
  have hstaged := ha.staged_eq hcovered
  obtain ⟨hbytes, -⟩ := ha.front hshown
  obtain ⟨-, hevictions⟩ := ha.twins.vacate
  obtain ⟨hplace, htwins⟩ := ha.twins.link ha.left.size_undo_le
  have hundo : used.undo = fresh.undo := by
    unfold undo
    rw [ha.scanner, hstaged, hbytes]
  have hextended : used.extended =
      (used.ring.filled (used.ring.slot.overlay 0 fresh.undo)).link fresh.undo.size := by
    unfold extended
    rw [hundo]
  have hright := ha.right.extend
  rw [hevictions, hplace, hundo] at hright
  have htally : used.extend.tally =
      used.tally.stored ⟨fresh.ring.place, fresh.undo.size, fresh.ring.evictions⟩ := by
    rw [← hplace, ← hundo, ← hevictions]
    rfl
  refine ⟨ha.left.extend, hright, ?_, ha.scanner, ha.live, fun _ => ⟨hstaged, rfl⟩,
    fun hnot => absurd trivial hnot, fun i _ _ => congrArg (Bytes.byteAt · i) hbytes, ?_⟩
  · show Ring.Twins fresh.extended used.extended _
    rw [hextended]
    exact htwins
  · rw [htally]
    exact ha.tally.stored _

end Exec

theorem Alike.seed (ha : Alike size base shown covered fresh used []) (hcovered : ∀ i < size, covered i) :
    Alike size base True (fun _ => shown) fresh.seed used.seed [] :=
  ⟨ha.left.seed, ha.right.seed, ha.twins, ha.scanner, rfl, fun _ => ⟨ha.staged_eq hcovered, rfl⟩,
    fun hnot => absurd trivial hnot, fun i _ hshown => congrArg (Bytes.byteAt · i) (ha.front hshown).1,
    ha.tally.pushed⟩

section Answers

variable (ha : Alike size base shown covered fresh used q)
include ha

theorem Alike.commit (hcovered : ∀ i < size, covered i) :
    used.commit.2 = fresh.commit.2 ∧
      ∃ q', Alike size base True (fun _ => shown) fresh.commit.1 used.commit.1 q' := by
  obtain ⟨q', hp, hdead⟩ := ha.prepare
  rw [← ha.left.commit_prepare, ← ha.right.commit_prepare]
  cases hlive : fresh.prepare.live with
  | true =>
    have hlive' : used.prepare.live = true := hp.live.trans hlive
    rw [hp.left.commit_of_live hlive, hp.right.commit_of_live hlive']
    exact ⟨rfl, _, hp.extend hlive hcovered⟩
  | false =>
    have hlive' : used.prepare.live = false := hp.live.trans hlive
    obtain rfl := hdead hlive
    rw [hp.left.commit_of_empty hlive, hp.right.commit_of_empty hlive']
    exact ⟨rfl, [], hp.seed hcovered⟩

theorem Alike.pop :
    used.pop.2 = fresh.pop.2 ∧ ∃ q', Alike size base shown covered fresh.pop.1 used.pop.1 q' := by
  cases hlive : fresh.live with
  | true =>
    have hlive' : used.live = true := ha.live.trans hlive
    have hshown := ha.shown_of_live hlive
    rw [pop_of_live hlive, pop_of_live hlive']
    exact ⟨congrArg Except.ok (ha.front hshown).1, q, (ha.setLive hshown false).setTally ha.tally.popped⟩
  | false =>
    have hlive' : used.live = false := ha.live.trans hlive
    rcases List.eq_nil_or_concat' q with rfl | ⟨older, record, rfl⟩
    · rw [ha.left.pop_nil hlive, ha.right.pop_nil hlive']
      exact ⟨rfl, [], ha.setTally ha.tally.exhausted⟩
    · rw [ha.left.pop_concat hlive, ha.right.pop_concat hlive']
      exact ⟨congrArg Except.ok (ha.back.front ha.shown_of_concat).1, older, ha.back.setTally ha.tally.popped⟩

end Answers

/-! ### Histories without anything -/

/-- A history without states whose snapshots have zero bytes. -/
structure Blank (size : Nat) (h : History) : Prop where
  intact : Intact size h []
  live : h.live = false
  phase : h.phase = .empty
  front : h.front.bytes = Bytes.zeros size
  staged : h.staged = Bytes.zeros size

theorem Intact.blank_clear {h : History} (hi : Intact size h q) : Blank size h.clear := by
  refine ⟨hi.clear, rfl, rfl, ?_, ?_⟩
  · show h.front.erase.bytes = Bytes.zeros size
    rw [Snapshot.bytes_erase, hi.front]
  · show h.staging.erase.bytes = Bytes.zeros size
    rw [Snapshot.bytes_erase, hi.staging]

theorem blank_create {config : Config} {scanner : Scanner} (hmade : create config scanner = .ok fresh) :
    Blank config.stateSize fresh := by
  obtain ⟨hfront, hstaging, -, -, -, hlive, hphase, -⟩ := create_eq_ok hmade
  exact ⟨intact_of_create hmade, hlive, hphase, Snapshot.bytes_create hfront, Snapshot.bytes_create hstaging⟩

/-- Two histories without anything are alike in all. -/
theorem Blank.alike (hb : Blank size fresh) (hb' : Blank size used)
    (htwins : Ring.Twins fresh.ring used.ring []) (hscanner : used.scanner = fresh.scanner)
    (htally : base.Extends fresh.tally used.tally) : Alike size base True (fun _ => True) fresh used [] := by
  refine ⟨hb.intact, hb'.intact, htwins, hscanner, hb'.live.trans hb.live.symm,
    fun _ => ⟨hb'.front.trans hb.front.symm, hb'.phase.trans hb.phase.symm⟩,
    fun hnot => absurd trivial hnot, fun i _ _ => ?_, htally⟩
  rw [hb'.staged, hb.staged]

theorem Alike.clear (ha : Alike size base shown covered fresh used q) :
    Alike size base True (fun _ => True) fresh.clear used.clear [] :=
  ha.left.blank_clear.alike ha.right.blank_clear ha.twins.clear ha.scanner ha.tally

/-! ### Any operation -/

/-- Whether the fronts show the same after an operation. -/
def Op.shows (shown : Prop) : Op → Prop
  | .prepare => shown
  | .stage _ _ => shown
  | .commit => True
  | .pop => shown
  | .clear => True

/-- Which bytes of the staged state are known after an operation: those that were known and those that are
written, and all of them once they are cleared.  After a commit it is whether those of the front were. -/
def Op.covers (front : Prop) (covered : Nat → Prop) : Op → Nat → Prop
  | .prepare => covered
  | .stage pos src => fun i => covered i ∨ pos ≤ i ∧ i < pos + src.size
  | .commit => fun _ => front
  | .pop => covered
  | .clear => fun _ => True

/-- **One operation on both**: the answer is the same, and they stay alike. -/
theorem Alike.exec (ha : Alike size base shown covered fresh used q) (op : Op)
    (hop : op = .commit → ∀ i < size, covered i) :
    (used.exec op).2 = (fresh.exec op).2 ∧
      ∃ q', Alike size base (op.shows shown) (op.covers shown covered) (fresh.exec op).1 (used.exec op).1
        q' := by
  cases op with
  | prepare =>
    obtain ⟨q', hp, -⟩ := ha.prepare
    exact ⟨rfl, q', hp⟩
  | stage pos src => exact ⟨rfl, q, ha.stage pos src⟩
  | commit =>
    obtain ⟨hanswer, hc⟩ := ha.commit (hop rfl)
    exact ⟨congrArg Answer.committed hanswer, hc⟩
  | pop =>
    obtain ⟨hanswer, hp⟩ := ha.pop
    exact ⟨congrArg Answer.popped hanswer, hp⟩
  | clear => exact ⟨rfl, [], ha.clear⟩

/-! ### Runs -/

/-- Once the two are alike in all, they stay so. -/
theorem Alike.run (ha : Alike size base True (fun _ => True) fresh used q) (ops : List Op) :
    used.answers ops = fresh.answers ops ∧
      ∃ q', Alike size base True (fun _ => True) (fresh.run ops) (used.run ops) q' := by
  induction ops generalizing fresh used q with
  | nil => exact ⟨rfl, q, ha⟩
  | cons op ops ih =>
    obtain ⟨hanswer, q', hexec⟩ := ha.exec op fun _ _ _ => trivial
    have hshows : op.shows True = True := by cases op <;> rfl
    have hcovers (i : Nat) : op.covers True (fun _ => True) i := by cases op <;> simp [Op.covers]
    rw [hshows] at hexec
    obtain ⟨hanswers, hrun⟩ := ih (hexec.mono fun i _ => hcovers i)
    refine ⟨?_, hrun⟩
    rw [answers, answers, hanswer, hanswers]

/-- Each commit among some operations finds every byte of the staged state written since the commit before it,
or since all was cleared.  At first, those that are `covered` were. -/
def Overwrites (size : Nat) (covered : Nat → Prop) : List Op → Prop
  | [] => True
  | op :: ops => (op = .commit → ∀ i < size, covered i) ∧ Overwrites size (op.covers False covered) ops

theorem Alike.run_overwrites (ha : Alike size base shown covered fresh used q) {ops : List Op}
    (hops : Overwrites size covered ops) :
    used.answers ops = fresh.answers ops ∧
      ∃ shown' covered' q', (shown ∨ .commit ∈ ops → shown') ∧
        Alike size base shown' covered' (fresh.run ops) (used.run ops) q' := by
  induction ops generalizing shown covered fresh used q with
  | nil => exact ⟨rfl, shown, covered, q, by simp, ha⟩
  | cons op ops ih =>
    obtain ⟨hop, hrest⟩ := hops
    obtain ⟨hanswer, q', hexec⟩ := ha.exec op hop
    -- that a commit stages the front again is not used: it counts as stale
    have hcovers (i : Nat) (hi : op.covers False covered i) : op.covers shown covered i := by
      cases op with
      | commit => exact hi.elim
      | _ => exact hi
    obtain ⟨hanswers, shown', covered', q'', hshown, hrun⟩ := ih (hexec.mono hcovers) hrest
    refine ⟨?_, shown', covered', q'', ?_, hrun⟩
    · rw [answers, answers, hanswer, hanswers]
    · intro hbefore
      refine hshown ?_
      rcases hbefore with hfirst | hmem
      · left
        cases op with
        | commit => trivial
        | clear => trivial
        | _ => exact hfirst
      · rcases List.mem_cons.mp hmem with rfl | hlater
        · exact Or.inl trivial
        · exact Or.inr hlater

/-! ### Histories that come about -/

section New

variable {config : Config} {scanner : Scanner} {h : History}

theorem Lasting.twins (hnew : Lasting config scanner fresh) (hl : Lasting config scanner used)
    (hi : Intact size fresh []) (hi' : Intact size used []) : Ring.Twins fresh.ring used.ring [] :=
  ⟨hi.ring, hi'.ring, ⟨hnew.settled, hl.settled⟩, hl.capacity.trans hnew.capacity.symm,
    hi'.limit.trans hi.limit.symm⟩

/-- A history without states is like a new one, but that it may still show a former state and have former bytes
staged. -/
theorem Blank.alike_of_empty (hb : Blank size fresh) (hi : Intact size h []) (hlive : h.live = false)
    (htwins : Ring.Twins fresh.ring h.ring []) (hscanner : h.scanner = fresh.scanner)
    (htally : base.Extends fresh.tally h.tally) : Alike size base False (fun _ => False) fresh h [] :=
  ⟨hb.intact, hi, htwins, hscanner, hlive.trans hb.live.symm, False.elim, fun _ => ⟨hb.live, rfl⟩,
    fun _ _ => False.elim, htally⟩

/-- **A history without states goes on like a new one**, with the same configuration and the same scanner.

Once it was cleared, it answers the same to any operations as a new one.  After them it has the same staged bytes,
as many entries in as many bytes of the region and at the same offsets, the same phase and the same current
state, and it has counted as much since.

If it merely has no state left, so it is with any operations that write the whole staged state before each
commit, but for the staged bytes, and but for the phase and the current state as long as there is no commit. -/
theorem run_as_new (hr : Reached config scanner h) :
    ∃ fresh, create config scanner = .ok fresh ∧
      (∀ ops : List Op,
        let used := h.clear.run ops
        let new := fresh.run ops
        h.clear.answers ops = fresh.answers ops ∧ used.staged = new.staged ∧
          used.occupancy = new.occupancy ∧ used.ring.marks = new.ring.marks ∧ used.phase = new.phase ∧
            used.current = new.current ∧ h.tally.Extends new.tally used.tally) ∧
      (h.entries = 0 → ∀ ops : List Op, Overwrites config.stateSize (fun _ => False) ops →
        let used := h.run ops
        let new := fresh.run ops
        h.answers ops = fresh.answers ops ∧ used.occupancy = new.occupancy ∧
          used.ring.marks = new.ring.marks ∧ h.tally.Extends new.tally used.tally ∧
            (.commit ∈ ops → used.phase = new.phase ∧ used.current = new.current)) := by
  obtain ⟨fresh, hmade⟩ := hr.created
  have hl := hr.lasting
  have hnew := lasting_create hmade
  obtain ⟨q, hi⟩ := hl.intact
  have hblank := blank_create hmade
  have hscanner : h.scanner = fresh.scanner := hl.sameScanner.trans hnew.sameScanner.symm
  have htally : h.tally.Extends fresh.tally h.tally := by
    obtain ⟨-, -, -, -, -, -, -, hzero⟩ := create_eq_ok hmade
    rw [hzero]
    exact .refl h.tally
  refine ⟨fresh, hmade, fun ops => ?cleared, fun hentries ops hops => ?empty⟩
  case cleared =>
    have htwins := hnew.twins hl.clear hblank.intact hi.clear
    have hcleared := hblank.alike hi.blank_clear htwins hscanner htally
    obtain ⟨hanswers, q', ha⟩ := hcleared.run ops
    exact ⟨hanswers, ha.staged_eq fun _ _ => trivial, ha.occupancy, ha.twins.marks, (ha.front trivial).2,
      ha.current trivial, ha.tally⟩
  case empty =>
    have hcount : h.ring.count + h.live.toNat = 0 := hentries
    have hdead : h.live = false := Bool.toNat_eq_zero.mp (by omega)
    obtain rfl : q = [] := List.eq_nil_of_length_eq_zero (hi.ring.count.symm.trans (by omega))
    have htwins := hnew.twins hl hblank.intact hi
    have hempty := hblank.alike_of_empty hi hdead htwins hscanner htally
    obtain ⟨hanswers, shown', covered', q', hshown, ha⟩ := hempty.run_overwrites hops
    refine ⟨hanswers, ha.occupancy, ha.twins.marks, ha.tally, fun hcommit => ?_⟩
    have hfront := hshown (Or.inr hcommit)
    exact ⟨(ha.front hfront).2, ha.current hfront⟩

end New

/-- Two states were committed and taken back, and two bytes of the second are still staged.  Four bytes are written
over them, committed and taken back. -/
theorem run_as_new_small :
    let before : List Op := [.stage 0 ⟨#[1, 2]⟩, .commit, .stage 1 ⟨#[3, 4]⟩, .commit, .pop, .pop]
    let ops : List Op := [.stage 0 ⟨#[5, 6, 7, 8]⟩, .commit, .pop]
    ∃ made : History, Reached ⟨4, 40, 1⟩ .vector (made.run before) ∧ (made.run before).entries = 0 ∧
      Overwrites 4 (fun _ => False) ops ∧
        ∃ fresh, create ⟨4, 40, 1⟩ .vector = .ok fresh ∧
          (made.run before).clear.answers ops = fresh.answers ops ∧
            (made.run before).answers ops = fresh.answers ops := by
  intro before ops
  have hemptied : ∃ made : History, create ⟨4, 40, 1⟩ .vector = .ok made ∧ (made.run before).entries = 0 :=
    ⟨_, rfl, by decide +kernel⟩
  have hops : Overwrites 4 (fun _ => False) ops := by
    have hsize : (⟨#[5, 6, 7, 8]⟩ : Bytes).size = 4 := rfl
    simp [ops, Overwrites, Op.covers, hsize]
  obtain ⟨made, hmade, hentries⟩ := hemptied
  have hr : Reached ⟨4, 40, 1⟩ .vector (made.run before) := (Reached.create hmade).run before
  obtain ⟨fresh, hfresh, hcleared, hempty⟩ := run_as_new hr
  exact ⟨made, hr, hentries, hops, fresh, hfresh, (hcleared ops).1, (hempty hentries ops hops).1⟩

end History

end Retrace
