import Retrace.Proofs.Ring.Eviction
import Retrace.Proofs.Ring.Twins

/-!
# Records that were not added, or were dropped again

A fill writes to the region before it is known whether its record will be added.  If it is not, the ring is as it
was after the evictions, but for bytes that are not read again.  If it is and is then dropped, the ring is as it
was before, if no record was evicted.

* `Fails`: reports of a fill that no record is added for;
* `run_failed`: what a failed fill leaves, and how the ring goes on;
* `run_undone`: what is left once the newest record is dropped again.
-/

namespace Retrace

namespace Ring

variable {ε : Type} (refuse : RingError → ε)

/-! ### Fills that fail -/

/-- What a fill reports makes its append fail: an error, or more bytes than its slot has. -/
inductive Fails (limit : Nat) : Except ε Nat → ε → Prop
  | error (e : ε) : Fails limit (.error e) e
  | overfill {n : Nat} (large : limit < n) : Fails limit (.ok n) (refuse (.patchTooLarge n limit))

variable {refuse} {r : Ring} {q : List (Nat × Bytes)}

theorem Layout.pushWith_fails (h : Layout r q) {fill : Bytes → Bytes × Except ε Nat} {e : ε}
    (hfails : Fails refuse r.patchLimit (fill r.slot).2 e) :
    r.pushWith refuse fill = (r.filled (fill r.slot).1, .error e) := by
  generalize hreport : (fill r.slot).2 = report at hfails
  cases hfails with
  | error => exact pushWith_error refuse hreport
  | overfill hlarge => exact h.pushWith_over refuse hreport hlarge

/-- What a fill leaves in its slot makes no difference to the records of the ring that room was made in. -/
theorem Layout.twins_filled (h : Layout r q) (hs : r.Settled) (left : Bytes) :
    Twins r.vacate (r.filled left) (q.drop r.evictions) :=
  ⟨h.vacate, h.filled left, ⟨hs.vacateUpTo r.count, hs.filled left⟩, Bytes.size_overlay _ _ _, rfl⟩

variable (refuse)

/-- One ring goes on as another does: any operations get the same answers from both and leave both with the same marks
and records, as long as what their fills make of their slots is not told by the bytes they find there. -/
def GoesOnAs (r r' : Ring) : Prop :=
  ∀ later : List (Op ε), SameFills refuse r r' later →
    answers refuse r' later = answers refuse r later ∧
      (run refuse r' later).marks = (run refuse r later).marks ∧
        (run refuse r' later).records = (run refuse r later).records

theorem Twins.goesOnAs {r' : Ring} (ht : Twins r r' q) : GoesOnAs refuse r r' := by
  intro later hlater
  obtain ⟨hanswers, q', hrun⟩ := ht.run refuse hlater
  exact ⟨hanswers, hrun.marks, hrun.right.records_eq.trans hrun.left.records_eq.symm⟩

/-- **A failed append loses only what was evicted for it.**  Whatever a fill writes to its slot after any operations on
a new ring, if it reports an error or more bytes than the slot has, the ring is left with the marks and, byte by
byte, with the records that it has after the evictions alone, and it goes on as if nothing else had been done.  A
patch that is too large is refused with the ring as it was. -/
theorem run_failed {capacity patchLimit : Nat} {r₀ : Ring} (hcreate : create capacity patchLimit = .ok r₀)
    (ops : List (Op ε)) :
    let r := run refuse r₀ ops
    (∀ (fill : Bytes → Bytes × Except ε Nat) (e : ε), Fails refuse patchLimit (fill r.slot).2 e →
      let failed := (exec refuse r (.pushWith fill)).1
      (exec refuse r (.pushWith fill)).2 = .filled (.error e) ∧ failed.marks = r.vacate.marks ∧
        failed.records = r.vacate.records ∧
          (∀ record ∈ r.vacate.records, SameAt failed.region r.vacate.region record) ∧
            GoesOnAs refuse r.vacate failed) ∧
      ∀ patch : Bytes, patchLimit < patch.size →
        exec refuse r (.push patch) = (r, .pushed (.error (.patchTooLarge patch.size patchLimit))) := by
  intro r
  obtain ⟨hlimit, hsettled, q, hq⟩ := layout_of_run refuse hcreate ops
  have hlimit : r.patchLimit = patchLimit := hlimit
  rw [← hlimit]
  refine ⟨fun fill e hfails => ?failed, fun patch hlarge => ?large⟩
  case failed =>
    have htwins := hq.twins_filled hsettled (fill r.slot).1
    have hsame := hq.sameAt_filled (fill r.slot).1
    rw [← hq.region_vacate, ← hq.vacate.records_eq] at hsame
    dsimp only [exec]
    rw [hq.pushWith_fails hfails]
    exact ⟨rfl, rfl, htwins.right.records_eq.trans htwins.left.records_eq.symm, hsame, htwins.goesOnAs refuse⟩
  case large =>
    dsimp only [exec]
    rw [Ring.push, if_pos hlarge]

/-- In a full ring, a fill overwrites its slot and reports a byte too many.  One record is evicted for it; then a patch
is filled in over what it left, read and dropped. -/
theorem run_failed_overlong :
    ∃ r₀, create 60 8 = .ok r₀ ∧
      let patch : Bytes := ⟨#[1, 2, 3, 4, 5, 6, 7, 8]⟩
      let r := run id r₀ [.push patch, .push patch]
      let scribble : Bytes → Bytes × Except RingError Nat := fun _ => (Bytes.replicate 8 255, .ok 9)
      let failed := (exec id r (.pushWith scribble)).1
      let later : List (Op RingError) := [.pushWith fun _ => (⟨#[7, 7]⟩, .ok 2), .newest, .dropNewest]
      Fails id 8 (scribble r.slot).2 (.patchTooLarge 9 8) ∧ r.vacate.count = 1 ∧
        SameFills id r.vacate failed later ∧ failed.records = r.vacate.records ∧
          answers id failed later = answers id r.vacate later ∧
            exec id r (.push (Bytes.zeros 9)) = (r, .pushed (.error (.patchTooLarge 9 8))) := by
  have hcreate : create 60 8 = .ok ⟨Bytes.zeros 60, 8, 0, 0, 0, 0⟩ := rfl
  refine ⟨_, hcreate, ?_⟩
  intro patch r scribble failed later
  have hfails : Fails id 8 (scribble r.slot).2 (.patchTooLarge 9 8) := .overfill (by decide)
  have hlater : SameFills id r.vacate failed later := by
    refine ⟨⟨rfl, fun n _ hok => ?_⟩, trivial, trivial, trivial⟩
    cases hok
    decide +kernel
  have hlarge : 8 < (Bytes.zeros 9).size := by decide +kernel
  obtain ⟨hfailed, hrefused⟩ := run_failed id hcreate [.push patch, .push patch]
  obtain ⟨-, -, hrecords, -, hgoes⟩ := hfailed scribble _ hfails
  refine ⟨hfails, by decide +kernel, hlater, hrecords, (hgoes later hlater).1, ?_⟩
  have hsize : (Bytes.zeros 9).size = 9 := Bytes.size_zeros 9
  rw [hrefused _ hlarge, hsize]

/-! ### Records that are dropped again -/

/-- A ring with a record that nothing was evicted for is the ring before once the record is dropped, but for the bytes
outside the others. -/
theorem Layout.twins_undone (h : Layout r q) (hs : r.Settled) (hkept : r.evictions = 0) (left : Bytes)
    {size : Nat} (hsize : size ≤ r.patchLimit) :
    ((r.filled left).link size).dropNewest.2 = some r.place ∧
      Twins r ((r.filled left).link size).dropNewest.1 q := by
  have hlinked := h.link_filled left hsize
  rw [hkept, List.drop_zero] at hlinked
  obtain ⟨hoffset, hback⟩ := hlinked.dropNewest
  refine ⟨hoffset, h, hback, ⟨hs, (settled_link _ _).dropNewest⟩, ?_, ?_⟩
  · rw [capacity_dropNewest, capacity_link, h.capacity_filled]
  · rw [(region_dropNewest _).2]
    exact h.patchLimit_vacate

/-- **Dropping the newest record undoes its append.**  If after any operations on a new ring a record is added and none
evicted for it, dropping the newest record gives the offset where it was added.  The ring is then left with the marks,
the free bytes and, byte by byte, the records that it had before. -/
theorem run_undone {capacity patchLimit : Nat} {r₀ : Ring} (hcreate : create capacity patchLimit = .ok r₀)
    (ops : List (Op ε)) {op : Op ε} {receipt : Receipt}
    (hreceipt : (exec refuse (run refuse r₀ ops) op).2.receipt = some receipt) (hkept : receipt.evicted = 0) :
    let r := run refuse r₀ ops
    let undone := (exec refuse r op).1.dropNewest
    undone.2 = some receipt.offset ∧ undone.1.marks = r.marks ∧ undone.1.freeBytes = r.freeBytes ∧
      undone.1.usedBytes = r.usedBytes ∧ undone.1.nearlyFull = r.nearlyFull ∧ undone.1.records = r.records ∧
        ∀ record ∈ r.records, SameAt undone.1.region r.region record := by
  intro r undone
  obtain ⟨-, hsettled, q, hq⟩ := layout_of_run refuse hcreate ops
  obtain ⟨left, size, hsize, rfl, hring⟩ := hq.linked_of_receipt refuse hreceipt
  have hkept : r.evictions = 0 := hkept
  have hsame := hq.sameAt_link_filled left size
  obtain ⟨hoffset, htwins⟩ := hq.twins_undone hsettled hkept left hsize
  rw [← hring] at hoffset htwins hsame
  rw [hkept, List.drop_zero, ← hq.records_eq] at hsame
  obtain ⟨husedBytes, hnearlyFull⟩ := htwins.occupied
  refine ⟨hoffset, htwins.marks, htwins.freeBytes, husedBytes, hnearlyFull,
    htwins.right.records_eq.trans hq.records_eq.symm, fun record hr => ?_⟩
  rw [(region_dropNewest _).1]
  exact hsame record hr

/-- The second record of 24 bytes in a region of 60 takes the head back to zero; without it the head is behind the
first one again. -/
theorem run_undone_wrapped :
    ∃ r₀, create 60 8 = .ok r₀ ∧
      let patch : Bytes := ⟨#[1, 2, 3, 4, 5, 6, 7, 8]⟩
      let r := run id r₀ [.push patch]
      let added := exec id r (.push patch)
      added.2.receipt = some ⟨24, 8, 0⟩ ∧ added.1.head = 0 ∧ r.head = 24 ∧
        added.1.dropNewest.2 = some 24 ∧ added.1.dropNewest.1.marks = r.marks := by
  have hcreate : create 60 8 = .ok ⟨Bytes.zeros 60, 8, 0, 0, 0, 0⟩ := rfl
  refine ⟨_, hcreate, ?_⟩
  intro patch r added
  have hreceipt : added.2.receipt = some ⟨24, 8, 0⟩ := by decide +kernel
  obtain ⟨hoffset, hmarks, -⟩ := run_undone id hcreate [.push patch] hreceipt rfl
  exact ⟨hreceipt, by decide +kernel, by decide +kernel, hoffset, hmarks⟩

end Ring

end Retrace
