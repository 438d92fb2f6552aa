import Retrace.Proofs.Ring.Chain

/-!
# Rings with the same records

What a ring does next is told by the places, the sizes and the patches of its records.  The bytes outside of these
may differ: what earlier records have left there is not read again.

* `Marks`: where the records of a ring start and end;
* `Twins`: two rings of one size with the same records;
* `Twins.marks`: twins have the same marks, so they have the same room;
* `Twins.dropNewest`, `Twins.vacate`, `Twins.link`: what is done to both leaves them twins;
* `Twins.run`: they answer the same to any operations, if what these fill in does not depend on other bytes.
-/

namespace Retrace

namespace Ring

/-! ### Marks -/

/-- Where the next record, the oldest and the newest one start, and how many records there are. -/
structure Marks where
  head : Nat
  tail : Nat
  latest : Nat
  count : Nat
  deriving DecidableEq, Repr

/-- The marks of a ring. -/
def marks (r : Ring) : Marks := ⟨r.head, r.tail, r.latest, r.count⟩

/-- **Two rings of one size with the same records**, in the same places.  Neither forgets to go back to zero when
it has none. -/
structure Twins (r r' : Ring) (q : List (Nat × Bytes)) : Prop where
  left : Layout r q
  right : Layout r' q
  settled : r.Settled ∧ r'.Settled
  capacity : r'.capacity = r.capacity
  patchLimit : r'.patchLimit = r.patchLimit

variable {r r' : Ring} {q : List (Nat × Bytes)}

theorem Twins.recordLimit (ht : Twins r r' q) : r'.recordLimit = r.recordLimit := by
  unfold Ring.recordLimit
  rw [ht.patchLimit]

theorem Twins.geometry (ht : Twins r r' q) : r'.geometry = r.geometry := by
  unfold Ring.geometry
  rw [ht.capacity, ht.recordLimit]

theorem Settled.marks (hs : r.Settled) (h : Layout r []) : r.marks = ⟨0, 0, 0, 0⟩ := by
  have hcount : r.count = 0 := h.count
  obtain ⟨hhead, htail, hlatest⟩ := hs hcount
  unfold Ring.marks
  rw [hhead, htail, hlatest, hcount]

/-- The records of a ring that has some tell where they start and end. -/
theorem Layout.marks {record : Nat × Bytes} (h : Layout r (q ++ [record])) :
    r.marks.head = r.geometry.after record.1 (headerSize + record.2.size) ∧
      some r.marks.tail = ((q ++ [record]).map Prod.fst).head? ∧ r.marks.latest = record.1 ∧
        r.marks.count = q.length + 1 := by
  have hne : q ++ [record] ≠ [] := by simp
  have hroom : r.head + r.geometry.reserve ≤ r.geometry.capacity := by
    rw [h.reserve_eq]
    exact h.room
  refine ⟨h.placed.head_eq hroom, (h.head?_eq hne).symm, h.latest record (by simp), ?_⟩
  show r.count = _
  rw [h.count, List.length_append, List.length_singleton]

theorem Twins.marks (ht : Twins r r' q) : r'.marks = r.marks := by
  rcases List.eq_nil_or_concat' q with rfl | ⟨older, last, rfl⟩
  · rw [ht.settled.1.marks ht.left, ht.settled.2.marks ht.right]
  · obtain ⟨hhead, htail, hlatest, hcount⟩ := ht.left.marks
    obtain ⟨hhead', htail', hlatest', hcount'⟩ := ht.right.marks
    rw [ht.geometry, ← hhead] at hhead'
    rw [← htail] at htail'
    rw [← hlatest] at hlatest'
    rw [← hcount] at hcount'
    simp only [Ring.marks, Option.some.injEq] at hhead' htail' hlatest' hcount' ⊢
    rw [hhead', htail', hlatest', hcount']

theorem Twins.freeBytes (ht : Twins r r' q) : r'.freeBytes = r.freeBytes := by
  have hhead : r'.head = r.head := congrArg Marks.head ht.marks
  have htail : r'.tail = r.tail := congrArg Marks.tail ht.marks
  have hcount : r'.count = r.count := congrArg Marks.count ht.marks
  unfold Ring.freeBytes
  rw [hhead, htail, hcount, ht.capacity, ht.geometry]

theorem Twins.occupied (ht : Twins r r' q) :
    r'.usedBytes = r.usedBytes ∧ r'.nearlyFull = r.nearlyFull := by
  unfold usedBytes nearlyFull
  rw [ht.freeBytes, ht.capacity, ht.patchLimit]
  exact ⟨rfl, rfl⟩

/-! ### What is done to both -/

theorem Twins.clear (ht : Twins r r' q) : Twins r.clear r'.clear [] :=
  ⟨ht.left.clear, ht.right.clear, ⟨settled_clear r, settled_clear r'⟩, ht.capacity, ht.patchLimit⟩

theorem Twins.dropOldest (ht : Twins r r' q) : Twins r.dropOldest r'.dropOldest q.tail := by
  have hregion := r.region_dropOldest
  have hregion' := r'.region_dropOldest
  refine ⟨ht.left.dropOldest, ht.right.dropOldest, ⟨settled_dropOldest r, settled_dropOldest r'⟩, ?_, ?_⟩
  · unfold Ring.capacity
    rw [hregion'.1, hregion.1]
    exact ht.capacity
  · rw [hregion'.2, hregion.2, ht.patchLimit]

/-- The same record is dropped from both, if there is one. -/
theorem Twins.dropLast (ht : Twins r r' q) :
    r'.dropNewest.2 = r.dropNewest.2 ∧ Twins r.dropNewest.1 r'.dropNewest.1 q.dropLast := by
  obtain ⟨hdropped, hleft⟩ := ht.left.dropLast
  obtain ⟨hdropped', hright⟩ := ht.right.dropLast
  refine ⟨hdropped'.trans hdropped.symm, hleft, hright,
    ⟨ht.settled.1.dropNewest, ht.settled.2.dropNewest⟩, ?_, ?_⟩
  · rw [capacity_dropNewest, capacity_dropNewest, ht.capacity]
  · rw [r'.region_dropNewest.2, r.region_dropNewest.2, ht.patchLimit]

theorem Twins.dropNewest {record : Nat × Bytes} (ht : Twins r r' (q ++ [record])) :
    Twins r.dropNewest.1 r'.dropNewest.1 q := by
  simpa using ht.dropLast.2

/-- Both evict alike: the room of each one is the same after each eviction. -/
theorem Twins.vacateUpTo (ht : Twins r r' q) (n : Nat) :
    ∃ q', Twins (r.vacateUpTo n) (r'.vacateUpTo n) q' := by
  induction n generalizing r r' q with
  | zero => exact ⟨q, ht⟩
  | succ n ih =>
    rw [Ring.vacateUpTo, Ring.vacateUpTo, ht.freeBytes, ht.recordLimit]
    split
    · exact ih ht.dropOldest
    · exact ⟨q, ht⟩

theorem Twins.vacate (ht : Twins r r' q) :
    Twins r.vacate r'.vacate (q.drop r.evictions) ∧ r'.evictions = r.evictions := by
  have hcount : r'.count = r.count := congrArg Marks.count ht.marks
  obtain ⟨q', ht'⟩ := ht.vacateUpTo r.count
  have hvacate : r'.vacate = r'.vacateUpTo r.count := by
    unfold Ring.vacate
    rw [hcount]
  have hleft : Twins r.vacate r'.vacate q' := by
    rw [hvacate]
    exact ht'
  have hcount' : r'.vacate.count = r.vacate.count := congrArg Marks.count hleft.marks
  have hq : q' = q.drop r.evictions := hleft.left.records_eq.symm.trans ht.left.vacate.records_eq
  refine ⟨hq ▸ hleft, ?_⟩
  unfold evictions
  rw [hcount', hcount]

/-- Whatever is left in the slots of both, nothing but the same evictions is done to their records. -/
theorem Twins.filled (ht : Twins r r' q) (left left' : Bytes) :
    Twins (r.filled left) (r'.filled left') (q.drop r.evictions) := by
  obtain ⟨hvacate, hevictions⟩ := ht.vacate
  have hright := ht.right.filled left'
  rw [hevictions] at hright
  refine ⟨ht.left.filled left, hright, ⟨ht.settled.1.filled left, ht.settled.2.filled left'⟩, ?_,
    hvacate.patchLimit⟩
  rw [ht.left.capacity_filled, ht.right.capacity_filled, ht.capacity]

/-- Where the same patch is left in the slots of both, it is added to both in the same place. -/
theorem Twins.link_filled (ht : Twins r r' q) {left left' : Bytes} {size : Nat} (hsize : size ≤ r.patchLimit)
    (hpatch : (r'.slot.overlay 0 left').extract 0 size = (r.slot.overlay 0 left).extract 0 size) :
    r'.place = r.place ∧
      Twins ((r.filled left).link size) ((r'.filled left').link size)
        (q.drop r.evictions ++ [(r.place, (r.slot.overlay 0 left).extract 0 size)]) := by
  obtain ⟨hvacate, hevictions⟩ := ht.vacate
  have hfilled := ht.filled left left'
  have hplace : r'.place = r.place := congrArg Marks.head hvacate.marks
  have hsize' : size ≤ r'.patchLimit := by rwa [ht.patchLimit]
  have hright := ht.right.link_filled left' hsize'
  rw [hevictions, hplace, hpatch] at hright
  refine ⟨hplace, ht.left.link_filled left hsize, hright, ⟨settled_link _ _, settled_link _ _⟩, ?_,
    hfilled.patchLimit⟩
  rw [capacity_link, capacity_link, hfilled.capacity]

/-- The same patch is added to both in the same place. -/
theorem Twins.link (ht : Twins r r' q) {patch : Bytes} (hfits : patch.size ≤ r.patchLimit) :
    r'.place = r.place ∧
      Twins ((r.filled (r.slot.overlay 0 patch)).link patch.size)
        ((r'.filled (r'.slot.overlay 0 patch)).link patch.size)
        (q.drop r.evictions ++ [(r.place, patch)]) := by
  have hfits' : patch.size ≤ r'.patchLimit := by rwa [ht.patchLimit]
  have hleft := ht.left.patch_left hfits
  have hlinked := ht.link_filled hfits ((ht.right.patch_left hfits').trans hleft.symm)
  rwa [hleft] at hlinked

/-! ### Any operations -/

section Run

variable {ε : Type}

/-- A fill makes the same of two slots: it reports the same and, where that is a patch within the slot, leaves the same
patch. -/
def SameFill (fill : Bytes → Bytes × Except ε Nat) (slot slot' : Bytes) : Prop :=
  (fill slot').2 = (fill slot).2 ∧
    ∀ n ≤ slot.size, (fill slot).2 = .ok n →
      (slot'.overlay 0 (fill slot').1).extract 0 n = (slot.overlay 0 (fill slot).1).extract 0 n

/-- If an operation has a fill, it makes the same of the slots of two rings. -/
def Op.SameFill (r r' : Ring) : Op ε → Prop
  | .pushWith fill => Ring.SameFill fill r.slot r'.slot
  | .push _ | .newest | .dropNewest | .clear => True

variable (refuse : RingError → ε)

/-- Each fill among some operations makes the same of the slots that two rings have by then. -/
def SameFills (r r' : Ring) : List (Op ε) → Prop
  | [] => True
  | op :: ops => op.SameFill r r' ∧ SameFills (exec refuse r op).1 (exec refuse r' op).1 ops

/-- What a ring answers to some operations. -/
def answers (r : Ring) : List (Op ε) → List (Answer ε)
  | [] => []
  | op :: ops => (exec refuse r op).2 :: answers (exec refuse r op).1 ops

theorem Twins.push (ht : Twins r r' q) (patch : Bytes) :
    (r'.push patch).2 = (r.push patch).2 ∧ ∃ q', Twins (r.push patch).1 (r'.push patch).1 q' := by
  by_cases hlarge : r.patchLimit < patch.size
  · have hlarge' : r'.patchLimit < patch.size := by rwa [ht.patchLimit]
    rw [Ring.push, Ring.push, if_pos hlarge, if_pos hlarge', ht.patchLimit]
    exact ⟨rfl, q, ht⟩
  · have hfits := Nat.le_of_not_lt hlarge
    have hfits' : patch.size ≤ r'.patchLimit := by rwa [ht.patchLimit]
    obtain ⟨-, hevictions⟩ := ht.vacate
    obtain ⟨hplace, hlinked⟩ := ht.link hfits
    rw [ht.left.push_ok hfits, ht.right.push_ok hfits', hplace, hevictions]
    exact ⟨rfl, _, hlinked⟩

theorem Twins.pushWith (ht : Twins r r' q) {fill : Bytes → Bytes × Except ε Nat}
    (hfill : SameFill fill r.slot r'.slot) :
    (r'.pushWith refuse fill).2 = (r.pushWith refuse fill).2 ∧
      ∃ q', Twins (r.pushWith refuse fill).1 (r'.pushWith refuse fill).1 q' := by
  obtain ⟨houtcome, hpatch⟩ := hfill
  obtain ⟨-, hevictions⟩ := ht.vacate
  have hfilled := ht.filled (fill r.slot).1 (fill r'.slot).1
  cases hreport : (fill r.slot).2 with
  | error e =>
    rw [pushWith_error refuse hreport, pushWith_error refuse (houtcome.trans hreport)]
    exact ⟨rfl, _, hfilled⟩
  | ok n =>
    have hreport' := houtcome.trans hreport
    by_cases hlarge : r.patchLimit < n
    · have hlarge' : r'.patchLimit < n := by rwa [ht.patchLimit]
      rw [ht.left.pushWith_over refuse hreport hlarge, ht.right.pushWith_over refuse hreport' hlarge',
        ht.patchLimit]
      exact ⟨rfl, _, hfilled⟩
    · have hfits := Nat.le_of_not_lt hlarge
      have hfits' : n ≤ r'.patchLimit := by rwa [ht.patchLimit]
      have hslot := ht.left.size_slot
      obtain ⟨hplace, hlinked⟩ := ht.link_filled hfits (hpatch n (by omega) hreport)
      rw [ht.left.pushWith_ok refuse hreport hfits, ht.right.pushWith_ok refuse hreport' hfits', hplace,
        hevictions]
      exact ⟨rfl, _, hlinked⟩

/-- **One operation on both**: the answer is the same, and they stay twins. -/
theorem Twins.exec (ht : Twins r r' q) {op : Op ε} (hop : op.SameFill r r') :
    (exec refuse r' op).2 = (exec refuse r op).2 ∧
      ∃ q', Twins (exec refuse r op).1 (exec refuse r' op).1 q' := by
  cases op with
  | push patch =>
    obtain ⟨houtcome, hpushed⟩ := ht.push patch
    exact ⟨congrArg Answer.pushed houtcome, hpushed⟩
  | pushWith fill =>
    obtain ⟨houtcome, hpushed⟩ := ht.pushWith refuse hop
    exact ⟨congrArg Answer.filled houtcome, hpushed⟩
  | newest => exact ⟨congrArg Answer.newest (ht.right.newest_eq.trans ht.left.newest_eq.symm), q, ht⟩
  | dropNewest =>
    obtain ⟨hdropped, hrest⟩ := ht.dropLast
    exact ⟨congrArg Answer.dropped hdropped, _, hrest⟩
  | clear => exact ⟨rfl, [], ht.clear⟩

/-- Twins answer the same to any operations whose fills make the same of their slots. -/
theorem Twins.run (ht : Twins r r' q) {ops : List (Op ε)} (hops : SameFills refuse r r' ops) :
    answers refuse r' ops = answers refuse r ops ∧ ∃ q', Twins (run refuse r ops) (run refuse r' ops) q' := by
  induction ops generalizing r r' q with
  | nil => exact ⟨rfl, q, ht⟩
  | cons op ops ih =>
    obtain ⟨hop, hrest⟩ := hops
    obtain ⟨hanswer, q', hexec⟩ := ht.exec refuse hop
    obtain ⟨hanswers, hrun⟩ := ih hexec hrest
    refine ⟨?_, hrun⟩
    rw [answers, answers, hanswer, hanswers]

end Run

end Ring

end Retrace
