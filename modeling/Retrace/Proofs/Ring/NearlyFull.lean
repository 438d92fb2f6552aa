import Retrace.Proofs.Ring.Eviction

/-!
# When records begin to be evicted

A ring is called nearly full by the number of its free bytes, against two of the largest patches.  What two patches
take is more than that: each comes with a header, and there may be a gap at the region's end.  Whether they fit is told
by where the free bytes lie.

As long as no record was evicted, the oldest one is at zero.  Then the free bytes are all behind the head, and there is
room for another record until the head is back at zero, too.

* `Layout.freeBytes_added`: what a new record takes of the free bytes;
* `FitsTwo`, `Layout.takesTwo_iff`: when the next two patches are added without evictions;
* `run_takesTwo_iff`, `not_takesTwo_of_not_nearlyFull`: how far that is told by whether the ring is nearly full;
* `Unevicted`, `run_evicts_full`: the first eviction finds every byte used.
-/

namespace Retrace

namespace Ring

variable {r : Ring} {q : List (Nat × Bytes)}

/-! ### Rings that evict nothing -/

theorem Layout.evictions_eq_zero_iff (h : Layout r q) : r.evictions = 0 ↔ r.Roomy := by
  have hleast := h.evictions_isLeast
  constructor
  · intro hkept
    have hroomy := hleast.1
    rwa [hkept] at hroomy
  · intro hroomy
    exact Nat.eq_zero_of_le_zero (hleast.2 (show (r.without 0).Roomy from hroomy))

theorem Roomy.vacate_eq (hroomy : r.Roomy) : r.vacate = r := by
  unfold vacate
  cases hcount : r.count with
  | zero => rfl
  | succ n =>
    have hfree := hroomy.resolve_left (by omega)
    rw [vacateUpTo, if_neg (Nat.not_lt.mpr hfree)]

/-! ### The free bytes -/

theorem Settled.count_ne_zero (hs : r.Settled) (hlt : r.tail < r.head) : r.count ≠ 0 := by
  intro hempty
  obtain ⟨hhead, -⟩ := hs hempty
  omega

section Free

variable (h : Layout r q)
include h

theorem Layout.recordLimit_pos : 0 < r.recordLimit := by
  rw [recordLimit_eq h.limit h.small, headerSize]
  omega

theorem Layout.head_le : r.head + r.recordLimit ≤ r.capacity := by
  rw [recordLimit_eq h.limit h.small]
  exact h.room

theorem Layout.tail_le (hcount : r.count ≠ 0) : r.tail + r.recordLimit ≤ r.capacity := by
  rw [recordLimit_eq h.limit h.small]
  refine h.tail_inside ?_
  rintro rfl
  exact hcount h.count

/-- A record that is added without evictions moves the head on and leaves all else where it was. -/
theorem Layout.head_added (hroomy : r.Roomy) (left : Bytes) (size : Nat) :
    let added := (r.filled left).link size
    added.head = r.geometry.after r.head (headerSize + size) ∧ added.tail = r.tail ∧
      added.capacity = r.capacity ∧ added.recordLimit = r.recordLimit := by
  have hcapacity : (r.filled left).capacity = r.capacity := h.capacity_filled left
  have hlimit : (r.filled left).recordLimit = r.recordLimit := congrArg recordSpace h.patchLimit_vacate
  have hgeometry : (r.filled left).geometry = r.geometry := by
    unfold geometry
    rw [hcapacity, hlimit]
  have hhead : (r.filled left).head = r.vacate.head := rfl
  have htail : (r.filled left).tail = r.vacate.tail := rfl
  rw [hroomy.vacate_eq] at hhead htail
  refine ⟨?_, htail, (capacity_link _ _).trans hcapacity, hlimit⟩
  rw [link_eq]
  dsimp only
  rw [hgeometry, hhead]

/-- **A record that is added without evictions takes its own bytes of the free ones**, or all those up to the region's
end if no other record fits there. -/
theorem Layout.freeBytes_added (hs : r.Settled) (hroomy : r.Roomy) (left : Bytes) {size : Nat}
    (hsize : size ≤ r.patchLimit) :
    ((r.filled left).link size).freeBytes =
      if r.capacity < r.head + (headerSize + size) + r.recordLimit then r.tail
      else r.freeBytes - (headerSize + size) := by
  have hheader : headerSize = 16 := rfl
  have hlimit := recordLimit_eq h.limit h.small
  have hroom := h.head_le
  have hlayout := h.link_filled left hsize
  have hcount : ((r.filled left).link size).count ≠ 0 := Nat.succ_ne_zero _
  obtain ⟨hhead, htail, hcapacity, -⟩ := h.head_added hroomy left size
  split
  · next hnear =>
    rw [after_of_lt hnear (show r.head + (headerSize + size) ≤ r.capacity by omega)] at hhead
    rw [hlayout.freeBytes_of_le hcount (by omega), hhead, htail, Nat.sub_zero]
  · next hfar =>
    rw [after_of_le (show r.head + (headerSize + size) + r.recordLimit ≤ r.capacity by omega)] at hhead
    by_cases hempty : r.count = 0
    · obtain ⟨hhead₀, htail₀, -⟩ := hs hempty
      rw [hlayout.freeBytes_of_lt hcount (by omega), freeBytes, if_pos hempty]
      omega
    · by_cases hle : r.head ≤ r.tail
      · have hfree := h.freeBytes_of_le hempty hle
        have hfits := hroomy.resolve_left hempty
        rw [hlayout.freeBytes_of_le hcount (by omega)]
        omega
      · have hfree := h.freeBytes_of_lt hempty (Nat.lt_of_not_le hle)
        rw [hlayout.freeBytes_of_lt hcount (by omega)]
        omega

end Free

/-! ### Two more records -/

/-- The next two patches, whatever they are, are added, and no record is evicted for them. -/
def TakesTwo (r : Ring) : Prop :=
  ∀ patch patch' : Bytes, patch.size ≤ r.patchLimit → patch'.size ≤ r.patchLimit →
    ∃ receipt receipt', (r.push patch).2 = .ok receipt ∧ receipt.evicted = 0 ∧
      ((r.push patch).1.push patch').2 = .ok receipt' ∧ receipt'.evicted = 0

/-- There is room for two of the largest records: for both at the head or, if the region ends before, for the second one
at zero. -/
def FitsTwo (r : Ring) : Prop :=
  if r.capacity < r.head + 2 * r.recordLimit then r.tail < r.head ∧ r.recordLimit ≤ r.tail
  else 2 * r.recordLimit ≤ r.freeBytes

section Two

variable (h : Layout r q) (hs : r.Settled)
include h hs

/-- If two of the largest records fit, there are twice as many bytes free. -/
theorem Layout.freeBytes_of_fitsTwo (hfits : r.FitsTwo) : 2 * r.recordLimit ≤ r.freeBytes := by
  have hhead := h.head_le
  unfold FitsTwo at hfits
  split at hfits
  · obtain ⟨hlt, htail⟩ := hfits
    rw [h.freeBytes_of_lt (hs.count_ne_zero hlt) hlt]
    omega
  · exact hfits

/-- If just one byte less is free than three of the largest records have, two of them fit. -/
theorem Layout.fitsTwo_of_freeBytes (hfree : 3 * r.recordLimit ≤ r.freeBytes + 1) : r.FitsTwo := by
  have hpos := h.recordLimit_pos
  unfold FitsTwo
  split
  · next hnear =>
    have hcount : r.count ≠ 0 := by
      intro hempty
      obtain ⟨hhead, -⟩ := hs hempty
      rw [freeBytes, if_pos hempty] at hfree
      omega
    have htail := h.tail_le hcount
    by_cases hle : r.head ≤ r.tail
    · rw [h.freeBytes_of_le hcount hle] at hfree
      omega
    · rw [h.freeBytes_of_lt hcount (Nat.lt_of_not_le hle)] at hfree
      omega
  · omega

/-- Behind any record there is still room for the largest one if two of them fit. -/
theorem Layout.roomy_added (hfits : r.FitsTwo) (left : Bytes) {size : Nat} (hsize : size ≤ r.patchLimit) :
    ((r.filled left).link size).Roomy := by
  have hlimit := recordLimit_eq h.limit h.small
  have hfree := h.freeBytes_of_fitsTwo hs hfits
  have hroomy : r.Roomy := .inr (by omega)
  obtain ⟨-, -, -, hlimit'⟩ := h.head_added hroomy left size
  refine .inr ?_
  rw [hlimit', h.freeBytes_added hs hroomy left hsize]
  unfold FitsTwo at hfits
  split
  · rw [if_pos (by omega)] at hfits
    exact hfits.2
  · omega

/-- Behind the largest record there is room for another one only if two of them fit. -/
theorem Layout.fitsTwo_of_roomy (hroomy : r.Roomy) (left : Bytes)
    (hroomy' : ((r.filled left).link r.patchLimit).Roomy) : r.FitsTwo := by
  have hlimit := recordLimit_eq h.limit h.small
  have hpos := h.recordLimit_pos
  obtain ⟨-, -, -, hlimit'⟩ := h.head_added hroomy left r.patchLimit
  have hfree := hroomy'.resolve_left (Nat.succ_ne_zero _)
  rw [hlimit', h.freeBytes_added hs hroomy left (Nat.le_refl _), ← hlimit] at hfree
  unfold FitsTwo
  split
  · next hnear =>
    rw [if_pos (by omega)] at hfree
    refine ⟨Nat.lt_of_not_le fun hle => ?_, hfree⟩
    -- between a head that has come around and the tail, there would be room for one record only
    have hcount : r.count ≠ 0 := by
      intro hempty
      obtain ⟨-, htail, -⟩ := hs hempty
      omega
    have htail := h.tail_le hcount
    have hfits := hroomy.resolve_left hcount
    rw [h.freeBytes_of_le hcount hle] at hfits
    omega
  · next hfar =>
    rw [if_neg (by omega)] at hfree
    omega

/-- **The next two patches are added without evictions** exactly if two of the largest records fit. -/
theorem Layout.takesTwo_iff : r.TakesTwo ↔ r.FitsTwo := by
  constructor
  · intro htakes
    have hsize : (Bytes.zeros r.patchLimit).size = r.patchLimit := Bytes.size_zeros _
    have hfits := Nat.le_of_eq hsize
    obtain ⟨receipt, receipt', hok, hkept, hok', hkept'⟩ := htakes _ _ hfits hfits
    rw [h.push_ok hfits] at hok hok'
    obtain rfl := Except.ok.inj hok
    have hlayout := h.link_patch hfits
    rw [hlayout.push_ok (hfits.trans (Nat.le_of_eq h.patchLimit_vacate.symm))] at hok'
    obtain rfl := Except.ok.inj hok'
    have hroomy' := hlayout.evictions_eq_zero_iff.mp hkept'
    rw [hsize] at hroomy'
    exact h.fitsTwo_of_roomy hs (h.evictions_eq_zero_iff.mp hkept) _ hroomy'
  · intro hfits patch patch' hpatch hpatch'
    have hfree := h.freeBytes_of_fitsTwo hs hfits
    have hroomy : r.Roomy := .inr (by omega)
    have hlayout := h.link_patch hpatch
    have hroomy' := h.roomy_added hs hfits (r.slot.overlay 0 patch) hpatch
    rw [h.push_ok hpatch, hlayout.push_ok (hpatch'.trans (Nat.le_of_eq h.patchLimit_vacate.symm))]
    exact ⟨_, _, rfl, h.evictions_eq_zero_iff.mpr hroomy, rfl, hlayout.evictions_eq_zero_iff.mpr hroomy'⟩

end Two

/-! ### Rings that are not nearly full -/

/-- **When a ring takes two more patches.**  After any operations on a new ring, the next two patches are added without
evictions exactly if two of the largest records fit, and then the ring is not nearly full.  One that is not nearly full
takes the next patch, if patches may have no fewer than 15 bytes, but a second one for certain only if just one byte less
than three of the largest records have is free. -/
theorem run_takesTwo_iff {ε : Type} (refuse : RingError → ε) {capacity patchLimit : Nat} {r₀ : Ring}
    (hcreate : create capacity patchLimit = .ok r₀) (ops : List (Op ε)) :
    let r := run refuse r₀ ops
    (r.TakesTwo ↔ r.FitsTwo) ∧ (r.TakesTwo → r.nearlyFull = false) ∧
      (r.nearlyFull = false → headerSize ≤ patchLimit + 1 → r.evictions = 0) ∧
        (3 * r.recordLimit ≤ r.freeBytes + 1 → r.TakesTwo) := by
  intro r
  obtain ⟨hpatchLimit, hs, q, hq⟩ := layout_of_run refuse hcreate ops
  have hpatchLimit : r.patchLimit = patchLimit := hpatchLimit
  have hlimit : r.recordLimit = headerSize + r.patchLimit := recordLimit_eq hq.limit hq.small
  have hheader : headerSize = 16 := rfl
  have hiff : r.TakesTwo ↔ r.FitsTwo := hq.takesTwo_iff hs
  have hflag : r.nearlyFull = false ↔ 2 * r.patchLimit < r.freeBytes := by
    rw [nearlyFull, decide_eq_false_iff_not, Nat.not_le]
  refine ⟨hiff, fun htakes => ?flag, fun hflagged hlarge => ?first, fun hfree => ?both⟩
  case flag =>
    have hfree : 2 * r.recordLimit ≤ r.freeBytes := hq.freeBytes_of_fitsTwo hs (hiff.mp htakes)
    rw [hflag]
    omega
  case first =>
    have hfree := hflag.mp hflagged
    have hfits : r.recordLimit ≤ r.freeBytes := by omega
    exact hq.evictions_eq_zero_iff.mpr (.inr hfits)
  case both => exact hiff.mpr (hq.fitsTwo_of_freeBytes hs hfree)

/-- One record of 24 bytes in a region of 60 leaves 36 bytes, more than two patches have.  The second record takes them
all, so there is no room for a third. -/
theorem run_takesTwo_iff_gap :
    ∃ r₀, create 60 8 = .ok r₀ ∧
      let r := run id r₀ [.push ⟨#[1, 2, 3, 4, 5, 6, 7, 8]⟩]
      r.nearlyFull = false ∧ r.freeBytes = 36 ∧ ¬ r.FitsTwo ∧ ¬ r.TakesTwo := by
  have hcreate : create 60 8 = .ok ⟨Bytes.zeros 60, 8, 0, 0, 0, 0⟩ := rfl
  refine ⟨_, hcreate, ?_⟩
  intro r
  have hfits : ¬ r.FitsTwo := by
    unfold FitsTwo
    decide +kernel
  obtain ⟨hiff, -⟩ := run_takesTwo_iff id hcreate [.push ⟨#[1, 2, 3, 4, 5, 6, 7, 8]⟩]
  exact ⟨by decide +kernel, by decide +kernel, hfits, fun htakes => hfits (hiff.mp htakes)⟩

/-- **A ring that is not nearly full need not take two more patches.** -/
theorem not_takesTwo_of_not_nearlyFull :
    ¬ ∀ (capacity patchLimit : Nat) (r₀ : Ring), create capacity patchLimit = .ok r₀ →
      ∀ ops : List (Op RingError), (run id r₀ ops).nearlyFull = false → (run id r₀ ops).TakesTwo := by
  intro hall
  let r₀ : Ring := ⟨Bytes.zeros 60, 8, 0, 0, 0, 0⟩
  let patch : Bytes := ⟨#[1, 2, 3, 4, 5, 6, 7, 8]⟩
  have hflag : (run id r₀ [.push patch]).nearlyFull = false := by decide +kernel
  have hsecond : (((run id r₀ [.push patch]).push patch).1.push patch).2 = .ok ⟨0, 8, 1⟩ := by decide +kernel
  obtain ⟨-, receipt, -, -, hok, hkept⟩ :=
    hall 60 8 r₀ rfl [.push patch] hflag patch patch (Nat.le_refl 8) (Nat.le_refl 8)
  obtain rfl := Except.ok.inj (hsecond.symm.trans hok)
  exact absurd hkept Nat.one_ne_zero

/-! ### The first eviction -/

section First

variable {ε : Type} (refuse : RingError → ε)

/-- An operation that makes room for a record, and evicts others for it. -/
def Op.Evicts (r : Ring) (op : Op ε) : Prop := op.Adds r.patchLimit ∧ 0 < r.evictions

/-- **No record was evicted by some operations since there was none.**  There may have been none before a record was added,
too, when all others were evicted for it. -/
inductive Unevicted (r₀ : Ring) : List (Op ε) → Prop
  | none {ops : List (Op ε)} (empty : (run refuse r₀ ops).count = 0) : Unevicted r₀ ops
  | emptied {ops : List (Op ε)} {op : Op ε} (adds : op.Adds (run refuse r₀ ops).patchLimit)
    (empty : (run refuse r₀ ops).vacate.count = 0) : Unevicted r₀ (ops ++ [op])
  | kept {ops : List (Op ε)} {op : Op ε} (before : Unevicted r₀ ops)
    (keeps : ¬ op.Evicts (run refuse r₀ ops)) : Unevicted r₀ (ops ++ [op])

theorem run_concat (r₀ : Ring) (ops : List (Op ε)) (op : Op ε) :
    run refuse r₀ (ops ++ [op]) = (exec refuse (run refuse r₀ ops) op).1 := by
  rw [run, List.foldl_append]
  rfl

/-- Whether a record is added in the end or not, the oldest one is where it is once room was made. -/
theorem Layout.tail_exec (h : Layout r q) {op : Op ε} (hadds : op.Adds r.patchLimit) :
    (exec refuse r op).1.tail = r.vacate.tail := by
  cases op with
  | push patch =>
    dsimp only [exec]
    rw [h.push_ok hadds]
    rfl
  | pushWith fill =>
    dsimp only [exec]
    rw [pushWith_eq]
    split
    · rfl
    · split <;> rfl
  | newest | dropNewest | clear => exact hadds.elim

theorem tail_dropNewest (htail : r.tail = 0) : r.dropNewest.1.tail = 0 := by
  unfold dropNewest
  split
  · exact htail
  · split
    · rfl
    · exact htail

/-- An operation that evicts nothing leaves the oldest record at zero. -/
theorem Layout.tail_exec_of_kept (h : Layout r q) (htail : r.tail = 0) {op : Op ε} (hkeeps : ¬ op.Evicts r) :
    (exec refuse r op).1.tail = 0 := by
  by_cases hadds : op.Adds r.patchLimit
  · have hkept : r.evictions = 0 := Nat.eq_zero_of_not_pos fun hpos => hkeeps ⟨hadds, hpos⟩
    rw [h.tail_exec refuse hadds, (h.evictions_eq_zero_iff.mp hkept).vacate_eq, htail]
  · cases op with
    | push patch =>
      have hlarge : r.patchLimit < patch.size := Nat.lt_of_not_le hadds
      dsimp only [exec]
      rw [Ring.push, if_pos hlarge]
      exact htail
    | pushWith fill => exact absurd trivial hadds
    | newest => exact htail
    | dropNewest => exact tail_dropNewest htail
    | clear => rfl

/-- **Until a record is evicted, the oldest one is at zero.** -/
theorem Unevicted.tail_eq_zero {capacity patchLimit : Nat} {r₀ : Ring}
    (hcreate : create capacity patchLimit = .ok r₀) {ops : List (Op ε)} (hun : Unevicted refuse r₀ ops) :
    (run refuse r₀ ops).tail = 0 := by
  induction hun with
  | @none ops empty =>
    obtain ⟨-, hs, -⟩ := layout_of_run refuse hcreate ops
    exact (hs empty).2.1
  | @emptied ops op adds empty =>
    obtain ⟨-, hs, q, hq⟩ := layout_of_run refuse hcreate ops
    rw [run_concat, hq.tail_exec refuse adds]
    exact (hs.vacateUpTo _ empty).2.1
  | @kept ops op before keeps ih =>
    obtain ⟨-, -, q, hq⟩ := layout_of_run refuse hcreate ops
    rw [run_concat]
    exact hq.tail_exec_of_kept refuse ih keeps

/-- With the oldest record at zero, room is missing only if the head is there, too. -/
theorem Layout.freeBytes_of_evicts (h : Layout r q) (htail : r.tail = 0) (hevicts : 0 < r.evictions) :
    r.freeBytes = 0 := by
  have hroomy : ¬ r.Roomy := fun hroomy => Nat.ne_of_gt hevicts (h.evictions_eq_zero_iff.mpr hroomy)
  obtain ⟨hcount, hfree⟩ := not_or.mp hroomy
  rcases Nat.eq_zero_or_pos r.head with hhead | hhead
  · rw [h.freeBytes_of_le hcount (by omega)]
    omega
  · -- a head that is not at zero has room for a record in front of it
    have hroom := h.head_le
    rw [h.freeBytes_of_lt hcount (by omega)] at hfree
    omega

/-- Only what adds a record is answered with a receipt. -/
theorem adds_of_receipt {op : Op ε} {receipt : Receipt} (hreceipt : (exec refuse r op).2.receipt = some receipt) :
    op.Adds r.patchLimit := by
  cases op with
  | push patch =>
    refine Nat.le_of_not_lt fun hlarge => ?_
    dsimp only [exec] at hreceipt
    rw [Ring.push, if_pos hlarge] at hreceipt
    cases hreceipt
  | pushWith fill => trivial
  | newest | dropNewest | clear => cases hreceipt

/-- What a receipt reports as evicted is what the ring had to evict for its record. -/
theorem Layout.evicts_iff (h : Layout r q) {op : Op ε} {receipt : Receipt}
    (hreceipt : (exec refuse r op).2.receipt = some receipt) : op.Evicts r ↔ 0 < receipt.evicted := by
  have hadds := adds_of_receipt refuse hreceipt
  obtain ⟨-, -, -, rfl, -⟩ := h.linked_of_receipt refuse hreceipt
  exact and_iff_right hadds

/-- **The first eviction finds every byte used.**  After operations that evicted no record since there was none, an
operation evicts one only if the bytes in use are those of the whole region, so that the ring was already nearly full.
That it evicts one is what its receipt reports, if it answers with one. -/
theorem run_evicts_full {capacity patchLimit : Nat} {r₀ : Ring} (hcreate : create capacity patchLimit = .ok r₀)
    {ops : List (Op ε)} (hun : Unevicted refuse r₀ ops) :
    let r := run refuse r₀ ops
    ∀ op : Op ε, (op.Evicts r → r.usedBytes = r.capacity ∧ r.freeBytes = 0 ∧ r.nearlyFull = true) ∧
      ∀ receipt, (exec refuse r op).2.receipt = some receipt → (op.Evicts r ↔ 0 < receipt.evicted) := by
  intro r op
  obtain ⟨-, hs, q, hq⟩ := layout_of_run refuse hcreate ops
  refine ⟨fun hevicts => ?_, fun receipt hreceipt => hq.evicts_iff refuse hreceipt⟩
  have hfree : r.freeBytes = 0 := hq.freeBytes_of_evicts (hun.tail_eq_zero refuse hcreate) hevicts.2
  refine ⟨?_, hfree, ?_⟩
  · rw [usedBytes, hfree, Nat.sub_zero]
  · rw [nearlyFull, hfree]
    exact decide_eq_true (Nat.zero_le _)

end First

/-- Two records of 24 bytes fill a region of 60, the second one of them anew after it was dropped.  A third evicts the
first one. -/
theorem run_evicts_full_dropped :
    ∃ r₀, create 60 8 = .ok r₀ ∧
      let patch : Bytes := ⟨#[1, 2, 3, 4, 5, 6, 7, 8]⟩
      let ops : List (Op RingError) := [.push patch, .push patch, .dropNewest, .push patch]
      Unevicted id r₀ ops ∧ (exec id (run id r₀ ops) (.push patch)).2.receipt = some ⟨0, 8, 1⟩ ∧
        (run id r₀ ops).usedBytes = (run id r₀ ops).capacity ∧ (run id r₀ ops).nearlyFull = true := by
  let r₀ : Ring := ⟨Bytes.zeros 60, 8, 0, 0, 0, 0⟩
  have hcreate : create 60 8 = .ok r₀ := rfl
  refine ⟨r₀, hcreate, ?_⟩
  intro patch ops
  have hkeeps (r : Ring) (hkept : r.evictions = 0) : ¬ (Op.push patch : Op RingError).Evicts r :=
    fun hevicts => Nat.ne_of_gt hevicts.2 hkept
  have hone : Unevicted id r₀ ([] ++ [.push patch]) := .kept (.none rfl) (hkeeps _ (by decide +kernel))
  have htwo := hone.kept (hkeeps _ (by decide +kernel))
  have hdropped := htwo.kept (fun hevicts : Op.dropNewest.Evicts _ => hevicts.1)
  have hun : Unevicted id r₀ ops := hdropped.kept (hkeeps _ (by decide +kernel))
  have hreceipt : (exec id (run id r₀ ops) (.push patch)).2.receipt = some ⟨0, 8, 1⟩ := by decide +kernel
  obtain ⟨hfull, hreports⟩ := run_evicts_full id hcreate hun (.push patch)
  obtain ⟨hused, -, hflag⟩ := hfull ((hreports _ hreceipt).mpr Nat.one_pos)
  exact ⟨hun, hreceipt, hused, hflag⟩

end Ring

end Retrace
