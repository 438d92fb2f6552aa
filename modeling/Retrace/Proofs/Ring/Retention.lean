import Mathlib.Algebra.Order.BigOperators.Group.List
import Mathlib.Algebra.Order.Group.Nat
import Retrace.Proofs.Ring.Eviction
import Retrace.Proofs.Ring.Space

/-!
# How much a ring keeps

Evictions make room for the largest record, whatever is added then, and a gap counts as used.  So a ring may
evict while much of the region holds nothing: but not while more than two of the largest records would fit
there, since the gap and the free bytes are each too short for one.

* `Layout.full_before`: before the last eviction for a record, there was no room for the largest one;
* `Layout.capacity_lt`: what a ring without that room holds;
* `run_retains`: what is left at least once records were evicted.
-/

namespace Retrace

namespace Ring

variable {r : Ring} {q : List (Nat × Bytes)}

/-! ### Rings without room -/

theorem WrapGap.lt_recordLimit {gap : Nat} (hgap : WrapGap r gap) (hpos : 0 < r.recordLimit) :
    gap < r.recordLimit := by
  cases hgap with
  | none => exact hpos
  | behind live wraps only inside short => exact short

/-- The records of a ring without room for the largest one take all but less than two times its bytes. -/
theorem Layout.capacity_lt (h : Layout r q) (hfull : r.freeBytes < r.recordLimit) :
    r.capacity < recordBytes q + 2 * r.recordLimit := by
  obtain ⟨gap, hgap, hused⟩ := h.usedBytes_eq
  have hshort := hgap.lt_recordLimit (by omega)
  have hfree := h.freeBytes_le
  rw [h.liveBytes_eq, usedBytes] at hused
  omega

/-- No record takes more than the largest one. -/
theorem Layout.size_le (h : Layout r q) {record : Nat × Bytes} (hr : record ∈ q) :
    headerSize + record.2.size ≤ r.recordLimit := by
  have hfits := (h.held record hr).fits
  rw [recordLimit_eq h.limit h.small]
  omega

theorem Layout.recordBytes_le (h : Layout r q) : recordBytes q ≤ q.length * r.recordLimit := by
  have hle : ∀ size ∈ q.map fun record => headerSize + record.2.size, size ≤ r.recordLimit := by
    intro size hsize
    obtain ⟨record, hr, rfl⟩ := List.mem_map.mp hsize
    exact h.size_le hr
  simpa [recordBytes] using List.sum_le_card_nsmul _ _ hle

/-! ### Before the last eviction -/

theorem sizes_without (r : Ring) (n : Nat) :
    (r.without n).capacity = r.capacity ∧ (r.without n).recordLimit = r.recordLimit := by
  induction n with
  | zero => exact ⟨rfl, rfl⟩
  | succ n ih =>
    obtain ⟨hregion, hlimit⟩ := (r.without n).region_dropOldest
    rw [without_succ']
    exact ⟨(congrArg ByteArray.size hregion).trans ih.1, (congrArg recordSpace hlimit).trans ih.2⟩

/-- Before the last of some evictions, there was no room for the largest record. -/
theorem Layout.full_before (h : Layout r q) {n : Nat} (hn : r.evictions = n + 1) :
    (r.without n).freeBytes < (r.without n).recordLimit := by
  by_contra hroom
  have hroomy : (r.without n).Roomy := .inr (Nat.le_of_not_lt hroom)
  have hle := h.evictions_isLeast.2 hroomy
  omega

/-- Once records were evicted, those that are left take all but less than three times the bytes of the largest one, and
with three more of the largest ones they would not fit. -/
theorem Layout.capacity_lt_of_evictions (h : Layout r q) (hevicts : 0 < r.evictions) :
    r.capacity < recordBytes (q.drop r.evictions) + 3 * r.recordLimit ∧
      r.capacity < ((q.drop r.evictions).length + 3) * r.recordLimit := by
  obtain ⟨n, hn⟩ := Nat.exists_eq_add_one_of_ne_zero (Nat.ne_of_gt hevicts)
  have hle := h.evictions_le
  have hbefore := h.without n
  obtain ⟨hcapacity, hrecordLimit⟩ := r.sizes_without n
  have hlt := hbefore.capacity_lt (h.full_before hn)
  have hbytes := hbefore.recordBytes_le
  -- the record that was evicted last
  have hlast : q.drop n = q[n] :: q.drop (n + 1) := List.drop_eq_getElem_cons (by omega)
  have hsize := hbefore.size_le (show q[n] ∈ q.drop n by rw [hlast]; exact List.mem_cons_self)
  rw [hcapacity, hrecordLimit] at hlt
  rw [hrecordLimit] at hbytes hsize
  rw [hlast, recordBytes_cons] at hlt hbytes
  rw [hn]
  refine ⟨by omega, ?_⟩
  rw [List.length_cons, Nat.add_mul, Nat.one_mul] at hbytes
  rw [Nat.add_mul]
  omega

/-- What is kept when a record is added and others are evicted for it. -/
theorem Layout.retains (h : Layout r q) (hevicts : 0 < r.evictions) (left : Bytes) {size : Nat}
    (hsize : size ≤ r.patchLimit) :
    let added := (r.filled left).link size
    added.capacity < added.liveBytes + 3 * added.recordLimit ∧
      added.capacity / added.recordLimit - 1 ≤ added.count := by
  intro added
  have hlayout : Layout added (q.drop r.evictions ++ [_]) := h.link_filled left hsize
  have hcapacity : added.capacity = r.capacity := (capacity_link _ _).trans (h.capacity_filled left)
  have hrecordLimit : added.recordLimit = r.recordLimit := congrArg recordSpace h.patchLimit_vacate
  have hpos : 0 < r.recordLimit := by
    rw [recordLimit_eq h.limit h.small, headerSize]
    omega
  obtain ⟨hbytes, hcount⟩ := h.capacity_lt_of_evictions hevicts
  have hdiv := (Nat.div_lt_iff_lt_mul hpos).mpr hcount
  rw [hlayout.liveBytes_eq, hlayout.count, hcapacity, hrecordLimit, recordBytes_append, List.length_append,
    List.length_singleton]
  constructor <;> omega

/-! ### Rings that come about -/

/-- **What a ring keeps.**  If after any operations on a new ring a record was added and others were evicted for it,
the live records take all but less than three times the bytes of the largest one, and they are no fewer than the
largest ones that the region has room for, but one. -/
theorem run_retains {ε : Type} (refuse : RingError → ε) {capacity patchLimit : Nat} {r₀ : Ring}
    (hcreate : create capacity patchLimit = .ok r₀) (ops : List (Op ε)) {op : Op ε} {receipt : Receipt}
    (hreceipt : (exec refuse (run refuse r₀ ops) op).2.receipt = some receipt)
    (hevicts : 0 < receipt.evicted) :
    let r := (exec refuse (run refuse r₀ ops) op).1
    r.capacity < r.liveBytes + 3 * r.recordLimit ∧ r.capacity / r.recordLimit - 1 ≤ r.count := by
  intro r
  obtain ⟨-, -, q, hq⟩ := layout_of_run refuse hcreate ops
  obtain ⟨left, size, hsize, rfl, hring⟩ := hq.linked_of_receipt refuse hreceipt
  have hr : r = _ := hring
  rw [hr]
  exact hq.retains hevicts left hsize

/-- Two records of 17 bytes in a region of 48 go for a third: one alone is left, where two of the largest ones would
fit. -/
theorem run_retains_one :
    ∃ r₀, create 48 8 = .ok r₀ ∧
      let before := run id r₀ [.push ⟨#[1]⟩, .push ⟨#[2]⟩]
      let r := (exec id before (.push ⟨#[3]⟩)).1
      (exec id before (.push ⟨#[3]⟩)).2.receipt = some ⟨0, 1, 2⟩ ∧ r.count = 1 ∧
        r.capacity < r.liveBytes + 3 * r.recordLimit ∧ r.capacity / r.recordLimit - 1 ≤ r.count := by
  have hcreate : create 48 8 = .ok ⟨Bytes.zeros 48, 8, 0, 0, 0, 0⟩ := rfl
  refine ⟨_, hcreate, ?_⟩
  intro before r
  have hreceipt : (exec id before (.push ⟨#[3]⟩)).2.receipt = some ⟨0, 1, 2⟩ := by decide +kernel
  have hcount : r.count = 1 := by decide +kernel
  exact ⟨hreceipt, hcount, run_retains id hcreate [.push ⟨#[1]⟩, .push ⟨#[2]⟩] hreceipt (by decide)⟩

end Ring

end Retrace
