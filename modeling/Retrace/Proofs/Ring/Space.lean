import Mathlib.Algebra.GroupWithZero.Nat
import Retrace.Proofs.Ring.Chain

/-!
# How the bytes of a ring are used

The used bytes are the distance from the tail forward to the head, which by itself does not tell a full ring
from an empty one, or one lap from two.  The places of the records do: the live ones go around at most once,
and leave no bytes between them but those at the region's end.

* `recordBytes`, `liveBytes`: the bytes of some records and of the live ones;
* `WrapGap`: what is left unused at the region's end, and behind which record;
* `Layout.usedBytes_eq`: the used bytes are those of the live records and the gap;
* `run_accounts`: so it is after any operations on a new ring.
-/

namespace Retrace

namespace Ring

/-! ### Bytes of records -/

/-- The bytes of some records, headers included. -/
def recordBytes (q : List (Nat × Bytes)) : Nat := (q.map fun record => headerSize + record.2.size).sum

@[simp]
theorem recordBytes_nil : recordBytes [] = 0 := rfl

@[simp]
theorem recordBytes_cons (record : Nat × Bytes) (q : List (Nat × Bytes)) :
    recordBytes (record :: q) = headerSize + record.2.size + recordBytes q := by
  simp [recordBytes]

@[simp]
theorem recordBytes_append (p q : List (Nat × Bytes)) :
    recordBytes (p ++ q) = recordBytes p + recordBytes q := by
  simp [recordBytes]

/-- The bytes of the live records, headers included, as the headers have them. -/
def liveBytes (r : Ring) : Nat :=
  (r.records.map fun record => headerSize + r.storedSize record.1).sum

theorem Row.recordBytes {q : List (Nat × Bytes)} {a c : Nat} (h : Row a q c) : a + recordBytes q = c := by
  induction h with
  | nil => simp
  | cons start after ih =>
    unfold stop at ih
    rw [recordBytes_cons]
    omega

variable {r : Ring} {q : List (Nat × Bytes)} {record : Nat × Bytes}

theorem Layout.liveBytes_eq (h : Layout r q) : r.liveBytes = recordBytes q := by
  unfold liveBytes Ring.recordBytes
  rw [h.records_eq]
  refine congrArg List.sum (List.map_congr_left fun record hr => ?_)
  rw [(h.held record hr).size]

/-! ### What is used -/

theorem Layout.usedBytes_nil (h : Layout r []) : r.usedBytes = 0 := by
  have hcount : r.count = 0 := h.count
  simp [usedBytes, freeBytes, hcount]

section Rows

variable (h : Layout r q)
include h

/-- In one row the records are all there is. -/
theorem Layout.usedBytes_straight (row : Row r.tail q r.head) : r.usedBytes = recordBytes q := by
  by_cases hq : q = []
  · subst hq
    rw [h.usedBytes_nil, recordBytes_nil]
  · have hbytes := row.recordBytes
    have hroom := h.room
    have hahead : r.tail < r.head := by
      obtain ⟨oldest, rest, rfl⟩ := List.exists_cons_of_ne_nil hq
      have hheader : headerSize = 16 := rfl
      rw [recordBytes_cons] at hbytes
      omega
    have hcount : r.count ≠ 0 := by simp [h.count, hq]
    rw [usedBytes, h.freeBytes_of_lt hcount hahead]
    omega

/-- In two rows it is the records, and what the first row leaves at the region's end. -/
theorem Layout.usedBytes_wrapped {front back : List (Nat × Bytes)} {gap : Nat} (hq : q = front ++ back)
    (nonempty : front ≠ []) (first : Row r.tail front gap) (inside : gap ≤ r.capacity)
    (second : Row 0 back r.head) (behind : r.head ≤ r.tail) :
    r.usedBytes = recordBytes q + (r.capacity - gap) := by
  subst hq
  have hne : front ++ back ≠ [] := by simp [nonempty]
  have hfirst := first.recordBytes
  have hsecond := second.recordBytes
  have htail := h.tail_inside hne
  have hheader : headerSize = 16 := rfl
  have hcount : r.count ≠ 0 := by simp [h.count, nonempty]
  rw [usedBytes, h.freeBytes_of_le hcount behind, recordBytes_append]
  omega

end Rows

/-! ### The gap -/

/-- **What the records leave unused at the region's end**: nothing if each of them has its next place right behind
it; else what is behind the only one whose next place is at zero, which is too short for a record. -/
inductive WrapGap (r : Ring) : Nat → Prop
  | none (stay : ∀ record ∈ r.records, r.successor record.1 ≠ 0) : WrapGap r 0
  | behind {record : Nat × Bytes} (live : record ∈ r.records) (wraps : r.successor record.1 = 0)
    (only : ∀ other ∈ r.records, r.successor other.1 = 0 → other = record)
    (inside : r.storedStop record.1 ≤ r.capacity)
    (short : r.capacity - r.storedStop record.1 < r.recordLimit) :
    WrapGap r (r.capacity - r.storedStop record.1)

section Rows

variable (h : Layout r q)
include h

/-- A record that ends where another one could start has its next place right behind it. -/
theorem Layout.successor_ne_zero (hr : record ∈ q)
    (hroom : stop record + (headerSize + r.patchLimit) ≤ r.capacity) : r.successor record.1 ≠ 0 := by
  have hheader : headerSize = 16 := rfl
  have hfits : record.1 + (headerSize + record.2.size) + r.geometry.reserve ≤ r.geometry.capacity := by
    rw [h.reserve_eq, ← Nat.add_assoc record.1]
    exact hroom
  rw [(h.held record hr).successor_eq, after_of_le hfits]
  omega

theorem Layout.successor_eq_zero (hr : record ∈ q)
    (hshort : r.capacity < stop record + (headerSize + r.patchLimit)) : r.successor record.1 = 0 := by
  have hinside : record.1 + (headerSize + record.2.size) ≤ r.geometry.capacity := by
    rw [← Nat.add_assoc, ← stop, ← (h.held record hr).storedStop_eq]
    exact h.storedStop_le hr
  have hunfit : r.geometry.capacity < record.1 + (headerSize + record.2.size) + r.geometry.reserve := by
    rw [h.reserve_eq, ← Nat.add_assoc record.1]
    exact hshort
  rw [(h.held record hr).successor_eq, after_of_lt hunfit hinside]

theorem Layout.gap_straight (row : Row r.tail q r.head) : WrapGap r 0 := by
  refine .none fun record hr => ?_
  rw [h.records_eq] at hr
  have hstop := (row.bounds hr).2
  have hroom := h.room
  exact h.successor_ne_zero hr (by omega)

/-- The last record of the first row is the only one whose next place is at zero. -/
theorem Layout.gap_wrapped {older back : List (Nat × Bytes)} {last : Nat × Bytes}
    (hq : q = older ++ [last] ++ back) (first : Row r.tail (older ++ [last]) (stop last))
    (short : r.capacity < stop last + (headerSize + r.patchLimit)) (second : Row 0 back r.head) :
    WrapGap r (r.capacity - stop last) := by
  have hlast : last ∈ q := by simp [hq]
  have hheld := h.held last hlast
  have hlimit := recordLimit_eq h.limit h.small
  have hinside := h.storedStop_le hlast
  have honly : ∀ other ∈ q, r.successor other.1 = 0 → other = last := by
    intro other hother hzero
    by_contra hne
    refine h.successor_ne_zero hother ?_ hzero
    have hparts : other ∈ older ∨ other ∈ back := by simpa [hq, hne] using hother
    rcases hparts with hfront | hback
    · -- another record follows in the first row
      have hstop := (first.init.1.bounds hfront).2
      have hinside := hheld.inside
      omega
    · have hstop := (second.bounds hback).2
      have hroom := h.room
      omega
  have hwraps := h.successor_eq_zero hlast short
  rw [← hheld.storedStop_eq] at short ⊢
  rw [← h.records_eq] at hlast honly
  exact .behind hlast hwraps honly hinside (by omega)

/-- **The used bytes are those of the live records and the gap.** -/
theorem Layout.usedBytes_eq : ∃ gap, WrapGap r gap ∧ r.usedBytes = r.liveBytes + gap := by
  rw [h.liveBytes_eq]
  cases h.placed with
  | straight row => exact ⟨0, h.gap_straight row, h.usedBytes_straight row⟩
  | @wrapped gap _ front back nonempty first inside short second behind =>
    have hused := h.usedBytes_wrapped rfl nonempty first inside second behind
    obtain ⟨older, last, rfl⟩ := (List.eq_nil_or_concat' front).resolve_left nonempty
    obtain rfl : gap = stop last := first.init.2
    rw [h.reserve_eq] at short
    exact ⟨_, h.gap_wrapped rfl first short second, hused⟩

/-- A ring with records whose head has come to the tail is full. -/
theorem Layout.freeBytes_of_met (hcount : r.count ≠ 0) (hmet : r.head = r.tail) : r.freeBytes = 0 := by
  rw [h.freeBytes_of_le hcount (Nat.le_of_eq hmet), hmet, Nat.sub_self]

end Rows

/-! ### Rings that come about -/

/-- **The used bytes are accounted for.**  After any operations on a new ring, they are those of the live records
and the gap that these leave at the region's end, and all other bytes are free.  The live records overlap nowhere,
and each one's next place is where the one after it starts, or the head.  If the head has come to the tail in a
ring with records, there is no free byte. -/
theorem run_accounts {ε : Type} (refuse : RingError → ε) {capacity patchLimit : Nat} {r₀ : Ring}
    (hcreate : create capacity patchLimit = .ok r₀) (ops : List (Op ε)) :
    let r := run refuse r₀ ops
    (∃ gap, WrapGap r gap ∧ r.usedBytes = r.liveBytes + gap) ∧ r.usedBytes + r.freeBytes = r.capacity ∧
      (r.count ≠ 0 → Chained r (r.records.map Prod.fst)) ∧
        (r.count ≠ 0 → r.head = r.tail → r.freeBytes = 0) := by
  intro r
  obtain ⟨-, -, q, hq⟩ := layout_of_run refuse hcreate ops
  have hfree : r.freeBytes ≤ r.capacity := hq.freeBytes_le
  refine ⟨hq.usedBytes_eq, Nat.sub_add_cancel hfree, fun hcount => ?_, hq.freeBytes_of_met⟩
  rw [hq.records_eq]
  refine hq.chained ?_
  rintro rfl
  exact hcount hq.count

/-- Two records of 24 bytes in a region of 60 bring the head back to zero, where the tail is: the 12 bytes behind them
are used too. -/
theorem run_accounts_full :
    ∃ r₀, create 60 8 = .ok r₀ ∧
      let patch : Bytes := ⟨#[1, 2, 3, 4, 5, 6, 7, 8]⟩
      let r := run id r₀ [.push patch, .push patch]
      r.count ≠ 0 ∧ r.head = r.tail ∧ r.freeBytes = 0 ∧ r.liveBytes = 48 ∧
        ∃ gap, WrapGap r gap ∧ r.usedBytes = r.liveBytes + gap := by
  have hcreate : create 60 8 = .ok ⟨Bytes.zeros 60, 8, 0, 0, 0, 0⟩ := rfl
  refine ⟨_, hcreate, ?_⟩
  intro patch r
  have hcount : r.count ≠ 0 := by decide +kernel
  have hmet : r.head = r.tail := by decide +kernel
  obtain ⟨hused, -, -, hfull⟩ := run_accounts id hcreate [.push patch, .push patch]
  exact ⟨hcount, hmet, hfull hcount hmet, by decide +kernel, hused⟩

end Ring

end Retrace
