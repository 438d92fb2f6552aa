import Mathlib.Logic.Function.Iterate
import Mathlib.Order.Bounds.Basic
import Retrace.Proofs.Ring.Chain

/-!
# Evictions take the oldest records, and no more of them than they must

Dropping a record from the tail moves the tail over a gap, or takes an emptied ring back to zero, so the free
bytes do not grow in step with what was dropped.  Still the evictions for a record stop at the first ring
on the way that has room for the largest record.

* `without`, `Layout.without`: the ring after its oldest records were dropped;
* `vacateUpTo_stops`: room is missing before each eviction;
* `Layout.evictions_isLeast`: the number of evictions is the least that makes room;
* `run_evicts_least`: so it is for each record that is added, and nothing else is dropped for it.
-/

namespace Retrace

namespace Ring

/-- The ring without its `n` oldest records. -/
def without (r : Ring) (n : Nat) : Ring := dropOldest^[n] r

/-- There is no record, or room for the largest one. -/
def Roomy (r : Ring) : Prop := r.count = 0 ∨ r.recordLimit ≤ r.freeBytes

theorem without_succ (r : Ring) (n : Nat) : r.without (n + 1) = r.dropOldest.without n :=
  Function.iterate_succ_apply _ _ _

theorem without_succ' (r : Ring) (n : Nat) : r.without (n + 1) = (r.without n).dropOldest :=
  Function.iterate_succ_apply' _ _ _

theorem count_without (r : Ring) (n : Nat) : (r.without n).count = r.count - n := by
  induction n with
  | zero => rfl
  | succ n ih =>
    rw [without_succ', count_dropOldest, ih]
    omega

/-- Evictions drop a row of the oldest records, and room was missing before each of them. -/
theorem vacateUpTo_stops (r : Ring) (n : Nat) :
    ∃ k ≤ n, r.vacateUpTo n = r.without k ∧
      ∀ j < k, (r.without j).freeBytes < (r.without j).recordLimit := by
  induction n generalizing r with
  | zero => exact ⟨0, Nat.le_refl _, rfl, fun j hj => absurd hj j.not_lt_zero⟩
  | succ n ih =>
    rw [vacateUpTo]
    by_cases hfull : r.freeBytes < r.recordLimit
    · obtain ⟨k, hk, hvacate, hbefore⟩ := ih r.dropOldest
      rw [if_pos hfull, hvacate]
      refine ⟨k + 1, by omega, (r.without_succ k).symm, fun j hj => ?_⟩
      cases j with
      | zero => exact hfull
      | succ j =>
        rw [without_succ]
        exact hbefore j (by omega)
    · rw [if_neg hfull]
      exact ⟨0, Nat.zero_le _, rfl, fun j hj => absurd hj j.not_lt_zero⟩

variable {r : Ring} {q : List (Nat × Bytes)}

theorem Layout.without (h : Layout r q) (n : Nat) : Layout (r.without n) (q.drop n) := by
  induction n with
  | zero => exact h
  | succ n ih =>
    rw [without_succ', ← List.tail_drop]
    exact ih.dropOldest

/-- **The number of evictions is the least one that makes room.** -/
theorem Layout.evictions_isLeast (h : Layout r q) : IsLeast {n | (r.without n).Roomy} r.evictions := by
  obtain ⟨k, hk, hvacate, hbefore⟩ := r.vacateUpTo_stops r.count
  have hevictions : r.evictions = k := by
    have hcount : r.vacate.count = r.count - k := by
      rw [Ring.vacate, hvacate, count_without]
    rw [evictions, hcount]
    omega
  rw [hevictions]
  constructor
  · have hroom := h.not_full
    rw [Ring.vacate, hvacate] at hroom
    exact .inr (Nat.le_of_not_lt hroom)
  · rintro n (hempty | hroom)
    · by_contra hn
      -- a ring without records has room, so the evictions would have stopped there
      have hlayout := h.without n
      rw [List.eq_nil_of_length_eq_zero (hlayout.count.symm.trans hempty)] at hlayout
      exact hlayout.not_full_nil (hbefore n (Nat.lt_of_not_le hn))
    · by_contra hn
      exact Nat.not_lt.mpr hroom (hbefore n (Nat.lt_of_not_le hn))

/-! ### Each record that is added -/

section Run

variable {ε : Type} {refuse : RingError → ε}

/-- The receipt in an answer. -/
def Answer.receipt : Answer ε → Option Receipt
  | .pushed (.ok receipt) | .filled (.ok receipt) => some receipt
  | _ => none

/-- Where there is a receipt, its record is behind those that were not evicted. -/
theorem DequeStep.added {limit evicted : Nat} {op : Op ε} {answer : Answer ε} {q' : List (Nat × Bytes)}
    (hstep : DequeStep refuse limit q op answer evicted q') {receipt : Receipt}
    (hreceipt : answer.receipt = some receipt) :
    receipt.evicted = evicted ∧ ∃ patch, q' = q.drop evicted ++ [(receipt.offset, patch)] := by
  cases hstep <;> cases hreceipt
  case push => exact ⟨rfl, _, rfl⟩
  case fill => exact ⟨rfl, _, rfl⟩

variable (refuse)

/-- Where there is a receipt, a patch within the limit was left in the slot, and its record was linked. -/
theorem Layout.linked_of_receipt (h : Layout r q) {op : Op ε} {receipt : Receipt}
    (hreceipt : (exec refuse r op).2.receipt = some receipt) :
    ∃ left, ∃ size ≤ r.patchLimit, receipt = ⟨r.place, size, r.evictions⟩ ∧
      (exec refuse r op).1 = (r.filled left).link size := by
  cases op with
  | push patch =>
    dsimp only [exec] at hreceipt ⊢
    by_cases hlarge : r.patchLimit < patch.size
    · rw [Ring.push, if_pos hlarge] at hreceipt
      cases hreceipt
    · have hfits := Nat.le_of_not_lt hlarge
      rw [h.push_ok hfits] at hreceipt ⊢
      cases hreceipt
      exact ⟨_, _, hfits, rfl, rfl⟩
  | pushWith fill =>
    dsimp only [exec] at hreceipt ⊢
    cases hfill : (fill r.slot).2 with
    | error e =>
      rw [pushWith_error refuse hfill] at hreceipt
      cases hreceipt
    | ok n =>
      by_cases hlarge : r.patchLimit < n
      · rw [h.pushWith_over refuse hfill hlarge] at hreceipt
        cases hreceipt
      · have hfits := Nat.le_of_not_lt hlarge
        rw [h.pushWith_ok refuse hfill hfits] at hreceipt ⊢
        cases hreceipt
        exact ⟨_, _, hfits, rfl, rfl⟩
  | newest | dropNewest | clear => cases hreceipt

/-- **Eviction is first in, first out, and minimal.**  After any operations on a new ring, an operation that
adds evicts as few of the oldest records as leave no record or room for the largest one.  It answers as
a deque with this many evictions does and drops no other record, and its record is then the newest. -/
theorem run_evicts_least {capacity patchLimit : Nat} {r₀ : Ring}
    (hcreate : create capacity patchLimit = .ok r₀) (ops : List (Op ε)) {op : Op ε}
    (hadds : op.Adds patchLimit) :
    let r := run refuse r₀ ops
    let r' := (exec refuse r op).1
    let answer := (exec refuse r op).2
    (∀ n, (r.without n).records = r.records.drop n) ∧
      ∃ evicted, IsLeast {n | (r.without n).Roomy} evicted ∧
        DequeStep refuse patchLimit r.records op answer evicted r'.records ∧
        ∀ receipt, answer.receipt = some receipt → receipt.evicted = evicted ∧
          ∃ patch, r'.records = r.records.drop evicted ++ [(receipt.offset, patch)] ∧
            r'.newest = some (patch, receipt.offset) := by
  intro r r' answer
  obtain ⟨-, -, hnew⟩ := create_eq_ok hcreate
  have hpatchLimit : r₀.patchLimit = patchLimit := by rw [hnew]
  obtain ⟨hlimit, q, hq⟩ := run_layout refuse (layout_of_create hcreate).1 ops
  have hlimit : r.patchLimit = patchLimit := hlimit.trans hpatchLimit
  rw [← hlimit] at hadds ⊢
  obtain ⟨q', hstep, hq', -⟩ := exec_evicts refuse hq hadds
  rw [hq.records_eq, hq'.records_eq]
  refine ⟨fun n => (hq.without n).records_eq, r.evictions, hq.evictions_isLeast, hstep, ?_⟩
  intro receipt hreceipt
  obtain ⟨hevicted, patch, rfl⟩ := hstep.added hreceipt
  exact ⟨hevicted, patch, rfl, hq'.newest⟩

end Run

/-- Two records of 24 bytes in a region of 60 leave no room for a third: one of them is evicted for it. -/
theorem run_evicts_least_one :
    ∃ r₀, create 60 8 = .ok r₀ ∧
      let patch : Bytes := ⟨#[1, 2, 3, 4, 5, 6, 7, 8]⟩
      let r := run id r₀ [.push patch, .push patch]
      let r' := (exec id r (.push patch)).1
      (Op.push patch : Op RingError).Adds 8 ∧ IsLeast {n | (r.without n).Roomy} 1 ∧
        ∃ older, r'.records = r.records.drop 1 ++ [older] ∧ r'.newest = some (older.2, older.1) := by
  have hcreate : create 60 8 = .ok ⟨Bytes.zeros 60, 8, 0, 0, 0, 0⟩ := rfl
  refine ⟨_, hcreate, ?_⟩
  intro patch r r'
  have hadds : (Op.push patch : Op RingError).Adds 8 := Nat.le_refl 8
  have hpush : (r.push patch).2 = .ok ⟨0, 8, 1⟩ := by decide +kernel
  have hreceipt : (exec id r (.push patch)).2.receipt = some ⟨0, 8, 1⟩ :=
    congrArg (fun outcome => (Answer.pushed outcome : Answer RingError).receipt) hpush
  obtain ⟨-, evicted, hleast, -, hadded⟩ := run_evicts_least id hcreate [.push patch, .push patch] hadds
  obtain ⟨hone, stored, hrecords, hnewest⟩ := hadded _ hreceipt
  obtain rfl : 1 = evicted := hone
  exact ⟨hadds, hleast, _, hrecords, hnewest⟩

end Ring

end Retrace
