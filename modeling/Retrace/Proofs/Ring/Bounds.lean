import Retrace.Proofs.Ring.Checked
import Retrace.Proofs.Ring.Deque
import Retrace.Proofs.Ring.Eviction

/-!
# A ring stays in range

Offsets and sizes are read back from the region, which fills write to.  They are those of live records all the same,
so no operation reaches beyond the region, and no sum, difference or product of sizes is out of range.

* `exec?`, `run?`: operations with checks of what they reach;
* `Layout.exec?_eq`: with the records laid out, no check of an operation fails;
* `InRange`: where the offsets of a ring may point;
* `run_in_range`: so it is after any operations on a new ring, and so it is between the evictions for a record.
-/

namespace Retrace

namespace Ring

/-! ### Operations with checks -/

/-- The ring with one more record, a copy of a patch. -/
def push? (r : Ring) (patch : Bytes) : Option (Ring × Except RingError Receipt) :=
  if r.patchLimit < patch.size then some (r, .error (.patchTooLarge patch.size r.patchLimit))
  else r.pushWith? id fun slot => (slot.overlay? 0 patch).map fun left => (left, .ok patch.size)

section Exec

variable {ε : Type} (refuse : RingError → ε)

/-- The ring after one operation, and its answer.  A fill may do anything with the slot it is given. -/
def exec? (r : Ring) : Op ε → Option (Ring × Answer ε)
  | .push patch => (r.push? patch).map fun (after, outcome) => (after, .pushed outcome)
  | .pushWith fill =>
    (r.pushWith? refuse fun slot => some (fill slot)).map fun (after, outcome) => (after, .filled outcome)
  | .newest => r.newest?.map fun found => (r, .newest found)
  | .dropNewest => r.dropNewest?.map fun (after, offset) => (after, .dropped offset)
  | .clear => some (r.clear, .cleared)

/-- The ring after some operations. -/
def run? (r : Ring) (ops : List (Op ε)) : Option Ring :=
  ops.foldlM (fun r op => (exec? refuse r op).map Prod.fst) r

end Exec

/-! ### No check fails -/

section Passed

variable {ε : Type} (refuse : RingError → ε) {r : Ring} {q : List (Nat × Bytes)}

theorem Layout.push?_eq (h : Layout r q) (patch : Bytes) : r.push? patch = some (r.push patch) := by
  unfold push? push
  split
  · rfl
  · next hfits =>
    have hslot : 0 + patch.size ≤ r.slot.size := by
      rw [h.size_slot]
      omega
    refine h.pushWith?_eq id ?_
    rw [Bytes.overlay?_eq hslot, Option.map_some]

/-- **With the records laid out, no check of an operation fails**, whatever its fill leaves in the slot. -/
theorem Layout.exec?_eq (h : Layout r q) (op : Op ε) : exec? refuse r op = some (exec refuse r op) := by
  cases op with
  | push patch => rw [exec?, h.push?_eq patch, Option.map_some, exec]
  | pushWith fill =>
    have hpush : r.pushWith? refuse (fun slot => some (fill slot)) = some (r.pushWith refuse fill) :=
      h.pushWith?_eq refuse rfl
    rw [exec?, hpush, Option.map_some, exec]
  | newest => rw [exec?, h.newest?_eq, Option.map_some, exec]
  | dropNewest => rw [exec?, h.dropNewest?_eq, Option.map_some, exec]
  | clear => rfl

theorem Layout.run?_eq (h : Layout r q) (ops : List (Op ε)) : run? refuse r ops = some (run refuse r ops) := by
  induction ops generalizing r q with
  | nil => rfl
  | cons op ops ih =>
    obtain ⟨evicted, q', -, hlayout, -⟩ := exec_follows refuse h op
    have hrest := ih hlayout
    rw [run?, List.foldlM_cons, h.exec?_eq refuse op]
    exact hrest

/-! ### The region keeps its size -/

theorem Layout.capacity_exec (h : Layout r q) (op : Op ε) : (exec refuse r op).1.capacity = r.capacity := by
  cases op with
  | push patch =>
    dsimp only [exec]
    by_cases hlarge : r.patchLimit < patch.size
    · rw [Ring.push, if_pos hlarge]
    · rw [h.push_ok (Nat.le_of_not_lt hlarge), capacity_link, h.capacity_filled]
  | pushWith fill =>
    dsimp only [exec]
    cases hfill : (fill r.slot).2 with
    | error e => rw [pushWith_error refuse hfill, h.capacity_filled]
    | ok size =>
      by_cases hlarge : r.patchLimit < size
      · rw [h.pushWith_over refuse hfill hlarge, h.capacity_filled]
      · rw [h.pushWith_ok refuse hfill (Nat.le_of_not_lt hlarge), capacity_link, h.capacity_filled]
  | dropNewest => exact r.capacity_dropNewest
  | newest | clear => rfl

theorem Layout.capacity_run (h : Layout r q) (ops : List (Op ε)) : (run refuse r ops).capacity = r.capacity := by
  induction ops generalizing r q with
  | nil => rfl
  | cons op ops ih =>
    obtain ⟨evicted, q', -, hlayout, -⟩ := exec_follows refuse h op
    exact (ih hlayout).trans (h.capacity_exec refuse op)

end Passed

/-! ### Offsets in range -/

/-- Where the offsets of a ring point, so that what starts there ends in the region, and which sums of its sizes are
sizes.  The next record goes to the head; the oldest record is what an eviction steps over. -/
structure InRange (r : Ring) : Prop where
  slot : r.head + headerSize + r.patchLimit ≤ r.capacity
  oldest : r.count ≠ 0 → r.tail + (headerSize + r.storedSize r.tail) ≤ r.capacity
  newest : r.count ≠ 0 → r.latest + headerSize + r.storedSize r.latest ≤ r.capacity
  distance : r.head ≤ r.tail + r.capacity
  around : r.tail + r.capacity ≤ maxSize
  twice : 2 * r.patchLimit ≤ maxSize

variable {r : Ring} {q : List (Nat × Bytes)}

theorem Placed.tail_le {g : Geometry} {tail head : Nat} (h : Placed g tail q head) (hhead : head ≤ g.capacity) :
    tail ≤ g.capacity := by
  cases h with
  | straight row => exact row.le.trans hhead
  | wrapped nonempty first inside short second behind => exact first.le.trans inside

/-- The offsets of a ring whose records are laid out are in range. -/
theorem Layout.inRange (h : Layout r q) : InRange r := by
  obtain ⟨-, hdouble, hlimit⟩ := h.capacity_bounds
  have hroom := h.room
  have htail : r.tail ≤ r.capacity := h.placed.tail_le (show r.head ≤ r.capacity by omega)
  have hstops (hcount : r.count ≠ 0) :
      r.storedStop r.tail ≤ r.capacity ∧ r.storedStop r.latest ≤ r.capacity := by
    have hq : q ≠ [] := by
      rintro rfl
      exact hcount h.count
    have hchained := h.chained hq
    exact ⟨hchained.inside _ (List.mem_of_mem_head? hchained.oldest),
      hchained.inside _ (List.mem_of_mem_getLast? hchained.newest)⟩
  refine ⟨?slot, ?oldest, ?newest, ?distance, ?around, ?twice⟩
  case slot => omega
  case oldest =>
    intro hcount
    have hstop := (hstops hcount).1
    unfold storedStop at hstop
    omega
  case newest => exact fun hcount => (hstops hcount).2
  case distance => omega
  case around => omega
  case twice => omega

theorem Layout.inRange_vacateUpTo (h : Layout r q) (n : Nat) : InRange (r.vacateUpTo n) := by
  obtain ⟨k, -, hvacate, -⟩ := r.vacateUpTo_stops n
  rw [hvacate]
  exact (h.without k).inRange

/-- **A ring stays in range.**  After any operations on a new ring, whose region can be allocated and has room for more
than the largest record, no check failed, none fails in the next operation, whatever its fill does, and none fails
in what tells how full the ring is.  The region has the size it was made with.  In particular, after each of the
evictions for the next record, if there are any: the slot from the head on lies in the region, and so does any record
that is put there; the oldest record and the newest lie in it, with the sizes that their headers have; and the sums
that a distance is computed with are not out of range, nor is twice the size of the largest patch. -/
theorem run_in_range {ε : Type} (refuse : RingError → ε) {capacity patchLimit : Nat}
    (hlimit : headerSize + patchLimit < capacity) (hsmall : capacity ≤ maxAllocation) :
    ∃ r₀, create capacity patchLimit = .ok r₀ ∧
      ∀ ops : List (Op ε),
        let r := run refuse r₀ ops
        run? refuse r₀ ops = some r ∧ (∀ op, exec? refuse r op = some (exec refuse r op)) ∧
          (r.freeBytes? = some r.freeBytes ∧ r.usedBytes? = some r.usedBytes ∧
            r.nearlyFull? = some r.nearlyFull) ∧
            r.capacity = capacity ∧ r.patchLimit = patchLimit ∧ ∀ n, InRange (r.vacateUpTo n) := by
  obtain ⟨r₀, hcreate, hpatchLimit, hlayout⟩ := layout_create hlimit hsmall
  obtain ⟨-, -, hshape⟩ := create_eq_ok hcreate
  have hcapacity : r₀.capacity = capacity := by
    rw [hshape]
    exact Bytes.size_zeros _
  refine ⟨r₀, hcreate, fun ops => ?_⟩
  intro r
  obtain ⟨hkept, q, hq⟩ := run_layout refuse hlayout ops
  refine ⟨hlayout.run?_eq refuse ops, hq.exec?_eq refuse, ⟨hq.freeBytes?_eq, hq.usedBytes?_eq, hq.nearlyFull?_eq⟩,
    (hlayout.capacity_run refuse ops).trans hcapacity, hkept.trans hpatchLimit, hq.inRange_vacateUpTo⟩

/-- Two records fill a region of 60 bytes, so that one more evicts.  Its fill writes beyond what it says that it
used. -/
theorem run_in_range_small :
    headerSize + 8 < 60 ∧ 60 ≤ maxAllocation ∧
      ∃ r₀, create 60 8 = .ok r₀ ∧
        let patch : Bytes := ⟨#[1, 2, 3, 4, 5, 6, 7, 8]⟩
        let scribble : Bytes → Bytes × Except RingError Nat := fun slot => (slot.overlay 0 patch, .ok 2)
        let r := run id r₀ [.push patch, .push patch]
        r.freeBytes < r.recordLimit ∧ exec? id r (.pushWith scribble) = some (exec id r (.pushWith scribble)) ∧
          InRange (r.vacateUpTo 1) := by
  have hlimit : headerSize + 8 < 60 := by decide
  have hsmall : 60 ≤ maxAllocation := by decide
  refine ⟨hlimit, hsmall, ?_⟩
  obtain ⟨r₀, hcreate, hrun⟩ := run_in_range (id : RingError → RingError) hlimit hsmall
  refine ⟨r₀, hcreate, ?_⟩
  intro patch scribble r
  obtain ⟨-, hexec, -, -, -, hrange⟩ := hrun [.push patch, .push patch]
  refine ⟨?_, hexec _, hrange 1⟩
  obtain rfl := Except.ok.inj (hcreate.symm.trans (show create 60 8 = .ok ⟨Bytes.zeros 60, 8, 0, 0, 0, 0⟩ from rfl))
  decide +kernel

end Ring

end Retrace
