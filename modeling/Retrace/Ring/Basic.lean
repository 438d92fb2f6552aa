import Retrace.Bytes
import Retrace.Ring.Geometry

/-!
# A ring of records

Patches are kept in one byte region, each behind a header with the offset of the record before it
and its own size.  The newest record can be read and dropped; the oldest ones are evicted when the
next record might not fit.  The live records lie between `tail` and `head`, and all from `head`
forward to `tail` is free.

* `Ring.count_dropOldest`, `Ring.count_vacate_le`: making room only drops records;
* `Ring.records`: the live records, from the oldest to the newest.
-/

namespace Retrace

/-- Why a ring was not made, or a patch not stored. -/
inductive RingError where
  | capacityTooSmall (capacity minimum : Nat)
  | allocationFailed (bytes : Nat)
  | patchTooLarge (size limit : Nat)
  deriving DecidableEq, Repr

/-- The text of an error. -/
def RingError.message : RingError → String
  | .capacityTooSmall capacity minimum =>
    s!"arena capacity too small: {capacity} bytes, need more than {minimum} bytes"
  | .allocationFailed bytes => s!"failed to allocate {bytes} byte arena"
  | .patchTooLarge size limit => s!"patch of {size} bytes exceeds maximum of {limit} bytes"

/-- A region with records for patches of up to `patchLimit` bytes. -/
structure Ring where
  region : Bytes
  patchLimit : Nat
  /-- Where the next record starts. -/
  head : Nat
  /-- Where the oldest record starts. -/
  tail : Nat
  /-- Where the newest record starts. -/
  latest : Nat
  /-- The number of live records. -/
  count : Nat

namespace Ring

/-- The bytes of a record's header: two 64-bit numbers. -/
def headerSize : Nat := 16

/-- The size of a record with the largest patch. -/
def recordSpace (patchLimit : Nat) : Nat := satAdd headerSize patchLimit

/-- An empty ring over a region of `capacity` bytes, which must be more than the largest record. -/
def create (capacity patchLimit : Nat) : Except RingError Ring :=
  if capacity ≤ recordSpace patchLimit then
    .error (.capacityTooSmall capacity (recordSpace patchLimit))
  else if maxAllocation < capacity then .error (.allocationFailed capacity)
  else .ok ⟨Bytes.zeros capacity, patchLimit, 0, 0, 0, 0⟩

/-! ## Occupancy -/

/-- The size of the region. -/
def capacity (r : Ring) : Nat := r.region.size

/-- The size of a record with the largest patch. -/
def recordLimit (r : Ring) : Nat := recordSpace r.patchLimit

/-- Where records start in this ring. -/
def geometry (r : Ring) : Geometry := ⟨r.capacity, r.recordLimit⟩

/-- The bytes from the head forward to the tail, with what is left unused at the region's end. -/
def freeBytes (r : Ring) : Nat :=
  if r.count = 0 then r.capacity else r.geometry.forward r.head r.tail

/-- The bytes from the tail forward to the head. -/
def usedBytes (r : Ring) : Nat := r.capacity - r.freeBytes

/-- Whether two of the largest patches might not fit without eviction. -/
def nearlyFull (r : Ring) : Bool := decide (r.freeBytes ≤ 2 * r.patchLimit)

/-! ## Records -/

/-- The offset of the record before, as the header at `offset` has it. -/
def storedPrevious (r : Ring) (offset : Nat) : Nat := r.region.readLE offset 8

/-- The size of the patch, as the header at `offset` has it. -/
def storedSize (r : Ring) (offset : Nat) : Nat := r.region.readLE (offset + 8) 8

/-- The patch of the record at `offset`. -/
def patchAt (r : Ring) (offset : Nat) : Bytes :=
  let body := offset + headerSize
  r.region.extract body (body + r.storedSize offset)

/-- The place for the record after the one at `offset`. -/
def successor (r : Ring) (offset : Nat) : Nat :=
  r.geometry.after offset (headerSize + r.storedSize offset)

/-- The offsets and patches of `n` records in a row, from the one at `offset` on. -/
def recordsFrom (r : Ring) (offset : Nat) : Nat → List (Nat × Bytes)
  | 0 => []
  | n + 1 => (offset, r.patchAt offset) :: recordsFrom r (r.successor offset) n

/-- The offsets and patches of the live records, the oldest first. -/
def records (r : Ring) : List (Nat × Bytes) := r.recordsFrom r.tail r.count

/-! ## Dropping records -/

/-- The ring without records.  The region keeps its bytes. -/
def clear (r : Ring) : Ring := { r with head := 0, tail := 0, latest := 0, count := 0 }

/-- The ring without its oldest record. -/
def dropOldest (r : Ring) : Ring :=
  if r.count ≤ 1 then r.clear
  else { r with tail := r.successor r.tail, count := r.count - 1 }

/-- The ring after evictions from the tail, at most `n` of them, until the largest record fits. -/
def vacateUpTo (r : Ring) : Nat → Ring
  | 0 => r
  | n + 1 => if r.freeBytes < r.recordLimit then vacateUpTo r.dropOldest n else r

/-- The ring after evictions from the tail until the largest record fits or no record is left. -/
def vacate (r : Ring) : Ring := r.vacateUpTo r.count

/-- The ring without its newest record, and where that record started.  The next record takes its
place. -/
def dropNewest (r : Ring) : Ring × Option Nat :=
  if r.count = 0 then (r, none)
  else if r.count = 1 then (r.clear, some r.latest)
  else
    ({ r with latest := r.storedPrevious r.latest, head := r.latest, count := r.count - 1 },
      some r.latest)

/-- The newest record's patch, and where the record starts. -/
def newest (r : Ring) : Option (Bytes × Nat) :=
  if r.count = 0 then none else some (r.patchAt r.latest, r.latest)

/-! ## Appending records -/

/-- Where a record was stored, the size of its patch, and how many records were evicted for it. -/
structure Receipt where
  offset : Nat
  size : Nat
  evicted : Nat
  deriving DecidableEq, Repr

/-- The ring with a record at its head whose patch, of `size` bytes, is in the region already. -/
def link (r : Ring) (size : Nat) : Ring :=
  let previous := if r.count = 0 then r.head else r.latest
  let header := (Bytes.empty.pushLE previous 8).pushLE size 8
  { r with
    region := r.region.overlay r.head header
    head := r.geometry.after r.head (headerSize + size)
    latest := r.head
    count := r.count + 1 }

/-- The ring with one more record, whose patch `fill` writes.  `fill` takes the bytes of a slot of
`patchLimit` bytes, as the region holds them, and gives them as they shall be, with the size of the
patch or an error.  The slot is written back in every case; with an error, or a size beyond the
slot, no record is added, but the evictions stand. -/
def pushWith {ε : Type} (r : Ring) (refuse : RingError → ε)
    (fill : Bytes → Bytes × Except ε Nat) : Ring × Except ε Receipt :=
  let before := r.count
  let room := r.vacate
  let offset := room.head
  let limit := room.patchLimit
  let evicted := before - room.count
  let body := offset + headerSize
  let (slot, outcome) := fill (room.region.extract body (body + limit))
  let filled := { room with region := room.region.overlay body (slot.extract 0 limit) }
  match outcome with
  | .error e => (filled, .error e)
  | .ok size =>
    if limit < size then (filled, .error (refuse (.patchTooLarge size limit)))
    else (filled.link size, .ok ⟨offset, size, evicted⟩)

/-- The ring with one more record.  A patch beyond the largest size is refused before anything is
evicted. -/
def push (r : Ring) (patch : Bytes) : Ring × Except RingError Receipt :=
  if r.patchLimit < patch.size then (r, .error (.patchTooLarge patch.size r.patchLimit))
  else r.pushWith id fun slot => (slot.overlay 0 patch, .ok patch.size)

/-! ## Counts -/

theorem count_dropOldest (r : Ring) : r.dropOldest.count = r.count - 1 := by
  unfold dropOldest
  split
  · simp only [clear]; omega
  · rfl

theorem count_vacateUpTo_le (r : Ring) (n : Nat) : (r.vacateUpTo n).count ≤ r.count := by
  induction n generalizing r with
  | zero => exact Nat.le_refl _
  | succ n ih =>
    rw [vacateUpTo]
    split
    · have h1 := ih r.dropOldest
      have h2 := r.count_dropOldest
      omega
    · exact Nat.le_refl _

theorem count_vacate_le (r : Ring) : r.vacate.count ≤ r.count := r.count_vacateUpTo_le _

/-! ## Text -/

/-- The sizes and offsets of a ring as text. -/
def render (r : Ring) : String :=
  "RingLog \x7b capacity: " ++ toString r.capacity ++ ", max_patch: " ++ toString r.patchLimit ++
    ", head: " ++ toString r.head ++ ", tail: " ++ toString r.tail ++
    ", latest: " ++ toString r.latest ++ ", len: " ++ toString r.count ++ " \x7d"

end Ring

end Retrace
