import Retrace.Proofs.Checks
import Retrace.Proofs.Ring.Append

/-!
# A ring that checks what it reaches

The operations of a ring again, with checks of what they read and write in the region and of what they compute
with offsets.

* `Layout.newest?`, `Layout.dropNewest?`, `Layout.pushWith?`: with the records laid out, every check passes, and
  the operations give what they give without checks.
-/

namespace Retrace

/-! ### Offsets -/

namespace Geometry

/-- The place for the next record after one of `size` bytes at `pos`. -/
def after? (g : Geometry) (pos size : Nat) : Option Nat := do
  let stop ← add? pos size
  let left ← sub? g.capacity stop
  return if left < g.reserve then 0 else stop

/-- The bytes from one place forward to another. -/
def forward? (g : Geometry) (start stop : Nat) : Option Nat := do
  let reach ← add? stop g.capacity
  let ahead ← sub? reach start
  if g.capacity = 0 then none else some (ahead % g.capacity)

variable {g : Geometry}

theorem after?_eq {pos size : Nat} (h : pos + size ≤ g.capacity) (hsmall : g.capacity ≤ maxSize) :
    g.after? pos size = some (g.after pos size) := by
  have hstop : pos + size ≤ maxSize := Nat.le_trans h hsmall
  simp only [after?, after, add?_eq hstop, sub?_eq h, Option.bind_eq_bind, Option.bind_some, Option.pure_def]

theorem forward?_eq {start stop : Nat} (hstart : start ≤ g.capacity) (hpos : 0 < g.capacity)
    (hsmall : stop + g.capacity ≤ maxSize) : g.forward? start stop = some (g.forward start stop) := by
  have hreach : start ≤ stop + g.capacity := by omega
  simp only [forward?, forward, add?_eq hsmall, sub?_eq hreach, Option.bind_eq_bind, Option.bind_some,
    if_neg (Nat.ne_of_gt hpos)]

end Geometry

namespace Ring

/-! ### The operations with checks -/

/-- The number that a header has at an offset. -/
def number? (r : Ring) (offset : Nat) : Option Nat := do
  let stop ← add? offset 8
  let bytes ← r.region.slice? offset stop
  return Bytes.readLE bytes 0 8

/-- The size of the patch, as the header at `offset` has it. -/
def storedSize? (r : Ring) (offset : Nat) : Option Nat := do
  let second ← add? offset 8
  r.number? second

/-- The bytes from the head forward to the tail. -/
def freeBytes? (r : Ring) : Option Nat :=
  if r.count = 0 then some r.capacity else r.geometry.forward? r.head r.tail

/-- The bytes from the tail forward to the head. -/
def usedBytes? (r : Ring) : Option Nat := do
  let free ← r.freeBytes?
  sub? r.capacity free

/-- Whether two of the largest patches might not fit without eviction. -/
def nearlyFull? (r : Ring) : Option Bool := do
  let free ← r.freeBytes?
  let both ← mul? 2 r.patchLimit
  return decide (free ≤ both)

/-- The newest record's patch, and where the record starts. -/
def newest? (r : Ring) : Option (Option (Bytes × Nat)) :=
  if r.count = 0 then some none
  else do
    let size ← r.storedSize? r.latest
    let body ← add? r.latest headerSize
    let stop ← add? body size
    let patch ← r.region.slice? body stop
    return some (patch, r.latest)

/-- The ring without its newest record, and where that record started. -/
def dropNewest? (r : Ring) : Option (Ring × Option Nat) :=
  if r.count = 0 then some (r, none)
  else do
    let count ← sub? r.count 1
    if count = 0 then return (r.clear, some r.latest)
    else
      let previous ← r.number? r.latest
      return ({ r with latest := previous, head := r.latest, count }, some r.latest)

/-- The ring without its oldest record. -/
def dropOldest? (r : Ring) : Option Ring := do
  let size ← r.storedSize? r.tail
  let count ← sub? r.count 1
  if count = 0 then return r.clear
  else
    let whole ← add? headerSize size
    let tail ← r.geometry.after? r.tail whole
    return { r with tail, count }

/-- The ring after evictions until the largest record fits, with `n` records left to evict. -/
def vacateUpTo? (r : Ring) : Nat → Option Ring
  | 0 => some r
  | n + 1 => do
    let free ← r.freeBytes?
    if free < r.recordLimit then
      let rest ← r.dropOldest?
      rest.vacateUpTo? n
    else return r

/-- The ring with a record at its head whose patch, of `size` bytes, is in the region already. -/
def link? (r : Ring) (size : Nat) : Option Ring := do
  let region ← r.region.overlay? r.head (header r.previous size)
  let whole ← add? headerSize size
  let head ← r.geometry.after? r.head whole
  let count ← add? r.count 1
  return { r with region, head, latest := r.head, count }

/-- The ring with one more record, whose patch a fill writes that checks what it reaches. -/
def pushWith? {ε : Type} (r : Ring) (refuse : RingError → ε)
    (fill : Bytes → Option (Bytes × Except ε Nat)) : Option (Ring × Except ε Receipt) := do
  let room ← r.vacateUpTo? r.count
  let evicted ← sub? r.count room.count
  let body ← add? room.head headerSize
  let stop ← add? body room.patchLimit
  let slot ← room.region.slice? body stop
  let (left, outcome) ← fill slot
  let filled := { room with region := room.region.overlay body (left.extract 0 room.patchLimit) }
  match outcome with
  | .error e => return (filled, .error e)
  | .ok size =>
    if room.patchLimit < size then
      return (filled, .error (refuse (.patchTooLarge size room.patchLimit)))
    else
      let linked ← filled.link? size
      return (linked, .ok ⟨room.head, size, evicted⟩)

variable {r : Ring} {q : List (Nat × Bytes)}

/-! ### Headers -/

theorem number?_eq {offset : Nat} (hin : offset + 8 ≤ r.capacity) (hsmall : r.capacity ≤ maxSize) :
    r.number? offset = some (r.region.readLE offset 8) := by
  have hstop : offset + 8 ≤ maxSize := Nat.le_trans hin hsmall
  have hslice : r.region.slice? offset (offset + 8) = some (r.region.extract offset (offset + 8)) :=
    Bytes.slice?_eq (Nat.le_add_right _ _) hin
  simp only [number?, add?_eq hstop, hslice, Option.bind_eq_bind, Option.bind_some, Option.pure_def,
    Bytes.readLE_extract (Nat.le_refl (offset + 8))]

theorem storedSize?_eq {offset : Nat} (hin : offset + headerSize ≤ r.capacity)
    (hsmall : r.capacity ≤ maxSize) : r.storedSize? offset = some (r.storedSize offset) := by
  have hheader : headerSize = 16 := rfl
  have hsecond : offset + 8 ≤ maxSize := by omega
  simp only [storedSize?, add?_eq hsecond, Option.bind_eq_bind, Option.bind_some]
  exact number?_eq (by omega) hsmall

/-! ### Occupancy -/

section Layout

variable (h : Layout r q)
include h

theorem Layout.capacity_bounds :
    0 < r.capacity ∧ r.capacity + r.capacity ≤ maxSize ∧ r.patchLimit + headerSize < r.capacity := by
  have hmax : maxAllocation + maxAllocation ≤ maxSize := by decide
  have hsmall := h.small
  have hlimit := h.limit
  omega

theorem Layout.freeBytes?_eq : r.freeBytes? = some r.freeBytes := by
  obtain ⟨hpos, hdouble, -⟩ := h.capacity_bounds
  unfold freeBytes? freeBytes
  by_cases hcount : r.count = 0
  · rw [if_pos hcount, if_pos hcount]
  · have hq : q ≠ [] := by
      rintro rfl
      exact hcount h.count
    have htail := h.tail_inside hq
    have hhead := h.room
    have hcapacity : r.geometry.capacity = r.capacity := rfl
    rw [if_neg hcount, if_neg hcount]
    exact Geometry.forward?_eq (by omega) (by omega) (by omega)

theorem Layout.usedBytes?_eq : r.usedBytes? = some r.usedBytes := by
  simp only [usedBytes?, usedBytes, h.freeBytes?_eq, sub?_eq h.freeBytes_le, Option.bind_eq_bind,
    Option.bind_some]

theorem Layout.nearlyFull?_eq : r.nearlyFull? = some r.nearlyFull := by
  obtain ⟨-, hdouble, hlimit⟩ := h.capacity_bounds
  have htwice : 2 * r.patchLimit ≤ maxSize := by omega
  simp only [nearlyFull?, nearlyFull, h.freeBytes?_eq, mul?_eq htwice, Option.bind_eq_bind, Option.bind_some,
    Option.pure_def]

end Layout

/-! ### Records -/

/-- A record that the region has is inside it. -/
theorem Holds.stop_le {record : Nat × Bytes} (hheld : Holds r record) : stop record ≤ r.capacity := by
  have hinside := hheld.inside
  have hfits := hheld.fits
  unfold stop
  omega

theorem Holds.storedSize?_eq {record : Nat × Bytes} (hheld : Holds r record) (hsmall : r.capacity ≤ maxSize) :
    r.storedSize? record.1 = some record.2.size := by
  have hinside := hheld.inside
  rw [← hheld.size]
  exact Ring.storedSize?_eq (by omega) hsmall

theorem Layout.newest?_eq (h : Layout r q) : r.newest? = some r.newest := by
  rcases List.eq_nil_or_concat' q with rfl | ⟨older, record, rfl⟩
  · have hcount : r.count = 0 := h.count
    rw [newest?, if_pos hcount, Ring.newest, if_pos hcount]
  · obtain ⟨-, hdouble, -⟩ := h.capacity_bounds
    have hcount : r.count ≠ 0 := by simp [h.count]
    have hlatest : r.latest = record.1 := h.latest record (by simp)
    have hheld := h.held record (by simp)
    have hstop : record.1 + headerSize + record.2.size ≤ r.capacity := hheld.stop_le
    have hbody : record.1 + headerSize ≤ maxSize := by omega
    have hend : record.1 + headerSize + record.2.size ≤ maxSize := by omega
    have hslice : r.region.slice? (record.1 + headerSize) (record.1 + headerSize + record.2.size) =
        some (r.patchAt record.1) := by
      rw [patchAt, hheld.size]
      exact Bytes.slice?_eq (Nat.le_add_right _ _) hstop
    rw [newest?, if_neg hcount, Ring.newest, if_neg hcount, hlatest]
    simp only [hheld.storedSize?_eq (by omega), add?_eq hbody, add?_eq hend, hslice, Option.bind_eq_bind,
      Option.bind_some, Option.pure_def]

theorem Layout.dropNewest?_eq (h : Layout r q) : r.dropNewest? = some r.dropNewest := by
  rcases List.eq_nil_or_concat' q with rfl | ⟨older, record, rfl⟩
  · have hcount : r.count = 0 := h.count
    rw [dropNewest?, if_pos hcount, Ring.dropNewest, if_pos hcount]
  · obtain ⟨-, hdouble, -⟩ := h.capacity_bounds
    have hcount : r.count ≠ 0 := by simp [h.count]
    have hlatest : r.latest = record.1 := h.latest record (by simp)
    have hinside := (h.held record (by simp)).inside
    have hheader : headerSize = 16 := rfl
    have hprevious : r.number? r.latest = some (r.storedPrevious r.latest) :=
      number?_eq (by omega) (by omega)
    rw [dropNewest?, if_neg hcount, Ring.dropNewest, if_neg hcount]
    simp only [sub?_eq (Nat.one_le_iff_ne_zero.mpr hcount), hprevious, Option.bind_eq_bind, Option.bind_some,
      Option.pure_def]
    by_cases hone : r.count = 1
    · rw [if_pos hone, if_pos (by omega)]
    · rw [if_neg hone, if_neg (by omega)]

theorem Layout.dropOldest?_eq (h : Layout r q) (hq : q ≠ []) : r.dropOldest? = some r.dropOldest := by
  obtain ⟨-, hdouble, -⟩ := h.capacity_bounds
  obtain ⟨oldest, rest, rfl⟩ := List.exists_cons_of_ne_nil hq
  have hcount : r.count = rest.length + 1 := h.count
  have htail : oldest.1 = r.tail := h.placed.first_eq
  have hheld := h.held oldest (by simp)
  have hstop : oldest.1 + headerSize + oldest.2.size ≤ r.capacity := hheld.stop_le
  have hsize : r.storedSize? r.tail = some (r.storedSize r.tail) := by
    rw [← htail, hheld.storedSize?_eq (by omega), hheld.size]
  have hstored : r.storedSize r.tail = oldest.2.size := by rw [← htail, hheld.size]
  have hwhole : headerSize + r.storedSize r.tail ≤ maxSize := by omega
  have hnext : r.geometry.after? r.tail (headerSize + r.storedSize r.tail) = some (r.successor r.tail) :=
    Geometry.after?_eq (show r.tail + (headerSize + r.storedSize r.tail) ≤ r.capacity by omega)
      (show r.capacity ≤ maxSize by omega)
  rw [dropOldest?, Ring.dropOldest]
  simp only [hsize, sub?_eq (show 1 ≤ r.count by omega), add?_eq hwhole, hnext, Option.bind_eq_bind,
    Option.bind_some, Option.pure_def]
  by_cases hone : r.count ≤ 1
  · rw [if_pos hone, if_pos (by omega)]
  · rw [if_neg hone, if_neg (by omega)]

theorem Layout.vacateUpTo?_eq (h : Layout r q) : r.vacateUpTo? q.length = some (r.vacateUpTo q.length) := by
  induction hn : q.length generalizing r q with
  | zero => rfl
  | succ n ih =>
    have hq : q ≠ [] := by
      rintro rfl
      contradiction
    have htail : q.tail.length = n := by
      rw [List.length_tail, hn]
      rfl
    rw [vacateUpTo?, Ring.vacateUpTo, h.freeBytes?_eq]
    simp only [h.dropOldest?_eq hq, ih h.dropOldest htail, Option.bind_eq_bind, Option.bind_some, Option.pure_def]
    split <;> rfl

theorem Layout.vacate?_eq (h : Layout r q) : r.vacateUpTo? r.count = some r.vacate := by
  rw [Ring.vacate, h.count]
  exact h.vacateUpTo?_eq

/-! ### One more record -/

theorem Row.length_le {a c : Nat} (h : Row a q c) : a + q.length ≤ c := by
  have hheader : headerSize = 16 := rfl
  induction h with
  | nil => exact Nat.le_refl _
  | cons start after ih =>
    unfold stop at ih
    rw [List.length_cons]
    omega

/-- There are no more records than bytes. -/
theorem Layout.count_le (h : Layout r q) : r.count ≤ r.capacity := by
  have hroom := h.room
  have hcapacity : r.geometry.capacity = r.capacity := rfl
  rw [h.count]
  cases h.placed with
  | straight row =>
    have hlength := row.length_le
    omega
  | wrapped nonempty first inside short second behind =>
    have hfirst := first.length_le
    have hsecond := second.length_le
    rw [List.length_append]
    omega

theorem Layout.link?_eq (h : Layout r q) {size : Nat} (hsize : size ≤ r.patchLimit) :
    r.link? size = some (r.link size) := by
  obtain ⟨-, hdouble, hlimit⟩ := h.capacity_bounds
  have hroom := h.room
  have hcount := h.count_le
  have hregion : r.region.overlay? r.head (header r.previous size) =
      some (r.region.overlay r.head (header r.previous size)) :=
    Bytes.overlay?_eq (h.header_inside size)
  have hwhole : headerSize + size ≤ maxSize := by omega
  have hnext : r.geometry.after? r.head (headerSize + size) = some (r.geometry.after r.head (headerSize + size)) :=
    Geometry.after?_eq (show r.head + (headerSize + size) ≤ r.capacity by omega)
      (show r.capacity ≤ maxSize by omega)
  have hmore : r.count + 1 ≤ maxSize := by omega
  rw [link_eq]
  simp only [link?, hregion, add?_eq hwhole, hnext, add?_eq hmore, Option.bind_eq_bind, Option.bind_some,
    Option.pure_def]

/-- With the records laid out, every check passes when one is added, if it does in the fill. -/
theorem Layout.pushWith?_eq {ε : Type} (h : Layout r q) (refuse : RingError → ε)
    {fill : Bytes → Bytes × Except ε Nat} {fill? : Bytes → Option (Bytes × Except ε Nat)}
    (hfill : fill? r.slot = some (fill r.slot)) :
    r.pushWith? refuse fill? = some (r.pushWith refuse fill) := by
  obtain ⟨-, hdouble, hlimit⟩ := h.vacate.capacity_bounds
  have hroom := h.vacate.room
  have hbody : r.vacate.head + headerSize ≤ maxSize := by omega
  have hstop : r.vacate.head + headerSize + r.vacate.patchLimit ≤ maxSize := by omega
  have hslot : r.vacate.region.slice? (r.vacate.head + headerSize)
      (r.vacate.head + headerSize + r.vacate.patchLimit) = some r.slot :=
    Bytes.slice?_eq (Nat.le_add_right _ _)
      (show r.vacate.head + headerSize + r.vacate.patchLimit ≤ r.vacate.capacity by omega)
  rw [pushWith_eq]
  simp only [pushWith?, h.vacate?_eq, sub?_eq r.count_vacate_le, add?_eq hbody, add?_eq hstop, hslot, hfill,
    Option.bind_eq_bind, Option.bind_some, Option.pure_def]
  cases (fill r.slot).2 with
  | error e => rfl
  | ok size =>
    dsimp only
    split
    · rfl
    · next hfits =>
      have hlinked : (r.filled (fill r.slot).1).link? size = some ((r.filled (fill r.slot).1).link size) :=
        (h.filled _).link?_eq (Nat.le_of_not_lt hfits)
      exact congrArg (Option.bind · _) hlinked

end Ring

end Retrace
