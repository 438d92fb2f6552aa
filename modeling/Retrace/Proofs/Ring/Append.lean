import Retrace.Proofs.Ring.Moves

/-!
# How a record is added to a ring

The place at the head overlaps no live record once there is room for the largest one, so what is written
there leaves the layout as it is, and the header adds the record to it.

* `Layout.filled`: the fill changes no live record, whatever it writes into its slot;
* `Layout.pushWith_ok`: what is done and answered where the fill succeeds within its slot;
* `Layout.link_filled`: then a record is added behind those that were not evicted.
-/

namespace Retrace

namespace Ring

variable {r : Ring} {q : List (Nat × Bytes)}

/-! ### The slot -/

/-- The offset of the next record, once room was made for it. -/
def place (r : Ring) : Nat := r.vacate.head

/-- The slot that is given to be filled. -/
def slot (r : Ring) : Bytes :=
  r.vacate.region.extract (r.place + headerSize) (r.place + headerSize + r.vacate.patchLimit)

/-- The ring with room made and these bytes in its slot. -/
def filled (r : Ring) (left : Bytes) : Ring :=
  { r.vacate with
    region := r.vacate.region.overlay (r.place + headerSize) (left.extract 0 r.vacate.patchLimit) }

theorem pushWith_eq {ε : Type} (r : Ring) (refuse : RingError → ε)
    (fill : Bytes → Bytes × Except ε Nat) :
    r.pushWith refuse fill =
      match (fill r.slot).2 with
      | .error e => (r.filled (fill r.slot).1, .error e)
      | .ok size =>
        if r.vacate.patchLimit < size then
          (r.filled (fill r.slot).1, .error (refuse (.patchTooLarge size r.vacate.patchLimit)))
        else ((r.filled (fill r.slot).1).link size, .ok ⟨r.place, size, r.evictions⟩) := rfl

/-! ### Writing at the head -/

/-- What is written within the place of the next record leaves all live records as they are. -/
theorem Layout.sameAt (h : Layout r q) (hfree : ¬ r.freeBytes < r.recordLimit) {pos : Nat} {src : Bytes}
    (hpos : r.head ≤ pos) (hsrc : pos + src.size ≤ r.head + (headerSize + r.patchLimit)) :
    ∀ record ∈ q, SameAt (r.region.overlay pos src) r.region record := by
  intro record hr i hi hstop
  have hapart := h.apart hfree hr
  rw [Bytes.byteAt_overlay, if_neg (by omega)]

theorem Layout.overlay (h : Layout r q) (hfree : ¬ r.freeBytes < r.recordLimit) {pos : Nat} {src : Bytes}
    (hpos : r.head ≤ pos) (hsrc : pos + src.size ≤ r.head + (headerSize + r.patchLimit)) :
    Layout { r with region := r.region.overlay pos src } q :=
  h.congr (Bytes.size_overlay _ _ _) (h.sameAt hfree hpos hsrc)

theorem size_extract_le (left : Bytes) (n : Nat) : (left.extract 0 n).size ≤ n := by
  rw [ByteArray.size_extract]
  omega

theorem Layout.filled (h : Layout r q) (left : Bytes) :
    Layout (r.filled left) (q.drop r.evictions) := by
  have hsize := size_extract_le left r.vacate.patchLimit
  unfold Ring.filled place
  exact h.vacate.overlay h.not_full (Nat.le_add_right _ _) (by omega)

theorem freeBytes_congr {region : Bytes} (h : region.size = r.region.size) :
    freeBytes { r with region } = r.freeBytes := by
  unfold freeBytes geometry capacity
  rw [h]
  rfl

theorem Layout.capacity_filled (h : Layout r q) (left : Bytes) : (r.filled left).capacity = r.capacity := by
  unfold Ring.filled capacity
  rw [Bytes.size_overlay, h.region_vacate]

theorem Layout.not_full_filled (h : Layout r q) (left : Bytes) :
    ¬ (r.filled left).freeBytes < (r.filled left).recordLimit := by
  unfold Ring.filled
  rw [freeBytes_congr (Bytes.size_overlay _ _ _)]
  exact h.not_full

theorem Layout.sameAt_filled (h : Layout r q) (left : Bytes) :
    ∀ record ∈ q.drop r.evictions, SameAt (r.filled left).region r.region record := by
  have hsize := size_extract_le left r.vacate.patchLimit
  rw [← h.region_vacate]
  unfold Ring.filled place
  exact h.vacate.sameAt h.not_full (Nat.le_add_right _ _) (by omega)

/-! ### The header -/

/-- The bytes of a header. -/
def header (previous size : Nat) : Bytes := (Bytes.empty.pushLE previous 8).pushLE size 8

theorem size_header (previous size : Nat) : (header previous size).size = headerSize := by
  unfold header
  rw [Bytes.size_pushLE, Bytes.size_pushLE]
  rfl

theorem readLE_header {previous size : Nat} (hprevious : previous ≤ maxSize) (hsize : size ≤ maxSize) :
    (header previous size).readLE 0 8 = previous ∧ (header previous size).readLE 8 8 = size := by
  have hcount : Bytes.valueCount 8 = maxSize + 1 := by decide
  have hfirst : (Bytes.empty.pushLE previous 8).size = 8 := Bytes.size_pushLE _ _ _
  have hsecond := Bytes.readLE_pushLE_of_lt (Bytes.empty.pushLE previous 8)
    (show size < Bytes.valueCount 8 by omega)
  unfold header
  constructor
  · rw [Bytes.readLE_pushLE_left (by omega)]
    exact Bytes.readLE_pushLE_of_lt Bytes.empty (by omega)
  · rwa [hfirst] at hsecond

/-- The offset that the next record's header has as the record before. -/
def previous (r : Ring) : Nat := if r.count = 0 then r.head else r.latest

theorem link_eq (r : Ring) (size : Nat) :
    r.link size =
      { r with
        region := r.region.overlay r.head (header r.previous size)
        head := r.geometry.after r.head (headerSize + size)
        latest := r.head
        count := r.count + 1 } := rfl

theorem Layout.previous_le (h : Layout r q) : r.previous ≤ maxSize := by
  have hmax : maxAllocation ≤ maxSize := by decide
  have hsmall := h.small
  unfold previous
  split
  · have := h.room
    omega
  · next hcount =>
    rcases List.eq_nil_or_concat' q with rfl | ⟨older, last, rfl⟩
    · exact absurd h.count hcount
    · have hlast := h.held last (by simp)
      have hlatest := h.latest last (by simp)
      have := hlast.inside
      omega

/-- The record that this header makes of the bytes behind it. -/
def added (r : Ring) (size : Nat) : Nat × Bytes :=
  (r.head, r.region.extract (r.head + headerSize) (r.head + headerSize + size))

theorem capacity_link (r : Ring) (size : Nat) : (r.link size).capacity = r.capacity :=
  Bytes.size_overlay _ _ _

theorem geometry_link (r : Ring) (size : Nat) : (r.link size).geometry = r.geometry := by
  unfold geometry
  rw [capacity_link]
  rfl

/-- Wherever the next record starts, the largest one fits there. -/
theorem Layout.room_after (h : Layout r q) (size : Nat) :
    r.geometry.after r.head size + (headerSize + r.patchLimit) ≤ r.capacity := by
  have hlimit := h.limit
  have hreserve := h.reserve_eq
  have hheader : headerSize = 16 := rfl
  have hcapacity : r.geometry.capacity = r.capacity := rfl
  have hafter := Geometry.reserve_le_after (show r.geometry.reserve ≤ r.geometry.capacity by omega)
    r.head size
  omega

section Link

variable (h : Layout r q) {size : Nat} (hsize : size ≤ r.patchLimit)
include h

theorem Layout.header_inside (size : Nat) : r.head + (header r.previous size).size ≤ r.region.size := by
  have hroom := h.room
  have hregion : r.region.size = r.capacity := rfl
  rw [size_header]
  omega

include hsize

theorem Layout.stored_link :
    (r.link size).storedPrevious r.head = r.previous ∧ (r.link size).storedSize r.head = size := by
  have hmax : maxAllocation ≤ maxSize := by decide
  have hsmall := h.small
  have hlimit := h.limit
  have hinside := h.header_inside size
  have hheader : (header r.previous size).size = 16 := size_header _ _
  obtain ⟨hprevious, hstored⟩ := readLE_header h.previous_le (show size ≤ maxSize by omega)
  have hread {i : Nat} (hi : i + 8 ≤ 16) :
      (r.region.overlay r.head (header r.previous size)).readLE (r.head + i) 8 =
        (header r.previous size).readLE i 8 :=
    Bytes.readLE_overlay (by omega) hinside
  exact ⟨(hread (show 0 + 8 ≤ 16 by omega)).trans hprevious,
    (hread (show 8 + 8 ≤ 16 by omega)).trans hstored⟩

theorem Layout.size_added : (r.added size).2.size = size := by
  have hroom := h.room
  have hregion : r.region.size = r.capacity := rfl
  unfold added
  rw [ByteArray.size_extract]
  omega

theorem Layout.holds_link : Holds (r.link size) (r.added size) := by
  have hstored : (r.link size).storedSize (r.added size).1 = size := (h.stored_link hsize).2
  have hpatch := h.size_added hsize
  have hheader := size_header r.previous size
  refine ⟨hstored.trans hpatch.symm, ?_, ?_, ?_⟩
  · unfold patchAt
    rw [hstored, link_eq]
    unfold added
    refine Bytes.ext_byteAt ?_ fun i hi => ?_
    · simp only [ByteArray.size_extract, Bytes.size_overlay]
    · simp only [ByteArray.size_extract, Bytes.size_overlay] at hi
      rw [Bytes.byteAt_extract, Bytes.byteAt_extract, Bytes.byteAt_overlay, if_pos (by omega),
        if_neg (by omega), if_pos (by omega)]
  · rw [hpatch]
    exact hsize
  · rw [capacity_link]
    exact h.room

theorem Layout.placed_link (hfree : ¬ r.freeBytes < r.recordLimit) :
    Placed (r.link size).geometry r.tail (q ++ [r.added size]) (r.link size).head := by
  have hreserve := h.reserve_eq
  have hroom := h.room
  have hpatch := h.size_added hsize
  have htail : q ≠ [] → r.tail + r.geometry.reserve ≤ r.geometry.capacity := by
    rw [hreserve]
    exact h.tail_inside
  have hfits : headerSize + (r.added size).2.size ≤ r.geometry.reserve := by omega
  have hplaced := h.placed.snoc (h.vacant hfree) htail (by rw [hreserve]; exact hroom) hfits rfl
  rw [hpatch] at hplaced
  rw [geometry_link]
  exact hplaced

theorem Layout.chain_link (hlayout : Layout { r with region := (r.link size).region } q) :
    (q ++ [r.added size]).IsChain
      fun older newer => (r.link size).storedPrevious newer.1 = older.1 := by
  refine List.isChain_append.mpr ⟨hlayout.linked, .singleton _, ?_⟩
  intro older holder newer hnewer
  obtain rfl : r.added size = newer := by simpa using hnewer
  have hcount : r.count ≠ 0 := by
    rw [h.count]
    intro hnil
    rw [List.eq_nil_of_length_eq_zero hnil] at holder
    cases holder
  have hprevious : r.previous = r.latest := if_neg hcount
  exact (h.stored_link hsize).1.trans (hprevious.trans (h.latest older holder))

/-- **A record is added.**  Its patch is what the slot behind the header has. -/
theorem Layout.link (hfree : ¬ r.freeBytes < r.recordLimit) :
    Layout (r.link size) (q ++ [r.added size]) := by
  have hheader := size_header r.previous size
  have hlayout : Layout { r with region := (r.link size).region } q := by
    rw [link_eq]
    exact h.overlay hfree (Nat.le_refl _) (by omega)
  refine ⟨hlayout.limit, hlayout.small, ?_, h.placed_link hsize hfree, ?_, ?_,
    h.chain_link hsize hlayout, ?_⟩
  · show r.count + 1 = _
    simp [h.count]
  · rw [capacity_link]
    exact h.room_after _
  · intro record hr
    rcases List.mem_append.mp hr with hold | hnew
    · exact (hlayout.held record hold).congr rfl rfl (.refl _ _)
    · obtain rfl := List.mem_singleton.mp hnew
      exact h.holds_link hsize
  · intro record hr
    obtain rfl : r.added size = record := by simpa using hr
    rfl

end Link

theorem Layout.sameAt_link (h : Layout r q) (hfree : ¬ r.freeBytes < r.recordLimit) (size : Nat) :
    ∀ record ∈ q, SameAt (r.link size).region r.region record := by
  have hheader := size_header r.previous size
  rw [link_eq]
  exact h.sameAt hfree (Nat.le_refl _) (by omega)

/-! ### The outcome -/

section Outcome

variable {ε : Type} (refuse : RingError → ε) {fill : Bytes → Bytes × Except ε Nat}

theorem Layout.size_slot (h : Layout r q) : r.slot.size = r.patchLimit := by
  have hroom := h.vacate.room
  have hregion : r.vacate.region.size = r.vacate.capacity := rfl
  have hplace : r.place = r.vacate.head := rfl
  unfold slot
  rw [ByteArray.size_extract, ← h.patchLimit_vacate]
  omega

theorem pushWith_error {e : ε} (hfill : (fill r.slot).2 = .error e) :
    r.pushWith refuse fill = (r.filled (fill r.slot).1, .error e) := by
  rw [pushWith_eq, hfill]

theorem Layout.pushWith_over (h : Layout r q) {n : Nat} (hfill : (fill r.slot).2 = .ok n)
    (hn : r.patchLimit < n) :
    r.pushWith refuse fill =
      (r.filled (fill r.slot).1, .error (refuse (.patchTooLarge n r.patchLimit))) := by
  rw [pushWith_eq, hfill, h.patchLimit_vacate]
  exact if_pos hn

theorem Layout.pushWith_ok (h : Layout r q) {n : Nat} (hfill : (fill r.slot).2 = .ok n)
    (hn : n ≤ r.patchLimit) :
    r.pushWith refuse fill = ((r.filled (fill r.slot).1).link n, .ok ⟨r.place, n, r.evictions⟩) := by
  rw [pushWith_eq, hfill, h.patchLimit_vacate]
  exact if_neg (Nat.not_lt.mpr hn)

end Outcome

theorem Layout.push_ok (h : Layout r q) {patch : Bytes} (hfits : patch.size ≤ r.patchLimit) :
    r.push patch =
      ((r.filled (r.slot.overlay 0 patch)).link patch.size, .ok ⟨r.place, patch.size, r.evictions⟩) := by
  rw [push, if_neg (Nat.not_lt.mpr hfits), pushWith_eq, h.patchLimit_vacate]
  dsimp only
  rw [if_neg (Nat.not_lt.mpr hfits)]

/-- **A record is added behind those that were not evicted.**  Its patch is the start of the slot, as the
fill has left it. -/
theorem Layout.link_filled (h : Layout r q) (left : Bytes) {size : Nat} (hsize : size ≤ r.patchLimit) :
    Layout ((r.filled left).link size)
      (q.drop r.evictions ++ [(r.place, (r.slot.overlay 0 left).extract 0 size)]) := by
  have hroom := h.vacate.room
  have hlimit := h.patchLimit_vacate
  have hregion : r.vacate.region.size = r.vacate.capacity := rfl
  have hfits : size ≤ (r.filled left).patchLimit := by
    rw [← hlimit] at hsize
    exact hsize
  have hadded : (r.filled left).added size = (r.place, (r.slot.overlay 0 left).extract 0 size) := by
    unfold added Ring.filled slot place
    rw [Bytes.extract_overlay_extract (by omega) (by omega)]
  rw [← hadded]
  exact (h.filled left).link hfits (h.not_full_filled left)

/-- A patch that is written to the slot is the start of it. -/
theorem Layout.patch_left (h : Layout r q) {patch : Bytes} (hfits : patch.size ≤ r.patchLimit) :
    (r.slot.overlay 0 (r.slot.overlay 0 patch)).extract 0 patch.size = patch := by
  have hslot := h.size_slot
  rw [Bytes.overlay_zero (Bytes.size_overlay _ _ _), Bytes.extract_zero_overlay (by omega)]

theorem Layout.link_patch (h : Layout r q) {patch : Bytes} (hfits : patch.size ≤ r.patchLimit) :
    Layout ((r.filled (r.slot.overlay 0 patch)).link patch.size)
      (q.drop r.evictions ++ [(r.place, patch)]) := by
  have hlayout := h.link_filled (r.slot.overlay 0 patch) hfits
  rwa [h.patch_left hfits] at hlayout

theorem Layout.sameAt_link_filled (h : Layout r q) (left : Bytes) (size : Nat) :
    ∀ record ∈ q.drop r.evictions, SameAt ((r.filled left).link size).region r.region record := by
  intro record hr i hi hstop
  rw [(h.filled left).sameAt_link (h.not_full_filled left) size record hr i hi hstop,
    h.sameAt_filled left record hr i hi hstop]

end Ring

end Retrace
