import Retrace.Patch.Apply

/-!
# Tagged snapshots

A snapshot is a byte string of fixed size, stored in whole words and followed by one more word with
a tag.  The tag is given once and tells two snapshots apart however often they change places.  Every
operation but `create` works on the bytes alone.

* `Snapshot.bytes_setBytes`: writing the bytes as a whole and reading them back;
* `Snapshot.tag_setBytes`: no write reaches the tag.
-/

namespace Retrace

/-- Stored bytes of which the first `size` are the snapshot's own, padded to a whole word and
followed by the tag word. -/
structure Snapshot where
  storage : Bytes
  size : Nat
  size_storage : storage.size = wordBytes * wordCount size + wordBytes

namespace Snapshot

/-- The bytes of a snapshot of `size` bytes in storage, padding and tag word included. -/
def storedSize (size : Nat) : Nat := wordBytes * wordCount size + wordBytes

theorem le_storedSize (size : Nat) : size ≤ wordBytes * wordCount size := by
  simp only [wordBytes, wordCount]
  omega

/-- A snapshot of `size` zero bytes with a tag. -/
def create (size : Nat) (tag : UInt16) : Except PatchError Snapshot :=
  if maxAllocation < storedSize size then .error (.allocationFailed size)
  else
    .ok {
      storage := (Bytes.zeros (wordBytes * wordCount size)).pushLE tag.toNat wordBytes
      size := size
      size_storage := by simp }

/-- The bytes of a snapshot. -/
def bytes (s : Snapshot) : Bytes := s.storage.extract 0 s.size

/-- The tag of a snapshot. -/
def tag (s : Snapshot) : UInt16 :=
  (s.storage.readLE (wordBytes * wordCount s.size) wordBytes).toUInt16

/-- Whether a snapshot has this tag. -/
def isTagged (s : Snapshot) (tag : UInt16) : Bool := s.tag == tag

/-! ## Writing -/

/-- The snapshot with `src` in place of its own bytes from offset `pos` on.  What would reach past
its last byte is dropped. -/
def write (s : Snapshot) (pos : Nat) (src : Bytes) : Snapshot :=
  { s with
    storage := s.storage.overlay pos (src.extract 0 (s.size - pos))
    size_storage := by simp [s.size_storage] }

/-- The snapshot with all its bytes replaced by those of `src`, as far as `src` has them. -/
def setBytes (s : Snapshot) (src : Bytes) : Snapshot := s.write 0 src

/-- The snapshot with all its bytes replaced, if there are as many of them. -/
def setBytes? (s : Snapshot) (src : Bytes) : Option Snapshot :=
  if src.size = s.size then some (s.setBytes src) else none

/-- The snapshot with every byte equal to `v`. -/
def fill (s : Snapshot) (v : UInt8) : Snapshot := s.setBytes (Bytes.replicate s.size v)

/-- The snapshot after a patch. -/
def apply (patch : Bytes) (s : Snapshot) : Snapshot := s.setBytes (Patch.apply patch s.bytes)

/-- The snapshot with all its words zero, the padding included. -/
def erase (s : Snapshot) : Snapshot :=
  { s with
    storage := s.storage.overlay 0 (Bytes.zeros (wordBytes * wordCount s.size))
    size_storage := by simp [s.size_storage] }

/-! ## What a write shows -/

@[simp]
theorem size_bytes (s : Snapshot) : s.bytes.size = s.size := by
  have h := le_storedSize s.size
  simp only [bytes, ByteArray.size_extract, s.size_storage]
  omega

theorem bytes_write (s : Snapshot) (pos : Nat) (src : Bytes) :
    (s.write pos src).bytes = s.bytes.overlay pos src := by
  have h := le_storedSize s.size
  have hw : (s.write pos src).size = s.size := rfl
  refine Bytes.ext_byteAt (by rw [size_bytes, Bytes.size_overlay, size_bytes, hw]) fun i hi => ?_
  rw [size_bytes, hw] at hi
  simp only [bytes, write, Bytes.byteAt_extract, Bytes.byteAt_overlay, ByteArray.size_extract,
    s.size_storage]
  grind

theorem bytes_setBytes (s : Snapshot) {src : Bytes} (h : src.size = s.size) :
    (s.setBytes src).bytes = src := by
  rw [setBytes, bytes_write, Bytes.overlay_zero (by rw [size_bytes, h])]

theorem tag_eq_of_byteAt {s t : Snapshot} (hs : t.size = s.size)
    (h : ∀ i, wordBytes * wordCount s.size ≤ i → t.storage.byteAt i = s.storage.byteAt i) :
    t.tag = s.tag := by
  simp only [tag, hs, wordBytes, Bytes.readLE] at h ⊢
  rw [h _ (Nat.le_refl _), h _ (Nat.le_succ _)]

theorem tag_write (s : Snapshot) (pos : Nat) (src : Bytes) : (s.write pos src).tag = s.tag := by
  have h := le_storedSize s.size
  refine tag_eq_of_byteAt rfl fun i hi => ?_
  rw [write, Bytes.byteAt_overlay, if_neg]
  rw [ByteArray.size_extract]
  omega

theorem tag_setBytes (s : Snapshot) (src : Bytes) : (s.setBytes src).tag = s.tag :=
  s.tag_write 0 src

theorem tag_erase (s : Snapshot) : s.erase.tag = s.tag := by
  refine tag_eq_of_byteAt rfl fun i hi => ?_
  rw [erase, Bytes.byteAt_overlay, if_neg]
  rw [Bytes.size_zeros]
  omega

theorem bytes_erase (s : Snapshot) : s.erase.bytes = Bytes.zeros s.size := by
  have h := le_storedSize s.size
  have hs : s.erase.size = s.size := rfl
  refine Bytes.ext_byteAt (by rw [size_bytes, Bytes.size_zeros, hs]) fun i hi => ?_
  rw [size_bytes, hs] at hi
  have hstored : i < s.storage.size := by
    rw [s.size_storage]
    omega
  simp only [bytes, erase, Bytes.byteAt_extract, Bytes.byteAt_overlay, Bytes.size_zeros,
    Bytes.byteAt_zeros]
  rw [if_pos (by omega), if_pos (by omega)]

/-- Once all is erased, it makes no difference what was written before. -/
theorem erase_write (s : Snapshot) (pos : Nat) (src : Bytes) : (s.write pos src).erase = s.erase := by
  have h := le_storedSize s.size
  simp only [erase, write, mk.injEq, and_true]
  refine Bytes.ext_byteAt (by simp) fun i hi => ?_
  rw [Bytes.size_overlay, Bytes.size_overlay] at hi
  simp only [Bytes.byteAt_overlay, Bytes.size_overlay, Bytes.size_zeros, ByteArray.size_extract]
  by_cases hword : i < wordBytes * wordCount s.size
  · rw [if_pos (by omega), if_pos (by omega)]
  · rw [if_neg (by omega), if_neg (by omega), if_neg (by omega)]

end Snapshot

end Retrace
