import Retrace.Snapshot

/-!
# What is stored in a snapshot

A snapshot's own bytes share their storage with a padding byte, if their number is odd, and with the tag.

* `bytes_create`, `tag_create`, `bytes_apply`: what a snapshot shows when it is made, and after a patch;
* `SameRest`: what is stored behind the snapshot's own bytes stays as it is;
* `apply_eq_replay`: a patch is applied in place, run by run;
* `words_erase`: erasing clears all words but the last, the tag.
-/

namespace Retrace

namespace Snapshot

/-! ### What a snapshot shows -/

theorem size_create {size : Nat} {tag : UInt16} {s : Snapshot} (h : create size tag = .ok s) : s.size = size := by
  unfold create at h
  split at h
  · contradiction
  · obtain rfl := Except.ok.inj h
    rfl

theorem bytes_create {size : Nat} {tag : UInt16} {s : Snapshot} (h : create size tag = .ok s) :
    s.bytes = Bytes.zeros size := by
  have hle := le_storedSize size
  unfold create at h
  split at h
  · contradiction
  · obtain rfl := Except.ok.inj h
    refine Bytes.ext_byteAt (by rw [size_bytes, Bytes.size_zeros]) fun i hi => ?_
    rw [size_bytes] at hi
    have hin : i < size := hi
    have hstored : 0 + i < (Bytes.zeros (wordBytes * wordCount size)).size := by
      rw [Bytes.size_zeros]
      omega
    show Bytes.byteAt (((Bytes.zeros (wordBytes * wordCount size)).pushLE tag.toNat wordBytes).extract 0 size) i =
      (Bytes.zeros size).byteAt i
    rw [Bytes.byteAt_extract, if_pos (by omega), Bytes.byteAt_pushLE_of_lt hstored, Bytes.byteAt_zeros,
      Bytes.byteAt_zeros]

theorem tag_create {size : Nat} {tag : UInt16} {s : Snapshot} (h : create size tag = .ok s) : s.tag = tag := by
  unfold create at h
  split at h
  · contradiction
  · obtain rfl := Except.ok.inj h
    have hsize : (Bytes.zeros (wordBytes * wordCount size)).size = wordBytes * wordCount size :=
      Bytes.size_zeros _
    have hread := Bytes.readLE_pushLE_of_lt (Bytes.zeros (wordBytes * wordCount size))
      (show tag.toNat < Bytes.valueCount wordBytes from tag.toNat_lt)
    rw [hsize] at hread
    show (Bytes.readLE _ (wordBytes * wordCount size) wordBytes).toUInt16 = tag
    rw [hread]
    exact UInt16.ofNat_toNat

theorem bytes_apply (s : Snapshot) (patch : Bytes) : (s.apply patch).bytes = Patch.apply patch s.bytes :=
  s.bytes_setBytes (by rw [Patch.size_apply, size_bytes])

/-! ### In place -/

/-- The snapshot after the segments of a patch, with the cursor at word `pos` before them.  Each run is written where
it belongs, as far as the snapshot's own bytes reach. -/
def replay (s : Snapshot) (pos : Nat) : List Segment → Snapshot
  | [] => s
  | .gap count :: rest => replay s (satAdd pos count.toNat) rest
  | .run skip payload :: rest =>
    let start := satAdd pos skip.toNat
    replay (s.write (satMul start wordBytes) payload) (satAdd start (wordCount payload.size)) rest

/-- The size is the same, and so is what is stored behind the snapshot's own bytes. -/
structure SameRest (s t : Snapshot) : Prop where
  size : t.size = s.size
  rest : ∀ i, s.size ≤ i → t.storage.byteAt i = s.storage.byteAt i

theorem sameRest_write (s : Snapshot) (pos : Nat) (src : Bytes) : SameRest s (s.write pos src) := by
  refine ⟨rfl, fun i hi => ?_⟩
  rw [write, Bytes.byteAt_overlay, if_neg]
  rw [ByteArray.size_extract]
  omega

theorem SameRest.trans {s t u : Snapshot} (hst : SameRest s t) (htu : SameRest t u) : SameRest s u :=
  ⟨htu.size.trans hst.size, fun i hi => (htu.rest i (hst.size ▸ hi)).trans (hst.rest i hi)⟩

/-- Of two snapshots with the same rest, the bytes are all that can differ. -/
theorem SameRest.eq_of_bytes {s t u : Snapshot} (hst : SameRest s t) (hsu : SameRest s u) (hbytes : t.bytes = u.bytes) :
    t = u := by
  have hsize : t.size = u.size := hst.size.trans hsu.size.symm
  have hstorage : t.storage = u.storage := by
    refine Bytes.ext_byteAt (by rw [t.size_storage, u.size_storage, hsize]) fun i _ => ?_
    by_cases hin : i < s.size
    · have hbyte := congrArg (Bytes.byteAt · i) hbytes
      simp only [bytes, Bytes.byteAt_extract, Nat.zero_add, hst.size, hsu.size, if_pos hin] at hbyte
      exact hbyte
    · rw [hst.rest i (Nat.le_of_not_lt hin), hsu.rest i (Nat.le_of_not_lt hin)]
  obtain ⟨storage, size, hs⟩ := t
  obtain ⟨storage', size', hs'⟩ := u
  obtain rfl : storage = storage' := hstorage
  obtain rfl : size = size' := hsize
  rfl

theorem replay_keeps (s : Snapshot) (pos : Nat) (segments : List Segment) :
    (s.replay pos segments).bytes = Patch.replay s.bytes pos segments ∧ SameRest s (s.replay pos segments) := by
  induction segments generalizing s pos with
  | nil => exact ⟨rfl, rfl, fun _ _ => rfl⟩
  | cons segment rest ih =>
    cases segment with
    | gap count => exact ih s _
    | run skip payload =>
      obtain ⟨hbytes, hrest⟩ := ih (s.write (satMul (satAdd pos skip.toNat) wordBytes) payload)
        (satAdd (satAdd pos skip.toNat) (wordCount payload.size))
      refine ⟨?_, (s.sameRest_write _ _).trans hrest⟩
      rw [bytes_write] at hbytes
      exact hbytes

/-- **A patch is applied in place**, whatever it holds. -/
theorem apply_eq_replay (s : Snapshot) (patch : Bytes) : s.apply patch = s.replay 0 (Patch.decode patch).segments := by
  obtain ⟨hbytes, hrest⟩ := s.replay_keeps 0 (Patch.decode patch).segments
  exact (s.sameRest_write 0 _).eq_of_bytes hrest ((s.bytes_apply patch).trans hbytes.symm)

/-! ### Words -/

/-- The words of the storage.  The last one is the tag. -/
def words (s : Snapshot) : List UInt16 :=
  (List.range (wordCount s.size + 1)).map fun i => (s.storage.readLE (wordBytes * i) wordBytes).toUInt16

/-- Erasing clears every word of a snapshot, that of the padding too, and leaves the tag. -/
theorem words_erase (s : Snapshot) : s.erase.words = List.replicate (wordCount s.size) 0 ++ [s.tag] := by
  have hsize : s.erase.size = s.size := rfl
  have hstored := s.size_storage
  have hbyte (i : Nat) (hi : i < wordBytes * wordCount s.size) : s.erase.storage.byteAt i = 0 := by
    rw [erase, Bytes.byteAt_overlay, Bytes.size_zeros, if_pos (by omega), Bytes.byteAt_zeros]
  have hword : ∀ i ∈ List.range (wordCount s.size),
      (s.erase.storage.readLE (wordBytes * i) wordBytes).toUInt16 = 0 := fun i hi => by
    have hi' : i < wordCount s.size := List.mem_range.mp hi
    simp only [wordBytes] at hbyte ⊢
    simp only [Bytes.readLE, hbyte (2 * i) (by omega), hbyte (2 * i + 1) (by omega)]
    rfl
  have htag : (s.erase.storage.readLE (wordBytes * wordCount s.size) wordBytes).toUInt16 = s.tag := s.tag_erase
  rw [words, hsize, List.range_succ, List.map_append, List.map_congr_left hword, List.map_const', List.length_range,
    List.map_singleton, htag]

end Snapshot

end Retrace
