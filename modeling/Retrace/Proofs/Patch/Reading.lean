import Retrace.Proofs.Patch.Inverse

/-!
# What is read of any bytes

Bytes need not be a patch that was written.  What is read of them are the segments that they begin with: up to a
terminator, or up to a segment that the end of the bytes cuts off.

* `Leading`: the segments that some bytes begin with;
* `leading_decode`: these are the segments that are read;
* `segments_decode_append`: more bytes at the end only add to the segments that are read;
* `segments_decode_forms`: segments in a row are read without a terminator.
-/

namespace Retrace

namespace Patch

/-- **The segments that some bytes begin with.**  They are well formed and stand in a row in their written forms, and no
other segment stands behind them. -/
structure Leading (patch : Bytes) (segments : List Segment) : Prop where
  wellFormed : ∀ s ∈ segments, s.WellFormed
  stand : ∃ after, patch = forms segments ++ after
  last : ∀ s : Segment, s.WellFormed → ∀ after, patch ≠ forms (segments ++ [s]) ++ after

/-! ### Up to the first segment that is not there -/

/-- Where no segment is read, there is none. -/
theorem leading_of_read {patch after : Bytes} {segments : List Segment} (hs : ∀ s ∈ segments, s.WellFormed)
    (hpatch : patch = forms segments ++ after)
    (hread : ∀ s next, Segment.read patch (forms segments).size ≠ .segment s next) : Leading patch segments where
  wellFormed := hs
  stand := ⟨after, hpatch⟩
  last s hformed after' heq := by
    have hform := Segment.read_form hformed (forms segments) after'
    rw [forms_append, forms_singleton] at heq
    rw [← heq] at hform
    exact hread _ _ hform

theorem leading_decodeFrom {patch : Bytes} {pos : Nat} {before : List Segment}
    (hs : ∀ s ∈ before.reverse, s.WellFormed) (hpos : (forms before.reverse).size = pos)
    (hpatch : patch = forms before.reverse ++ patch.extract pos patch.size) :
    Leading patch (decodeFrom patch pos before).segments := by
  fun_induction decodeFrom patch pos before with
  | case1 pos before s next hread ih =>
    obtain ⟨hformed, hform⟩ := Segment.eq_form_of_read hread
    obtain ⟨hlt, hle⟩ := Segment.read_advances hread
    have hrow : forms (s :: before).reverse = forms before.reverse ++ s.form := by
      rw [List.reverse_cons, forms_append, forms_singleton]
    have hsize : s.form.size = next - pos := by
      rw [← hform, ByteArray.size_extract]
      omega
    refine ih ?_ ?_ ?_
    · rw [List.reverse_cons]
      exact List.forall_mem_append.mpr ⟨hs, List.forall_mem_singleton.mpr hformed⟩
    · rw [hrow, ByteArray.size_append]
      omega
    · rw [hrow, ← hform, ByteArray.append_assoc,
        ← ByteArray.extract_eq_extract_append_extract next (by omega) hle]
      exact hpatch
  | case2 pos before next hread =>
    exact leading_of_read hs hpatch fun s next' h => by simp [hpos, hread] at h
  | case3 pos before next hread =>
    exact leading_of_read hs hpatch fun s next' h => by simp [hpos, hread] at h

/-- **What is read of any bytes are the segments that they begin with.** -/
theorem leading_decode (patch : Bytes) : Leading patch (decode patch).segments := by
  refine @leading_decodeFrom patch 0 [] (by simp) rfl ?_
  exact (ByteArray.empty_append.trans ByteArray.extract_zero_size).symm

/-! ### More bytes -/

/-- What was read stays the beginning of what is read. -/
theorem reverse_prefix_decodeFrom (patch : Bytes) (pos : Nat) (before : List Segment) :
    before.reverse <+: (decodeFrom patch pos before).segments := by
  fun_induction decodeFrom patch pos before with
  | case1 pos before s next hread ih =>
    rw [List.reverse_cons] at ih
    exact (List.prefix_append _ _).trans ih
  | case2 pos before next hread => exact List.prefix_refl _
  | case3 pos before next hread => exact List.prefix_refl _

/-- Segments in a row at the start are read, whatever follows them. -/
theorem prefix_segments_decode {segments : List Segment} (hs : ∀ s ∈ segments, s.WellFormed) (after : Bytes) :
    segments <+: (decode (forms segments ++ after)).segments := by
  have hforms := decodeFrom_forms_append hs Bytes.empty after []
  rw [show Bytes.empty ++ forms segments = forms segments from ByteArray.empty_append] at hforms
  have hprefix := reverse_prefix_decodeFrom (forms segments ++ after) (Bytes.empty.size + (forms segments).size)
    (segments.reverse ++ [])
  rw [← hforms, List.append_nil, List.reverse_reverse] at hprefix
  exact hprefix

/-- **More bytes at the end only add to the segments that are read.** -/
theorem segments_decode_append (patch after : Bytes) :
    (decode patch).segments <+: (decode (patch ++ after)).segments := by
  obtain ⟨hs, ⟨rest, hpatch⟩, -⟩ := leading_decode patch
  have hprefix := prefix_segments_decode hs (rest ++ after)
  rwa [← ByteArray.append_assoc, ← hpatch] at hprefix

/-- Segments are read with nothing behind them, or with too few bytes for a header. -/
theorem segments_decode_forms {segments : List Segment} (hs : ∀ s ∈ segments, s.WellFormed) {after : Bytes}
    (hafter : after.size < runHeaderSize) : (decode (forms segments ++ after)).segments = segments := by
  have hall := decodeFrom_forms_append hs Bytes.empty after []
  have hempty : Bytes.empty ++ forms segments = forms segments := ByteArray.empty_append
  have hstart : Bytes.empty.size + (forms segments).size = (forms segments).size := Nat.zero_add _
  have hsize : (forms segments ++ after).size = (forms segments).size + after.size := ByteArray.size_append
  obtain ⟨next, hcut⟩ : ∃ next, Segment.read (forms segments ++ after) (forms segments).size = .cut next := by
    rw [runHeaderSize] at hafter
    rw [Segment.read]
    split
    · exact ⟨_, rfl⟩
    · exact ⟨_, if_pos (by omega)⟩
  rw [hempty, hstart] at hall
  rw [decode, show 0 = Bytes.empty.size from rfl, hall, decodeFrom_cut hcut, List.reverse_append, List.reverse_reverse]
  rfl

end Patch

end Retrace
