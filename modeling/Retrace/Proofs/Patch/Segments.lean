import Retrace.Proofs.Patch.Format
import Retrace.Proofs.Patch.Plan

/-!
# The segments of a plan

* `size_payload`, `byteAt_payload`: a run carries all of its words, a half word at the end filled up;
* `wellFormed_toSegment`: no number of a segment is cut off when it is written;
* `decode_diff_self`: a patch is read back as the segments that it was written from.
-/

namespace Retrace

open Window

namespace Patch

/-! ### The words of a run -/

theorem payload_eq (new : Bytes) (start words : Nat) :
    payload new start words =
      if (new.extract (2 * start) (2 * (start + words))).size % 2 = 0 then
        new.extract (2 * start) (2 * (start + words))
      else (new.extract (2 * start) (2 * (start + words))).push 0 := rfl

theorem size_payload {new : Bytes} {start words : Nat} (hin : start + words ≤ wordCount new.size) :
    (payload new start words).size = 2 * words := by
  have hs : (new.extract (2 * start) (2 * (start + words))).size =
      min (2 * (start + words)) new.size - 2 * start := ByteArray.size_extract
  rw [wordCount] at hin
  rw [payload_eq]
  split
  · omega
  · rw [ByteArray.size_push]
    omega

theorem byteAt_payload {new : Bytes} {start words i : Nat} (hi : i < 2 * words) (hlt : 2 * start + i < new.size) :
    (payload new start words).byteAt i = new.byteAt (2 * start + i) := by
  have hs : (new.extract (2 * start) (2 * (start + words))).size =
      min (2 * (start + words)) new.size - 2 * start := ByteArray.size_extract
  have hbyte : Bytes.byteAt (new.extract (2 * start) (2 * (start + words))) i = new.byteAt (2 * start + i) := by
    rw [Bytes.byteAt_extract, if_pos (by omega)]
  rw [payload_eq]
  split
  · exact hbyte
  · rw [Bytes.byteAt_push, if_neg (by omega), hbyte]

/-! ### Written segments -/

theorem toNat_skip {skip : Nat} (h : skip ≤ maxRun) : skip.toUInt16.toNat = skip := by
  rw [UInt16.toNat_ofNat']
  exact Nat.mod_eq_of_lt (Nat.lt_succ_of_le h)

theorem toNat_count {count : Nat} (h : count ≤ maxGap) : count.toUInt32.toNat = count := by
  rw [UInt32.toNat_ofNat']
  exact Nat.mod_eq_of_lt (Nat.lt_succ_of_le h)

theorem wellFormed_toSegment {old new : Bytes} (h : old.size = new.size) {pos : Nat} {spans : List Span}
    (hplan : Planned (whole old new) pos spans) :
    ∀ s ∈ spans.map (Span.toSegment new), s.WellFormed := by
  induction hplan with
  | done => simp
  | gap large fits inside equal after ih =>
    rw [List.map_cons, List.forall_mem_cons]
    refine ⟨fun h0 => ?_, ih⟩
    have hcount := toNat_count fits
    rw [h0] at hcount
    exact Nat.not_lt_zero _ (hcount ▸ large)
  | run fits equal isRun after ih =>
    rw [List.map_cons, List.forall_mem_cons]
    exact ⟨⟨_, isRun.pos, isRun.le_maxRun, size_payload (h ▸ isRun.inside)⟩, ih⟩

theorem decode_diff_self (s : Scanner) {old new : Bytes} (h : old.size = new.size) :
    decode (diff s old new) = ⟨segments s old new, (diff s old new).size, true⟩ :=
  decode_encode_self (wellFormed_toSegment h (planned_plan s old new))

end Patch

end Retrace
