import Mathlib.Order.Monotone.Defs
import Retrace.Proofs.Patch.Canonical
import Retrace.Proofs.Patch.Reading

/-!
# The first bytes of a patch

A patch that is cut off anywhere is read as some of its segments, from the first one on.  While these are applied the
string is a splice at every segment, so a cut leaves the new string up to some byte and the old one from there on.

* `passed`: the words that segments move the cursor over;
* `replay_take`: the first segments of planned spans lead from a splice to a splice;
* `apply_extract_diff`: so do the first bytes of a patch;
* `writeInto_truncated`: what the first bytes of a written patch make of the old string.
-/

namespace Retrace

open Window

namespace Patch

/-! ### The words of the first segments -/

/-- The words that segments move the cursor over: those that they leave as they are, and those that they replace. -/
def passed (segments : List Segment) : Nat := (segments.map fun s => s.skippedWords + s.changedWords).sum

@[simp]
theorem passed_nil : passed [] = 0 := rfl

@[simp]
theorem passed_cons (s : Segment) (rest : List Segment) :
    passed (s :: rest) = s.skippedWords + s.changedWords + passed rest := by simp [passed]

theorem passed_mono {xs ys : List Segment} (hle : xs <+: ys) : passed xs ≤ passed ys := by
  obtain ⟨rest, rfl⟩ := hle
  simp [passed]

section Splice

variable {old new : Bytes} (h : old.size = new.size)
include h

/-- A splice is cut at a byte of the strings, also where the cursor is behind their end. -/
theorem splice_eq_append (pos : Nat) :
    splice old new pos =
      new.extract 0 (min (2 * pos) old.size) ++ old.extract (min (2 * pos) old.size) old.size := by
  by_cases hpos : 2 * pos ≤ old.size
  · rw [Nat.min_eq_left hpos, splice]
  · have hall : splice old new pos = new := splice_all h (by rw [wordCount]; omega)
    rw [Nat.min_eq_right (Nat.le_of_not_le hpos), hall, ByteArray.extract_same, ByteArray.append_empty, h,
      ByteArray.extract_zero_size]

/-- The first segments of planned spans lead from a splice to a splice. -/
theorem replay_take (hmax : old.size ≤ maxSize) {pos : Nat} {spans : List Span}
    (hplan : Planned (whole old new) pos spans) (m : Nat) :
    let front := (spans.take m).map (Span.toSegment new)
    replay (splice old new pos) pos front = splice old new (pos + passed front) := by
  intro front
  induction hplan generalizing m with
  | done => simp [front, replay]
  | @gap pos count rest large fits inside equal after ih =>
    cases m with
    | zero => simp [front, replay]
    | succ m =>
      obtain ⟨hskipped, hchanged⟩ := Prod.mk.inj (extent_gap new fits)
      simp only [front, List.take_succ_cons, List.map_cons, passed_cons, hskipped, hchanged]
      rw [replay_gap h hmax fits inside equal, ih m, Nat.add_zero, Nat.add_assoc]
  | @run pos skip words rest fits equal isRun after ih =>
    cases m with
    | zero => simp [front, replay]
    | succ m =>
      obtain ⟨hskipped, hchanged⟩ := Prod.mk.inj (extent_run h fits isRun.inside)
      simp only [front, List.take_succ_cons, List.map_cons, passed_cons, hskipped, hchanged]
      rw [replay_run h hmax fits equal isRun, ih m, Nat.add_assoc, Nat.add_assoc, Nat.add_assoc]

end Splice

/-! ### The first bytes of a patch -/

/-- The segments that are read of the first `k` bytes of a patch. -/
def readBy (patch : Bytes) (k : Nat) : List Segment := (decode (patch.extract 0 k)).segments

theorem readBy_mono (patch : Bytes) {k k' : Nat} (hle : k ≤ k') : readBy patch k <+: readBy patch k' := by
  have hearlier := segments_decode_append (patch.extract 0 k) (patch.extract k k')
  rwa [← ByteArray.extract_eq_extract_append_extract k (Nat.zero_le k) hle] at hearlier

/-- The byte up to which a string is the new one, after the first `k` bytes of a patch. -/
def reached (patch : Bytes) (size k : Nat) : Nat := min (2 * passed (readBy patch k)) size

theorem monotone_reached (patch : Bytes) (size : Nat) : Monotone (reached patch size) := by
  intro k k' hle
  have hpassed := passed_mono (readBy_mono patch hle)
  simp only [reached]
  omega

section Diff

variable (s : Scanner) {old new : Bytes} (h : old.size = new.size)
include h

theorem readBy_diff_size : readBy (diff s old new) (diff s old new).size = segments s old new := by
  rw [readBy, ByteArray.extract_zero_size, decode_diff_self s h]

/-- Where only the terminator is cut off, all segments are read. -/
theorem readBy_diff {k : Nat} (hk : k ≤ (diff s old new).size) (hend : (diff s old new).size - terminatorSize ≤ k) :
    readBy (diff s old new) k = segments s old new := by
  have hwritten : diff s old new = forms (segments s old new) ++ terminator := encode_eq_append _
  have hsize : (diff s old new).size - terminatorSize = (forms (segments s old new)).size := by
    rw [hwritten, ByteArray.size_append]
    exact Nat.add_sub_cancel _ terminatorSize
  have hforms : readBy (diff s old new) ((diff s old new).size - terminatorSize) = segments s old new := by
    have hformed := wellFormed_toSegment h (planned_plan s old new)
    have hread := @segments_decode_forms (segments s old new) hformed Bytes.empty (by decide)
    rw [readBy, hsize, hwritten, ByteArray.extract_append_eq_left rfl]
    exact (congrArg (fun bytes => (decode bytes).segments) ByteArray.append_empty.symm).trans hread
  have hge := readBy_mono (diff s old new) hend
  have hle := readBy_mono (diff s old new) hk
  rw [hforms] at hge
  rw [readBy_diff_size s h] at hle
  exact hle.eq_of_length_le hge.length_le

/-- **The first bytes of a patch lead to a splice.** -/
theorem apply_extract_diff (hmax : old.size ≤ maxSize) {k : Nat} (hk : k ≤ (diff s old new).size) :
    apply ((diff s old new).extract 0 k) old =
      new.extract 0 (reached (diff s old new) old.size k) ++
        old.extract (reached (diff s old new) old.size k) old.size := by
  have hearlier := readBy_mono (diff s old new) hk
  rw [readBy_diff_size s h] at hearlier
  have htake := List.prefix_iff_eq_take.mp hearlier
  rw [segments, ← List.map_take] at htake
  have hreplay := replay_take h hmax (planned_plan s old new) (readBy (diff s old new) k).length
  dsimp only at hreplay
  rw [← htake, splice_zero h, Nat.zero_add, splice_eq_append h] at hreplay
  exact hreplay

theorem apply_extract_diff_of_le (hmax : old.size ≤ maxSize) {k : Nat} (hk : k ≤ (diff s old new).size)
    (hend : (diff s old new).size - terminatorSize ≤ k) : apply ((diff s old new).extract 0 k) old = new := by
  have hread : (decode ((diff s old new).extract 0 k)).segments = segments s old new := readBy_diff s h hk hend
  have hall := apply_diff s h hmax
  rw [apply, decode_diff_self s h] at hall
  rwa [apply, hread]

end Diff

/-- **A cut leaves a splice.**  A buffer with room for the largest patch takes the patch, and as many of its first bytes
as one likes make a string that is the new one up to some byte and the old one from there on.  That byte is the end of the
words of the segments that are wholly there, so it only moves on with more bytes; without the terminator, they make the
new string.  And whatever bytes there are, more of them at the end only add to the segments that are read. -/
theorem writeInto_truncated (s : Scanner) {old new out : Bytes} (h : old.size = new.size) (hmax : old.size ≤ maxSize)
    (hout : bound old.size ≤ out.size) :
    (∃ n, (writeInto s old new out).2 = .ok n ∧
      let patch := (writeInto s old new out).1.extract 0 n
      let c := reached patch old.size
      (Monotone c ∧ ∀ k ≤ n, c k ≤ old.size ∧
        apply (patch.extract 0 k) old = new.extract 0 (c k) ++ old.extract (c k) old.size) ∧
        ∀ k ≤ n, n - terminatorSize ≤ k → apply (patch.extract 0 k) old = new) ∧
      ∀ bytes after : Bytes, (decode bytes).segments <+: (decode (bytes ++ after)).segments := by
  refine ⟨⟨(diff s old new).size, by rw [writeInto_eq s h hout], ?_⟩, segments_decode_append⟩
  intro patch c
  have hpatch : patch = diff s old new := extract_writeInto s h hout
  have hc : c = reached (diff s old new) old.size := congrArg (reached · old.size) hpatch
  rw [hpatch, hc]
  refine ⟨⟨monotone_reached _ _, fun k hk => ⟨Nat.min_le_right _ _, ?_⟩⟩, fun k hk hend => ?_⟩
  · exact apply_extract_diff s h hmax hk
  · exact apply_extract_diff_of_le s h hmax hk hend

/-- Two runs of one word; a cut in the payload of the second one leaves the first. -/
theorem writeInto_truncated_run :
    let old : Bytes := ⟨#[0, 0, 0, 0, 0, 0, 0, 0, 0]⟩
    let new : Bytes := ⟨#[1, 0, 0, 0, 0, 0, 0, 0, 7]⟩
    let patch : Bytes := ⟨#[1, 0, 0, 0, 1, 0, 1, 0, 3, 0, 7, 0, 0, 0, 0, 0, 0, 0]⟩
    (old.size = new.size ∧ old.size ≤ maxSize ∧ bound old.size ≤ (Bytes.zeros 20).size) ∧
      diff .scalar old new = patch ∧
        reached patch old.size 11 = 2 ∧ apply (patch.extract 0 11) old = ⟨#[1, 0, 0, 0, 0, 0, 0, 0, 0]⟩ ∧
          apply (patch.extract 0 12) old = new := by
  intro old new patch
  have hsize : old.size = new.size := rfl
  have hout : bound old.size ≤ (Bytes.zeros 20).size := by
    rw [Bytes.size_zeros]
    decide
  have hdiff : diff .scalar old new = patch := by decide +kernel
  have hreached : reached patch old.size 11 = 2 := by decide +kernel
  have hwritten := extract_writeInto .scalar hsize hout
  obtain ⟨⟨n, hok, ⟨-, hcut⟩, hall⟩, -⟩ := writeInto_truncated .scalar hsize (by decide) hout
  rw [writeInto_eq .scalar hsize hout] at hok
  obtain rfl := Except.ok.inj hok
  rw [hwritten, hdiff] at hcut hall
  have hcut := (hcut 11 (by decide)).2
  rw [hreached] at hcut
  exact ⟨⟨hsize, by decide, hout⟩, hdiff, hreached, hcut, hall 12 (by decide) (by decide)⟩

end Patch

end Retrace
