import Retrace.Proofs.Patch.SizeBound

/-!
# A patch makes the new string of the old one

While a patch is applied, the string is a splice: the new words up to the cursor, the old ones from
there on.  A gap moves the cursor over equal words, and a run copies the new words under it.

* `splice`: the string with the cursor at some word;
* `replay_planned`: the segments of planned spans lead from a splice to the new string;
* `apply_writeInto`: the patch that is written into a buffer makes the new string of the old one.
-/

namespace Retrace

open Window

namespace Patch

/-! ### Splices -/

/-- The words of `new` up to word `pos`, and those of `old` from there on. -/
def splice (old new : Bytes) (pos : Nat) : Bytes :=
  new.extract 0 (2 * pos) ++ old.extract (2 * pos) old.size

section Splice

variable {old new : Bytes} (h : old.size = new.size)
include h

theorem size_splice (pos : Nat) : (splice old new pos).size = new.size := by
  rw [splice, ByteArray.size_append, ByteArray.size_extract, ByteArray.size_extract]
  omega

theorem byteAt_splice (pos i : Nat) :
    (splice old new pos).byteAt i = if i < 2 * pos then new.byteAt i else old.byteAt i := by
  rw [splice, Bytes.byteAt_append, ByteArray.size_extract, Bytes.byteAt_extract, Bytes.byteAt_extract]
  grind [Bytes.byteAt_of_size_le]

theorem splice_zero : splice old new 0 = old := by
  refine Bytes.ext_byteAt (by rw [size_splice h, h]) fun i _ => ?_
  rw [byteAt_splice h, Nat.mul_zero, if_neg (Nat.not_lt_zero i)]

theorem splice_all {pos : Nat} (hpos : wordCount old.size ≤ pos) : splice old new pos = new := by
  refine Bytes.ext_byteAt (size_splice h pos) fun i hi => ?_
  rw [size_splice h] at hi
  have hlt : i < 2 * pos := by
    rw [wordCount] at hpos
    omega
  rw [byteAt_splice h, if_pos hlt]

/-- The cursor may move over equal words. -/
theorem splice_equal {pos pos' : Nat} (hle : pos ≤ pos')
    (heq : ∀ k, pos ≤ k → k < pos' → (whole old new).sameWord k = true) :
    splice old new pos = splice old new pos' := by
  refine Bytes.ext_byteAt (by rw [size_splice h, size_splice h]) fun i hi => ?_
  rw [size_splice h] at hi
  rw [byteAt_splice h, byteAt_splice h]
  by_cases h1 : i < 2 * pos
  · rw [if_pos h1, if_pos (by omega)]
  · rw [if_neg h1]
    split
    · exact (sameWord_whole_iff h).mp (heq (i / 2) (by omega) (by omega)) i (by omega) rfl
    · rfl

/-- A run copies the new words under the cursor. -/
theorem overlay_splice {start words : Nat} (hin : start + words ≤ wordCount old.size) :
    (splice old new start).overlay (2 * start) (payload new start words) =
      splice old new (start + words) := by
  refine Bytes.ext_byteAt (by rw [Bytes.size_overlay, size_splice h, size_splice h]) fun i hi => ?_
  rw [Bytes.size_overlay, size_splice h] at hi
  rw [Bytes.byteAt_overlay, size_splice h, size_payload (h ▸ hin), byteAt_splice h, byteAt_splice h]
  split
  · next hc =>
    rw [byteAt_payload (by omega) (by omega), if_pos (by omega), Nat.add_sub_cancel' hc.1]
  · next hc =>
    by_cases h1 : i < 2 * start
    · rw [if_pos h1, if_pos (by omega)]
    · rw [if_neg h1, if_neg (by omega)]

end Splice

/-! ### The segments of a plan -/

section Step

variable {old new : Bytes} (h : old.size = new.size) (hmax : old.size ≤ maxSize)
include h hmax

/-- A gap leads from a splice to a splice. -/
theorem replay_gap {pos count : Nat} (fits : count ≤ maxGap) (inside : pos + count < (whole old new).words)
    (equal : ∀ k, pos ≤ k → k < pos + count → (whole old new).sameWord k = true) (rest : List Segment) :
    replay (splice old new pos) pos ((Span.gap count).toSegment new :: rest) =
      replay (splice old new (pos + count)) (pos + count) rest := by
  have hwords : (whole old new).words = (old.size + 1) / 2 := rfl
  have hcursor : satAdd pos count = pos + count := Nat.min_eq_left (by omega)
  rw [Span.toSegment, replay, toNat_count fits, hcursor, splice_equal h (Nat.le_add_right pos count) equal]

/-- So does a run. -/
theorem replay_run {pos skip words : Nat} (fits : skip ≤ maxRun)
    (equal : ∀ k, pos ≤ k → k < pos + skip → (whole old new).sameWord k = true)
    (isRun : (whole old new).IsRun (pos + skip) words) (rest : List Segment) :
    replay (splice old new pos) pos ((Span.run skip (pos + skip) words).toSegment new :: rest) =
      replay (splice old new (pos + skip + words)) (pos + skip + words) rest := by
  have hwords : (whole old new).words = (old.size + 1) / 2 := rfl
  have hin := isRun.inside
  have hpos := isRun.pos
  have hstart : satAdd pos skip = pos + skip := Nat.min_eq_left (by omega)
  have hoffset : satMul (pos + skip) wordBytes = 2 * (pos + skip) := by
    rw [satMul, wordBytes, Nat.mul_comm]
    exact Nat.min_eq_left (by omega)
  have hcount : wordCount (payload new (pos + skip) words).size = words := by
    rw [size_payload (h ▸ hin), wordCount]
    omega
  have hcursor : satAdd (pos + skip) words = pos + skip + words := Nat.min_eq_left (by omega)
  rw [Span.toSegment, replay, toNat_skip fits, hstart, hoffset, hcount, hcursor,
    splice_equal h (Nat.le_add_right pos skip) equal, overlay_splice h hin]

end Step

theorem replay_planned {old new : Bytes} (h : old.size = new.size) (hmax : old.size ≤ maxSize) {pos : Nat}
    {spans : List Span} (hplan : Planned (whole old new) pos spans) :
    replay (splice old new pos) pos (spans.map (Span.toSegment new)) = new := by
  induction hplan with
  | @done pos equal =>
    rw [List.map_nil, replay]
    by_cases hpos : wordCount old.size ≤ pos
    · exact splice_all h hpos
    · rw [splice_equal h (Nat.le_of_not_le hpos) equal, splice_all h (Nat.le_refl _)]
  | gap large fits inside equal after ih => rw [List.map_cons, replay_gap h hmax fits inside equal, ih]
  | run fits equal isRun after ih => rw [List.map_cons, replay_run h hmax fits equal isRun, ih]

theorem apply_diff (s : Scanner) {old new : Bytes} (h : old.size = new.size) (hmax : old.size ≤ maxSize) :
    apply (diff s old new) old = new := by
  rw [apply, decode_diff_self s h]
  have hreplay := replay_planned h hmax (planned_plan s old new)
  rwa [splice_zero h] at hreplay

/-- **Round trip.**  A buffer with room for the largest patch takes the patch, and its first bytes, as
many as the patch has, make the new string of the old one. -/
theorem apply_writeInto (s : Scanner) {old new out : Bytes} (h : old.size = new.size)
    (hmax : old.size ≤ maxSize) (hout : bound old.size ≤ out.size) :
    ∃ n, (writeInto s old new out).2 = .ok n ∧
      apply ((writeInto s old new out).1.extract 0 n) old = new := by
  have hfits := Nat.le_trans (size_diff_le s h) hout
  rw [writeInto_eq s h hout]
  refine ⟨_, rfl, ?_⟩
  rw [Bytes.extract_zero_overlay hfits]
  exact apply_diff s h hmax

theorem apply_writeInto_odd :
    bound 3 ≤ (Bytes.zeros 14).size ∧
      ∃ n, (writeInto .vector ⟨#[0, 0, 0]⟩ ⟨#[0, 0, 7]⟩ (Bytes.zeros 14)).2 = .ok n ∧
        apply ((writeInto .vector ⟨#[0, 0, 0]⟩ ⟨#[0, 0, 7]⟩ (Bytes.zeros 14)).1.extract 0 n)
          ⟨#[0, 0, 0]⟩ = ⟨#[0, 0, 7]⟩ := by
  have hout : bound 3 ≤ (Bytes.zeros 14).size := by
    rw [Bytes.size_zeros]
    decide
  exact ⟨hout, apply_writeInto .vector rfl (by decide) hout⟩

end Patch

end Retrace
