import Retrace.Proofs.Patch.Checked
import Retrace.Proofs.Patch.Reading

/-!
# Where the bytes of a patch belong

Any bytes can be applied to any base.  The segments that are read of them place the payload of each run at a word of the
base, found by adding up words without any limit.  A base has fewer bytes than the largest size, so the limits of the
cursor never show: what they change would be placed behind the end of the base, where nothing is written.

* `placements`: where the payloads of segments belong;
* `pairwise_placements`: no two of them have a word in common;
* `byteAt_replay_of_has`, `byteAt_replay_of_forall_not_has`: what each byte of the base is after the segments;
* `apply_placed`: what any bytes make of any base.
-/

namespace Retrace

namespace Patch

/-! ### Payloads and their places -/

/-- A payload and the word of the base at which it begins. -/
structure Placement where
  start : Nat
  payload : Bytes

namespace Placement

/-- The word behind a payload. -/
def stop (p : Placement) : Nat := p.start + wordCount p.payload.size

/-- Whether word `k` of the base is in the place of a payload. -/
def Has (p : Placement) (k : Nat) : Prop := p.start ≤ k ∧ k < p.stop

instance (p : Placement) (k : Nat) : Decidable (p.Has k) := inferInstanceAs (Decidable (_ ∧ _))

/-- The byte of a payload that belongs at offset `j` of the base. -/
def byteFor (p : Placement) (j : Nat) : UInt8 := p.payload.byteAt (j - 2 * p.start)

end Placement

/-- Where the payloads of segments belong, with the cursor at word `pos` before them. -/
def placements (pos : Nat) : List Segment → List Placement
  | [] => []
  | .gap count :: rest => placements (pos + count.toNat) rest
  | .run skip payload :: rest =>
    let p : Placement := ⟨pos + skip.toNat, payload⟩
    p :: placements p.stop rest

theorem le_start_of_mem {pos : Nat} {segments : List Segment} {p : Placement} (hp : p ∈ placements pos segments) :
    pos ≤ p.start := by
  induction segments generalizing pos with
  | nil => cases hp
  | cons s rest ih =>
    cases s with
    | gap count => exact Nat.le_trans (Nat.le_add_right _ _) (ih hp)
    | run skip payload =>
      rcases List.mem_cons.mp hp with rfl | hp
      · exact Nat.le_add_right _ _
      · have hle := ih hp
        simp only [Placement.stop] at hle
        omega

/-- No two payloads have a word in common. -/
theorem pairwise_placements (pos : Nat) (segments : List Segment) :
    (placements pos segments).Pairwise fun p q => p.stop ≤ q.start := by
  induction segments generalizing pos with
  | nil => exact .nil
  | cons s rest ih =>
    cases s with
    | gap count => exact ih _
    | run skip payload => exact .cons (fun q hq => le_start_of_mem hq) (ih _)

/-! ### One run -/

/-- The limit of the cursor is that of the words that were added up. -/
theorem satAdd_min (pos n : Nat) : satAdd (min pos maxSize) n = min (pos + n) maxSize := by
  rw [satAdd]
  omega

/-- The bytes of a place, for a payload of whole words. -/
theorem has_iff {p : Placement} (heven : p.payload.size % 2 = 0) {j : Nat} :
    p.Has (j / 2) ↔ 2 * p.start ≤ j ∧ j < 2 * p.start + p.payload.size := by
  rw [Placement.Has, Placement.stop, wordCount]
  omega

/-- A run is written at its place as far as the base goes, and the limits do not show. -/
theorem byteAt_overlay_placement {base : Bytes} (hbase : base.size ≤ maxAllocation) {p : Placement}
    (heven : p.payload.size % 2 = 0) {j : Nat} (hj : j < base.size) :
    (base.overlay (satMul (min p.start maxSize) wordBytes) p.payload).byteAt j =
      if p.Has (j / 2) then p.byteFor j else base.byteAt j := by
  have hmax : maxAllocation < maxSize := by decide
  have hin := has_iff heven (j := j)
  rw [Bytes.byteAt_overlay, satMul, wordBytes]
  by_cases hhas : p.Has (j / 2)
  · obtain ⟨hle, hlt⟩ := hin.mp hhas
    have hoffset : min (min p.start maxSize * 2) maxSize = 2 * p.start := by omega
    rw [if_pos hhas, hoffset, if_pos ⟨hle, hlt, hj⟩, Placement.byteFor]
  · have hout := mt hin.mpr hhas
    rw [if_neg hhas, if_neg (by omega)]

/-! ### All runs -/

section Replay

variable {base : Bytes} (hbase : base.size ≤ maxAllocation) {segments : List Segment}
  (hs : ∀ s ∈ segments, s.WellFormed) (pos : Nat) {j : Nat} (hj : j < base.size)
include hs

theorem even_of_mem {p : Placement} (hp : p ∈ placements pos segments) : p.payload.size % 2 = 0 := by
  induction segments generalizing pos with
  | nil => cases hp
  | cons s rest ih =>
    obtain ⟨hfirst, hrest⟩ := List.forall_mem_cons.mp hs
    cases s with
    | gap count => exact ih hrest _ hp
    | run skip payload =>
      rcases List.mem_cons.mp hp with rfl | hp
      · obtain ⟨words, -, -, hsize⟩ := hfirst
        exact hsize ▸ Nat.mul_mod_right 2 words
      · exact ih hrest _ hp

include hbase hj

/-- Outside of the places of all payloads, the base keeps its bytes. -/
theorem byteAt_replay_of_forall_not_has (hnone : ∀ p ∈ placements pos segments, ¬ p.Has (j / 2)) :
    (replay base (min pos maxSize) segments).byteAt j = base.byteAt j := by
  induction segments generalizing base pos with
  | nil => rfl
  | cons s rest ih =>
    obtain ⟨hfirst, hrest⟩ := List.forall_mem_cons.mp hs
    cases s with
    | gap count =>
      rw [replay, satAdd_min]
      exact ih hbase hrest _ hj hnone
    | run skip payload =>
      obtain ⟨hhead, htail⟩ := List.forall_mem_cons.mp hnone
      have heven := even_of_mem hs pos List.mem_cons_self
      have hsize := base.size_overlay (satMul (min (pos + skip.toNat) maxSize) wordBytes) payload
      rw [replay, satAdd_min, satAdd_min]
      refine (ih (hsize.symm ▸ hbase) hrest _ (hsize.symm ▸ hj) htail).trans ?_
      exact (byteAt_overlay_placement hbase heven hj).trans (if_neg hhead)

/-- In the place of a payload, the base gets its bytes. -/
theorem byteAt_replay_of_has {p : Placement} (hp : p ∈ placements pos segments) (hhas : p.Has (j / 2)) :
    (replay base (min pos maxSize) segments).byteAt j = p.byteFor j := by
  induction segments generalizing base pos with
  | nil => cases hp
  | cons s rest ih =>
    obtain ⟨hfirst, hrest⟩ := List.forall_mem_cons.mp hs
    cases s with
    | gap count =>
      rw [replay, satAdd_min]
      exact ih hbase hrest _ hj hp
    | run skip payload =>
      have hsize := base.size_overlay (satMul (min (pos + skip.toNat) maxSize) wordBytes) payload
      rw [replay, satAdd_min, satAdd_min]
      rcases List.mem_cons.mp hp with rfl | hp
      · -- what comes later is placed behind this payload
        have hlater : ∀ q ∈ placements (pos + skip.toNat + wordCount payload.size) rest, ¬ q.Has (j / 2) :=
          fun q hq hq' => Nat.not_lt.mpr (Nat.le_trans (le_start_of_mem hq) hq'.1) hhas.2
        have heven := even_of_mem hs pos List.mem_cons_self
        refine (byteAt_replay_of_forall_not_has (hsize.symm ▸ hbase) hrest _ (hsize.symm ▸ hj) hlater).trans ?_
        exact (byteAt_overlay_placement hbase heven hj).trans (if_pos hhas)
      · exact ih (hsize.symm ▸ hbase) hrest _ (hsize.symm ▸ hj) hp

end Replay

/-! ### Any bytes on any base -/

section Apply

variable (patch : Bytes) {base : Bytes} (hbase : base.size ≤ maxAllocation) {j : Nat} (hj : j < base.size)
include hbase

include hj in
theorem byteAt_apply_of_has {p : Placement} (hp : p ∈ placements 0 (decode patch).segments) (hhas : p.Has (j / 2)) :
    (apply patch base).byteAt j = p.byteFor j :=
  byteAt_replay_of_has hbase (leading_decode patch).wellFormed 0 hj hp hhas

include hj in
theorem byteAt_apply_of_forall_not_has (hnone : ∀ p ∈ placements 0 (decode patch).segments, ¬ p.Has (j / 2)) :
    (apply patch base).byteAt j = base.byteAt j :=
  byteAt_replay_of_forall_not_has hbase (leading_decode patch).wellFormed 0 hj hnone

/-- A second time, the same bytes change nothing. -/
theorem apply_apply : apply patch (apply patch base) = apply patch base := by
  have hsize := size_apply patch base
  refine Bytes.ext_byteAt (size_apply _ _) fun j hj => ?_
  rw [size_apply] at hj
  by_cases hhas : ∃ p ∈ placements 0 (decode patch).segments, p.Has (j / 2)
  · obtain ⟨p, hp, hhas⟩ := hhas
    rw [byteAt_apply_of_has patch (hsize ▸ hbase) hj hp hhas, byteAt_apply_of_has patch hbase (hsize ▸ hj) hp hhas]
  · refine byteAt_apply_of_forall_not_has patch (hsize ▸ hbase) hj fun p hp hp' => hhas ⟨p, hp, hp'⟩

end Apply

/-- **What any bytes make of any base.**  No check of a place, a size or an offset fails.  The segments that the bytes
begin with place their payloads at words of the base, each at its own, and a byte of the base becomes the one that is
placed there, if there is one, and stays as it is otherwise.  So a second time, the same bytes change nothing. -/
theorem apply_placed {patch base : Bytes} (hpatch : patch.size ≤ maxAllocation) (hbase : base.size ≤ maxAllocation) :
    let segments := (decode patch).segments
    let result := apply patch base
    (patched? patch base = some result ∧ result.size = base.size) ∧
      (Leading patch segments ∧ (placements 0 segments).Pairwise fun p q => p.stop ≤ q.start) ∧
        (∀ j < base.size,
          (∀ p ∈ placements 0 segments, p.Has (j / 2) →
            j - 2 * p.start < p.payload.size ∧ result.byteAt j = p.byteFor j) ∧
          ((∀ p ∈ placements 0 segments, ¬ p.Has (j / 2)) → result.byteAt j = base.byteAt j)) ∧
          patched? patch result = some result := by
  intro segments result
  have hmax : maxAllocation ≤ maxSize := by decide
  have hformed := (leading_decode patch).wellFormed
  have hresult : result.size = base.size := size_apply patch base
  refine ⟨⟨patched?_eq hpatch (Nat.le_trans hbase hmax), hresult⟩,
    ⟨leading_decode patch, pairwise_placements 0 segments⟩, fun j hj => ⟨fun p hp hhas => ⟨?_, ?_⟩, fun hnone => ?_⟩, ?_⟩
  · have hin := (has_iff (even_of_mem hformed 0 hp)).mp hhas
    omega
  · exact byteAt_apply_of_has patch hbase hj hp hhas
  · exact byteAt_apply_of_forall_not_has patch hbase hj hnone
  · rw [patched?_eq hpatch (Nat.le_trans (hresult ▸ hbase) hmax), apply_apply patch hbase]

/-- A run of which the base has room for one byte, a gap of the largest count, a run behind it that the base has no room
for, and one that is cut off by the end of the bytes. -/
theorem apply_placed_past_end :
    let patch : Bytes := ⟨#[2, 0, 1, 0, 10, 11, 12, 13, 0, 0, 255, 255, 255, 255, 1, 0, 0, 0, 14, 15, 9, 0]⟩
    let base : Bytes := ⟨#[1, 2, 3]⟩
    (patch.size ≤ maxAllocation ∧ base.size ≤ maxAllocation) ∧
      placements 0 (decode patch).segments = [⟨1, ⟨#[10, 11, 12, 13]⟩⟩, ⟨4294967298, ⟨#[14, 15]⟩⟩] ∧
        patched? patch base = some (apply patch base) ∧
          (apply patch base).byteAt 1 = 2 ∧ (apply patch base).byteAt 2 = 10 := by
  intro patch base
  let parts : List Segment := [.run 1 ⟨#[10, 11, 12, 13]⟩, .gap 4294967295, .run 0 ⟨#[14, 15]⟩]
  have hparts : patch = forms parts ++ ⟨#[9, 0]⟩ := by decide +kernel
  have hread : (decode patch).segments = parts := by
    rw [hparts]
    refine segments_decode_forms (fun s hs => ?_) (by decide)
    simp only [parts, List.mem_cons, List.not_mem_nil, or_false] at hs
    rcases hs with rfl | rfl | rfl
    · exact ⟨2, by decide⟩
    · exact (by decide : (4294967295 : UInt32) ≠ 0)
    · exact ⟨1, by decide⟩
  have hpatch : patch.size ≤ maxAllocation := by decide
  have hbase : base.size ≤ maxAllocation := by decide
  have hplaced := apply_placed hpatch hbase
  rw [hread] at hplaced
  obtain ⟨⟨hok, -⟩, -, hbytes, -⟩ := hplaced
  refine ⟨⟨hpatch, hbase⟩, by rw [hread]; rfl, hok, ?_, ?_⟩
  · exact (hbytes 1 (by decide)).2 (by decide)
  · exact ((hbytes 2 (by decide)).1 ⟨1, ⟨#[10, 11, 12, 13]⟩⟩ List.mem_cons_self (by decide)).2

end Patch

end Retrace
