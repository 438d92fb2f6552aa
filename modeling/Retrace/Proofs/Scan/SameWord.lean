import Retrace.Proofs.Scan.FirstWord

/-!
# The first word that two strings share

The search for an equal word goes through blocks as the search for a difference does.  It marks the lanes of a
block in which nothing differs; what is left behind the last block is compared word by word.

* `sameWord?`: two words, taken out of their strings and compared;
* `differingSpan?_eq`: the loops answer what the scanners answer;
* `differingSpan_first`: that is the least index of a word that is equal.
-/

namespace Retrace

open Window

/-! ### Word by word -/

/-- Whether the words at index `k` are equal, up to the end of the strings. -/
def sameWord? (a b : Bytes) (k : Nat) : Option Bool :=
  (mul? 2 k).bind fun low => (add? low 2).bind fun next =>
    (a.slice? low (min next a.size)).bind fun x => (b.slice? low (min next a.size)).bind fun y =>
      some (decide (x.data = y.data))

/-- The first of the `n` words from index `k` on that is equal, or the index behind them. -/
def sameFrom? (a b : Bytes) (k : Nat) : Nat → Option Nat
  | 0 => some k
  | n + 1 => (sameWord? a b k).bind fun same => if same then some k else sameFrom? a b (k + 1) n

theorem extract_eq_wordAt (b : Bytes) (k : Nat) : b.extract (2 * k) (min (2 * k + 2) b.size) = b.wordAt k := by
  refine Bytes.ext_byteAt ?_ fun i hi => ?_
  · rw [Bytes.wordAt, ByteArray.size_extract, ByteArray.size_extract]
    omega
  · rw [ByteArray.size_extract] at hi
    rw [Bytes.wordAt, Bytes.byteAt_extract, Bytes.byteAt_extract, if_pos (by omega), if_pos (by omega)]

section Words

variable {a b : Bytes} (h : a.size = b.size) (hsmall : a.size ≤ maxAllocation)
include h hsmall

theorem sameWord?_eq {k : Nat} (hk : k < wordCount a.size) : sameWord? a b k = some ((whole a b).sameWord k) := by
  have hmax : maxAllocation + 16 ≤ maxSize := by decide
  have hin : 2 * k < a.size := by
    rw [wordCount] at hk
    omega
  have hleft : a.slice? (2 * k) (min (2 * k + 2) a.size) = some (a.wordAt k) := by
    rw [Bytes.slice?_eq (by omega) (by omega), extract_eq_wordAt]
  have hright : b.slice? (2 * k) (min (2 * k + 2) a.size) = some (b.wordAt k) := by
    rw [Bytes.slice?_eq (by omega) (by omega), h, extract_eq_wordAt]
  have hsame : decide ((a.wordAt k).data = (b.wordAt k).data) = (whole a b).sameWord k := by
    rw [Bool.eq_iff_iff, decide_eq_true_iff, sameWord_iff_wordAt_eq h, ByteArray.ext_iff]
  simp only [sameWord?, mul?_eq (show 2 * k ≤ maxSize by omega), add?_eq (show 2 * k + 2 ≤ maxSize by omega), hleft,
    hright, hsame, Option.bind_some]

theorem sameFrom?_eq {k n : Nat} (hn : k + n ≤ wordCount a.size) :
    sameFrom? a b k n = some (firstFrom (whole a b).sameWord k n) := by
  induction n generalizing k with
  | zero => rfl
  | succ n ih =>
    rw [sameFrom?, sameWord?_eq h hsmall (by omega), Option.bind_some, firstFrom, ih (by omega)]
    split <;> rfl

end Words

/-! ### Block by block -/

/-- The first of four words at offset `i` that is equal: the lowest mark of the lanes in which nothing differs. -/
def laneHit (i : Nat) (w : Window) : Option Nat :=
  if zeroLanes (w.difference 0) = 0 then none else some (i / 2 + trailingZeros (zeroLanes (w.difference 0)) / 16)

/-- The first of eight words at offset `i` that is equal. -/
def wordMaskHit (i : Nat) (w : Window) : Option Nat :=
  if w.wordMask 0 = 0 then none else some (i / 2 + trailingZeros (w.wordMask 0).toUInt64 / 2)

/-- The differing words at the start of two strings, eight bytes and then one word at a time. -/
def scalarDiffering? (a b : Bytes) : Option Nat :=
  searchFrom? a b 8 laneHit (fun i => sameFrom? a b (i / 2) (wordCount a.size - i / 2)) 0

/-- The differing words at the start of two strings, sixteen bytes at a time, and those of what is left. -/
def vectorDiffering? (a b : Bytes) : Option Nat :=
  searchFrom? a b 16 wordMaskHit
    (fun i => (a.slice? i a.size).bind fun x => (b.slice? i b.size).bind fun y =>
      (scalarDiffering? x y).map (i / 2 + ·)) 0

/-- The differing words at the start of two strings. -/
def Scanner.differingSpan? : Scanner → Bytes → Bytes → Option Nat
  | .scalar => scalarDiffering?
  | .vector => vectorDiffering?

theorem wordMask_block {a b : Bytes} {i stop : Nat} (hstop : i + 16 ≤ stop) :
    (block a b i stop).wordMask 0 = (whole a b).wordMask i := by
  refine maskOf_congr fun k hk => ?_
  rw [Nat.zero_add, sameByte_block (by omega), sameByte_block (by omega), Nat.add_assoc]

theorem differingSpan_block_end {a b : Bytes} {k : Nat} (hk : 2 * k ≤ a.size) :
    (block a b (2 * k) a.size).differingSpan = ((whole a b).drop k).differingSpan := by
  obtain ⟨hwords, hsame⟩ := sameWord_block_end (b := b) hk
  rw [differingSpan, differingSpan, hwords]
  exact firstFrom_congr fun j _ hj => hsame j (by omega)

section Differing

variable {a b : Bytes} (h : a.size = b.size) (hsmall : a.size ≤ maxAllocation)
include h hsmall

theorem scalarDiffering?_eq : scalarDiffering? a b = some (whole a b).scalarDifferingSpan := by
  refine searchFrom?_eq_loop (whole a b).scalarDifferingFrom h hsmall (by decide) rfl ?_ ?_
  · intro i n hin
    rw [laneHit, difference_block (Nat.le_refl _), getD_ite_none]
    rfl
  · intro i _ hle _
    have hwords : i / 2 ≤ wordCount a.size := by
      rw [wordCount]
      omega
    exact sameFrom?_eq h hsmall (Nat.le_of_eq (Nat.add_sub_cancel' hwords))

theorem vectorDiffering?_eq : vectorDiffering? a b = some (whole a b).vectorDifferingSpan := by
  refine searchFrom?_eq_loop (whole a b).vectorDifferingFrom h hsmall (by decide) rfl ?_ ?_
  · intro i n hin
    rw [wordMaskHit, wordMask_block (Nat.le_refl _), getD_ite_none]
    rfl
  · intro i heven hle _
    obtain ⟨k, rfl⟩ : ∃ k, i = 2 * k := ⟨i / 2, by omega⟩
    obtain ⟨hleft, hright⟩ := size_extract_end h (2 * k)
    have hrest := scalarDiffering?_eq (hleft.trans hright.symm) (by omega)
    rw [← block, scalarDifferingSpan_eq, differingSpan_block_end hle] at hrest
    rw [bind_slice?_end h hle, hrest, Option.map_some, vectorDifferingFrom, Nat.mul_div_cancel_left k (by decide),
      scalarDifferingSpan_eq]

theorem Scanner.differingSpan?_eq (s : Scanner) : s.differingSpan? a b = some (s.differingSpan (whole a b)) := by
  cases s with
  | scalar => exact scalarDiffering?_eq h hsmall
  | vector => exact vectorDiffering?_eq h hsmall

end Differing

/-! ### The first word that is equal -/

/-- **The number of differing words is the index of the first word that is equal**, for each scanner; an odd last byte
is compared as a word of one byte.  Where no word is equal, it is the number of words.  The loops over blocks come to
this answer, and read nothing but the two strings. -/
theorem Scanner.differingSpan_first (s : Scanner) {a b : Bytes} (h : a.size = b.size) :
    (a.size ≤ maxAllocation → s.differingSpan? a b = some (s.differingSpan (whole a b))) ∧
      let same := {k | k < wordCount a.size ∧ a.wordAt k = b.wordAt k}
      (same.Nonempty → IsLeast same (s.differingSpan (whole a b))) ∧
        (¬ same.Nonempty → s.differingSpan (whole a b) = wordCount a.size) := by
  refine ⟨fun hsmall => s.differingSpan?_eq h hsmall, ?_⟩
  rw [s.differingSpan_eq]
  exact firstFrom_zero_isLeast fun k => and_congr_right fun _ => (sameWord_iff_wordAt_eq h k).symm

/-- Strings that share their last byte, which is a word of its own, and before it one half of a word. -/
theorem Scanner.differingSpan_first_half_word :
    let a : Bytes := ⟨#[9, 9, 9, 9, 9, 9, 9, 9, 9, 9, 9, 9, 9, 9, 9, 9, 9]⟩
    let b : Bytes := ⟨#[8, 8, 8, 8, 8, 8, 9, 8, 8, 8, 8, 8, 8, 8, 8, 8, 9]⟩
    (a.size = b.size ∧ a.size ≤ maxAllocation) ∧ (a.byteAt 6 = b.byteAt 6 ∧ a.wordAt 3 ≠ b.wordAt 3) ∧
      Scanner.vector.differingSpan? a b = some 8 ∧
        IsLeast {k | k < wordCount a.size ∧ a.wordAt k = b.wordAt k} 8 := by
  intro a b
  have hsize : a.size = b.size := rfl
  have hsame : 8 < wordCount a.size ∧ a.wordAt 8 = b.wordAt 8 := by decide
  have hspan : Scanner.vector.differingSpan (whole a b) = 8 := (Scanner.differingSpan_eq _ _).trans (by decide)
  obtain ⟨hloops, hleast, -⟩ := Scanner.differingSpan_first .vector hsize
  rw [hspan] at hloops hleast
  exact ⟨⟨hsize, by decide⟩, by decide, hloops (by decide), hleast ⟨8, hsame⟩⟩

end Retrace
